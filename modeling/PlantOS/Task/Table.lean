import Mathlib.Data.Fintype.Pi
import PlantOS.Common.ByteMemory
import PlantOS.Common.LinkRing
import PlantOS.Common.Word

/-!
# The task table, the scheduler and signals

The pool of task control blocks, the circular run list through them, and the functions that create, block,
wake, stop, signal, schedule and end tasks. `TaskSys` is the pool with what the processor holds of the
running task (CR3, the FPU registers, TSS.rsp0) and the memory in which the saved frames are; `taskStep` is
one call.

A function that walks the run list has no result if the walk does not come to its end: the pool has 64
entries, so a walk that has not ended after 64 links never does. The results of `kmalloc`,
`pmm_alloc_page` and of the functions on address spaces are inputs. The memory areas and the descriptors of
a task are modelled with the functions that use them (`Proc`, `Fs.OfdTable`).

Reference: `task/task.c`, `task/sched.c`, `task/signal.c`.
-/

namespace PlantOS.Task

open Word

/-! ## The state -/

/-- A task control block, by its position in `task_pool`. -/
abbrev Slot := Fin 64

/-- `task_state_t`. -/
inductive TaskState
  | unused | ready | running | zombie | blocked | stopped
deriving DecidableEq, Repr

/-- What a task is blocked on: another task (`task_waitpid`), or some other object. -/
inductive Channel
  | task (i : Slot)
  | other (addr : ℕ)
deriving DecidableEq

/-- The 512 bytes of `fxsave`. -/
abbrev FpuState := BitVec 4096

/-- `fpu_init_state`: FCW = 0x037F at offset 0, MXCSR = 0x1F80 at offset 24. -/
def fpuInitState : FpuState := 0x037F#4096 ||| (0x1F80#4096 <<< (24 * 8))

/-- `struct task`. The pointers `stack_base` and `kstack_base` are 0 for NULL. -/
structure Tcb where
  rsp : ℕ
  pid : ℕ
  ppid : ℕ
  pgid : ℕ
  uid : ℕ
  gid : ℕ
  state : TaskState
  stackBase : ℕ
  ticks : ℕ
  next : Option Slot
  kstackBase : ℕ
  kstackTop : ℕ
  isUser : Bool
  cr3 : ℕ
  elfLoadBase : ℕ
  elfNumPages : ℕ
  pendingSignals : BitVec 32
  signalHandlers : Fin 12 → ℕ
  exitCode : ℤ
  blockChannel : Option Channel
  fpuState : FpuState
  fpuUsed : Bool

/-- `memset(t, 0, sizeof(*t))`. -/
def Tcb.zero : Tcb :=
  ⟨0, 0, 0, 0, 0, 0, .unused, 0, 0, none, 0, 0, false, 0, 0, 0, 0, fun _ => 0, 0, none, 0, false⟩

/-- The pool, the running task, and what the processor holds of it. -/
structure TaskSys where
  tasks : Slot → Tcb
  nextPid : ℕ
  current : Option Slot
  cr3 : ℕ
  fpu : FpuState
  tssRsp0 : ℕ
  mem : ℕ → UInt8

namespace TaskSys

/-- Change one task control block. -/
def modify (s : TaskSys) (i : Slot) (f : Tcb → Tcb) : TaskSys :=
  { s with tasks := Function.update s.tasks i (f (s.tasks i)) }

/-- The `next` pointers. -/
def links (s : TaskSys) (i : Slot) : Option Slot := (s.tasks i).next

/-- The fields of the running task. -/
def currentTask (s : TaskSys) : Option Tcb := s.current.map s.tasks

end TaskSys

section

variable {s : TaskSys} {i j : Slot}

@[simp] theorem tasks_modify_self (f : Tcb → Tcb) : (s.modify i f).tasks i = f (s.tasks i) :=
  Function.update_self _ _ _

@[simp] theorem tasks_modify_ne (hne : j ≠ i) (f : Tcb → Tcb) : (s.modify i f).tasks j = s.tasks j :=
  Function.update_of_ne hne _ _

end

/-- Before `sched_init`. -/
def TaskSys.boot (bootCr3 : ℕ) : TaskSys := ⟨fun _ => Tcb.zero, 0, none, bootCr3, 0, 0, fun _ => 0⟩

/-! ## Saved frames -/

/-- The words of a saved frame, lowest address first: `r15`, `r14`, `r13`, `r12`, `r11`, `r10`, `r9`, `r8`,
`rbp`, `rdi`, `rsi`, `rdx`, `rcx`, `rbx`, `rax`, `int_no`, `err_code`, `rip`, `cs`, `rflags`, `rsp`, `ss`. -/
abbrev Frame := Fin 22 → ℕ

/-- Word `i` of the frame at `rsp`. -/
def frameWord (mem : ℕ → UInt8) (rsp : ℕ) (i : Fin 22) : ℕ := Memory.load64 mem (rsp + 8 * i)

/-- Push a frame below `top`. -/
def pushFrame (mem : ℕ → UInt8) (top : ℕ) (f : Frame) : ℕ → UInt8 :=
  (List.finRange 22).foldr (fun (i : Fin 22) mem => Memory.store64 mem (top - 176 + 8 * i) (f i)) mem

/-- `memset(base, 0, TASK_STACK_SIZE)`. -/
def clearStack (mem : ℕ → UInt8) (base : ℕ) : ℕ → UInt8 := fun x =>
  if base ≤ x ∧ x < base + 4096 then 0 else mem x

/-- The first frame of a kernel task that starts at `rip` on the stack that ends at `top`. -/
def kernelFrame (top rip r12 r13 : ℕ) : Frame := fun i =>
  match i with
  | 2 => r13 | 3 => r12 | 17 => rip | 18 => 0x08 | 19 => 0x200 | 20 => top | 21 => 0x10
  | _ => 0

/-- The first frame of a user task. -/
def userFrame (rip rsp rdi rsi : ℕ) : Frame := fun i =>
  match i with
  | 9 => rdi | 10 => rsi | 17 => rip | 18 => 0x1B | 19 => 0x200 | 20 => rsp | 21 => 0x23
  | _ => 0

/-- The frame of a child, from the frame in which its parent has called `fork`. -/
def forkFrame (regs : Frame) : Frame := fun i =>
  match i with
  | 14 => 0 | 15 => 0 | 16 => 0
  | i => regs i

/-! ## The run list -/

/-- `alloc_task`. -/
def allocTask (s : TaskSys) : Option (Slot × TaskSys) :=
  ((List.finRange 64).find? fun i => (s.tasks i).state == .unused).map fun i =>
    (i, { s with nextPid := s.nextPid + 1 }.modify i fun _ =>
      { Tcb.zero with pid := s.nextPid, pgid := s.nextPid, state := .ready })

/-- `task_insert`. -/
def taskInsert (s : TaskSys) (i : Slot) : TaskSys :=
  match s.current with
  | none => s.modify i fun t => { t with next := some i }
  | some cur =>
    (s.modify i fun t => { t with next := (s.tasks cur).next }).modify cur fun t =>
      { t with next := some i }

/-- `task_unlink`. -/
def taskUnlink (s : TaskSys) (i : Slot) : Option TaskSys :=
  if (s.tasks i).next = some i then some s
  else (LinkRing.prevOf s.links i 64 i).map fun prev =>
    s.modify prev fun t => { t with next := (s.tasks i).next }

/-! ## Creation of tasks -/

/-- What a function that creates a task returns: the task or NULL, and the state. -/
abbrev Created := Option Slot × TaskSys

/-- The failure of a function that has allocated the block `i`. -/
def createFails (s : TaskSys) (i : Slot) : Created :=
  (none, s.modify i fun t => { t with state := .unused })

/-- The common end of the functions that create a task: push its first frame and link it in. -/
def startTask (s : TaskSys) (i : Slot) (top : ℕ) (f : Frame) : Created :=
  (some i, taskInsert ({ s with mem := pushFrame s.mem top f }.modify i fun t =>
    { t with rsp := top - 176 }) i)

/-- `task_create`, with the result of `kmalloc`. Without an entry it is the task that runs already. -/
def taskCreate (s : TaskSys) (entry : Option ℕ) (stack : ℕ) : Created :=
  match allocTask s with
  | none => (none, s)
  | some (i, s) =>
    match entry with
    | none => (some i, taskInsert s i)
    | some entry =>
      if stack = 0 then createFails s i
      else
        startTask ({ s with mem := clearStack s.mem stack }.modify i fun t => { t with stackBase := stack })
          i (stack + 4096) (kernelFrame (stack + 4096) entry 0 0)

/-- `kthread_create`; `trampoline` is the address of `kthread_trampoline`. -/
def kthreadCreate (s : TaskSys) (trampoline fn arg stack : ℕ) : Created :=
  match allocTask s with
  | none => (none, s)
  | some (i, s) =>
    if stack = 0 then createFails s i
    else
      startTask ({ s with mem := clearStack s.mem stack }.modify i fun t => { t with stackBase := stack })
        i (stack + 4096) (kernelFrame (stack + 4096) trampoline fn arg)

/-- The pid of the running task, or 0. -/
def currentPid (s : TaskSys) : ℕ := (s.currentTask.map Tcb.pid).getD 0

/-- The kernel stack of a user task. -/
def giveKstack (s : TaskSys) (i : Slot) (kstack : ℕ) : TaskSys :=
  { s with mem := clearStack s.mem kstack }.modify i fun t =>
    { t with kstackBase := kstack, kstackTop := kstack + 4096 }

/-- `task_create_user`. `cr3`, `ustack` and `kstack` are the results of `vmm_create_address_space`,
`pmm_alloc_page` and `kmalloc`. -/
def taskCreateUserTcb (s : TaskSys) (entry cr3 ustack kstack : ℕ) : Created :=
  match allocTask s with
  | none => (none, s)
  | some (i, s) =>
    let s := s.modify i fun t => { t with isUser := true, ppid := currentPid s, cr3 := cr3 }
    if cr3 = 0 ∨ ustack = 0 ∨ kstack = 0 then createFails s i
    else
      startTask ((giveKstack s i kstack).modify i fun t =>
        { t with fpuState := fpuInitState, fpuUsed := true }) i (kstack + 4096)
        (userFrame entry 0x800000 0 0)

/-- The registers `rsp`, `rdi` and `rsi` with which a program starts: the end of the stack page, or the
place below the argument block, the number of arguments and the address of `argv`. -/
def argRegs (argv : List (List UInt8)) : ℕ × ℕ × ℕ :=
  if argv = [] then (0x800000, 0, 0)
  else
    let args := argv.take 32
    let strings : ℤ := 4096 - (args.map fun a => (a.length + 1 : ℤ)).sum
    let block := strings / 8 * 8 - 8 - 8 * args.length
    (wrap 64 (0x7FF000 + (block - 8) / 16 * 16), args.length, wrap 64 (0x7FF000 + block))

/-- `task_create_user_elf`, with the results of `pmm_alloc_page` and `kmalloc`. -/
def taskCreateElfTcb (s : TaskSys) (entry base npages cr3 : ℕ) (argv : List (List UInt8))
    (ustack kstack : ℕ) : Created :=
  match allocTask s with
  | none => (none, s)
  | some (i, s) =>
    let s := s.modify i fun t =>
      { t with isUser := true, ppid := currentPid s, cr3 := cr3, elfLoadBase := base,
               elfNumPages := npages }
    if ustack = 0 ∨ kstack = 0 then createFails s i
    else
      let regs := argRegs argv
      startTask ((giveKstack s i kstack).modify i fun t =>
        { t with fpuState := fpuInitState, fpuUsed := true }) i (kstack + 4096)
        (userFrame entry regs.1 regs.2.1 regs.2.2)

/-- `task_fork`. `cr3` and `kstack` are the results of `vmm_clone_address_space` and `kmalloc`. -/
def taskForkTcb (s : TaskSys) (regs : Frame) (cr3 kstack : ℕ) : Created :=
  match s.current with
  | none => (none, s)
  | some cur =>
    if ¬(s.tasks cur).isUser ∨ (s.tasks cur).cr3 = 0 then (none, s)
    else
      match allocTask s with
      | none => (none, s)
      | some (i, s) =>
        let parent := s.tasks cur
        let s := s.modify i fun t =>
          { t with isUser := true, ppid := parent.pid, pgid := parent.pgid, uid := parent.uid,
                   gid := parent.gid, cr3 := cr3 }
        if cr3 = 0 then createFails s i
        else
          let s := s.modify i fun t =>
            { t with elfLoadBase := parent.elfLoadBase, elfNumPages := parent.elfNumPages,
                     fpuState := parent.fpuState, fpuUsed := parent.fpuUsed }
          if kstack = 0 then createFails s i
          else startTask (giveKstack s i kstack) i (kstack + 4096) (forkFrame regs)

/-! ## Blocking and waking -/

/-- A task that is blocked on `channel`. -/
def Tcb.BlockedOn (t : Tcb) (channel : Channel) : Prop :=
  t.state = .blocked ∧ t.blockChannel = some channel

instance (t : Tcb) (channel : Channel) : Decidable (t.BlockedOn channel) :=
  inferInstanceAs (Decidable (_ ∧ _))

/-- Make a blocked task ready. -/
def Tcb.wake (t : Tcb) : Tcb := { t with state := .ready, blockChannel := none }

/-- `task_block`. -/
def taskBlock (s : TaskSys) (channel : Channel) : TaskSys :=
  match s.current with
  | none => s
  | some cur => s.modify cur fun t => { t with state := .blocked, blockChannel := some channel }

/-- `task_wake_one`: the first task on the run list, from the running one, that is blocked on `channel`. -/
def taskWakeOne (s : TaskSys) (channel : Channel) : Option TaskSys :=
  match s.current with
  | none => some s
  | some head =>
    (LinkRing.seek s.links (fun i => (s.tasks i).BlockedOn channel) head 64 head).map fun i =>
      if (s.tasks i).BlockedOn channel then s.modify i Tcb.wake else s

/-- `task_wake_all`. -/
def taskWakeAll (s : TaskSys) (channel : Channel) : Option TaskSys :=
  match s.current with
  | none => some s
  | some head =>
    (LinkRing.nodes s.links head 64 head).map fun l =>
      { s with tasks := fun i =>
          if i ∈ l ∧ (s.tasks i).BlockedOn channel then (s.tasks i).wake else s.tasks i }

/-- `task_find`. -/
def taskFind (s : TaskSys) (pid : ℕ) : Option Slot :=
  (List.finRange 64).find? fun i => (s.tasks i).pid == pid && (s.tasks i).state != .unused

/-- `task_stop`. -/
def taskStop (s : TaskSys) (i : Slot) : Option TaskSys :=
  if (s.tasks i).state = .unused ∨ (s.tasks i).state = .zombie then some s
  else taskWakeAll (s.modify i fun t => { t with state := .stopped, blockChannel := none }) (.task i)

/-- `task_continue`. -/
def taskContinue (s : TaskSys) (i : Slot) : TaskSys :=
  if (s.tasks i).state ≠ .stopped then s else s.modify i fun t => { t with state := .ready }

/-! ## The end of a task -/

/-- The exit code of `SYS_EXIT`. -/
def setExitCode (s : TaskSys) (code : ℤ) : TaskSys :=
  match s.current with
  | none => s
  | some cur => s.modify cur fun t => { t with exitCode := code }

/-- `task_exit` of the task `t`, up to its last loop: the address space is left and released, the task becomes
a zombie and whoever waits for it is woken. -/
def exitTask (bootCr3 : ℕ) (s : TaskSys) (t : Slot) : Option TaskSys :=
  let s :=
    if (s.tasks t).cr3 ≠ 0 ∧ (s.tasks t).cr3 ≠ bootCr3 then
      { s with cr3 := bootCr3 }.modify t fun t => { t with cr3 := 0 }
    else s
  taskWakeAll (s.modify t fun t => { t with state := .zombie }) (.task t)

/-- `task_exit`. -/
def taskExitTcb (bootCr3 : ℕ) (s : TaskSys) : Option TaskSys := s.current.bind (exitTask bootCr3 s)

/-- Take a zombie off the run list and give its block back. -/
def reap (s : TaskSys) (i : Slot) : Option TaskSys :=
  (taskUnlink s i).map fun s => s.modify i fun t => { t with kstackBase := 0, state := .unused }

/-- `task_waitpid`, up to the point where the caller is blocked. -/
def taskWaitpid (s : TaskSys) (pid : ℕ) : Option TaskSys :=
  match taskFind s pid with
  | none => some s
  | some i =>
    if (s.tasks i).ppid ≠ currentPid s then some s
    else if (s.tasks i).state = .zombie then reap s i
    else if (s.tasks i).state = .stopped then some s
    else some (taskBlock s (.task i))

/-- The rest of `task_waitpid`, after the caller has been woken. -/
def taskWaitpidWoken (s : TaskSys) (pid : ℕ) : Option TaskSys :=
  match taskFind s pid with
  | none => some s
  | some i => if (s.tasks i).state = .zombie then reap s i else some s

/-- `task_kill`. -/
def taskKillTcb (bootCr3 : ℕ) (s : TaskSys) (pid : ℕ) : Option TaskSys :=
  match taskFind s pid with
  | none => some s
  | some i =>
    if s.current = some i ∨ pid = 0 then some s
    else
      let s :=
        if (s.tasks i).cr3 ≠ 0 ∧ (s.tasks i).cr3 ≠ bootCr3 then s.modify i fun t => { t with cr3 := 0 }
        else s
      (taskWakeAll s (.task i)).bind fun s =>
        (taskUnlink s i).map fun s =>
          s.modify i fun t => { t with stackBase := 0, kstackBase := 0, state := .unused }

/-! ## Signals -/

/-- `MAX_SIGNALS` and the signals with a meaning of their own. -/
def maxSignals : ℕ := 12
def sigkill : ℕ := 1
def sigtstp : ℕ := 7
def sigstop : ℕ := 8
def sigcont : ℕ := 9

/-- `1u << sig`. -/
def sigBit (sig : ℕ) : BitVec 32 := 1#32 <<< sig

/-- `t->signal_handlers[sig]`. -/
def Tcb.handler (t : Tcb) (sig : ℕ) : ℕ := if h : sig < 12 then t.signalHandlers ⟨sig, h⟩ else 0

/-- The last part of `signal_send`: the signal becomes pending, and a blocked task is made ready. -/
def Tcb.pend (t : Tcb) (sig : ℕ) : Tcb :=
  let t := { t with pendingSignals := t.pendingSignals ||| sigBit sig }
  if t.state = .blocked then t.wake else t

/-- `signal_send`. -/
def signalSend (s : TaskSys) (pid : ℕ) (signum : ℤ) : Option TaskSys :=
  if signum < 1 ∨ maxSignals ≤ signum then some s
  else
    let sig := signum.toNat
    match taskFind s pid with
    | none => some s
    | some i =>
      if ¬(s.tasks i).isUser then some s
      else if sig = sigcont then
        let s := s.modify i fun t =>
          { t with pendingSignals := t.pendingSignals &&& ~~~(sigBit sigtstp ||| sigBit sigstop) }
        some (if (s.tasks i).state = .stopped then taskContinue s i else s)
      else if sig = sigstop ∨ (sig = sigtstp ∧ (s.tasks i).handler sigtstp = 0) then taskStop s i
      else some (s.modify i fun t => t.pend sig)

/-- `signal_register`. -/
def signalRegister (s : TaskSys) (signum : ℤ) (handler : ℕ) : TaskSys :=
  if h : 1 ≤ signum ∧ signum < 12 then
    if signum = sigkill ∨ signum = sigstop then s
    else
      match s.current with
      | none => s
      | some cur => s.modify cur fun t =>
        { t with signalHandlers := Function.update t.signalHandlers ⟨signum.toNat, by omega⟩ handler }
  else s

/-- The signal that `signal_deliver` handles: the lowest that is pending. -/
def Tcb.nextSignal (t : Tcb) : Option ℕ :=
  (List.range' 1 11).find? fun sig => t.pendingSignals.getLsbD sig

/-- The signal `sig` ends the task: SIGKILL, or a signal without a handler. -/
def Tcb.isFatal (t : Tcb) (sig : ℕ) : Bool := sig == sigkill || t.handler sig == 0

/-- The termination in `signal_deliver`. Its copy of `task_unlink` has the test behind the loop. -/
def signalTerminate (s : TaskSys) (i : Slot) : Option TaskSys :=
  let s := s.modify i fun t =>
    { t with elfLoadBase := if t.elfNumPages > 0 then 0 else t.elfLoadBase
             elfNumPages := 0, stackBase := 0, kstackBase := 0 }
  (LinkRing.prevOf s.links i 64 i).map fun prev =>
    (if prev ≠ i then s.modify prev fun t => { t with next := (s.tasks i).next } else s).modify i fun t =>
      { t with state := .unused }

/-- `user_rsp -= 8; *(uint64_t *)user_rsp = word`. -/
def pushUser (st : (ℕ → UInt8) × ℕ) (word : ℕ) : (ℕ → UInt8) × ℕ :=
  let rsp := wrap 64 (st.2 - 8)
  (Memory.store64 st.1 rsp word, rsp)

/-- The entry of a handler: the signal, `rflags` and `rip` are pushed on the user stack, and the saved frame
is made to resume at the handler. -/
def enterHandler (mem : ℕ → UInt8) (frame sig handler : ℕ) : ℕ → UInt8 :=
  let rip := frameWord mem frame 17
  let rflags := frameWord mem frame 19
  let st := pushUser (pushUser (pushUser (mem, frameWord mem frame 20) sig) rflags) rip
  let mem := Memory.store64 st.1 (frame + 8 * 17) handler
  let mem := Memory.store64 mem (frame + 8 * 20) st.2
  Memory.store64 mem (frame + 8 * 9) sig

/-- The three words below the stack pointer in the saved frame are not in the frame itself. -/
def StackApart (mem : ℕ → UInt8) (rsp : ℕ) : Prop :=
  ∀ d ∈ ([8, 16, 24] : List ℤ), wrap 64 (frameWord mem rsp 20 - d) + 8 ≤ rsp ∨
    rsp + 176 ≤ wrap 64 (frameWord mem rsp 20 - d)

instance (mem : ℕ → UInt8) (rsp : ℕ) : Decidable (StackApart mem rsp) :=
  inferInstanceAs (Decidable (∀ d ∈ ([8, 16, 24] : List ℤ), _))

/-- `signal_deliver`. -/
def signalDeliver (s : TaskSys) (i : Slot) : Option TaskSys :=
  if (s.tasks i).pendingSignals = 0 ∨ ¬(s.tasks i).isUser then some s
  else
    match (s.tasks i).nextSignal with
    | none => some s
    | some sig =>
      let s := s.modify i fun t => { t with pendingSignals := t.pendingSignals &&& ~~~(sigBit sig) }
      if (s.tasks i).isFatal sig then signalTerminate s i
      else some { s with mem := enterHandler s.mem (s.tasks i).rsp sig ((s.tasks i).handler sig) }

/-- `signal_return`, on the frame of the system call. `syscall_handler` stores no result in `rax` for it. -/
def signalReturn (mem : ℕ → UInt8) (regs : Frame) : Frame :=
  let userRsp := regs 20
  let savedRip := Memory.load64 mem userRsp
  let userRsp := wrap 64 (userRsp + 8)
  let savedRflags := Memory.load64 mem userRsp
  let userRsp := wrap 64 (userRsp + 8)
  -- the number of the signal is skipped
  let userRsp := wrap 64 (userRsp + 8)
  Function.update (Function.update (Function.update regs 17 savedRip) 19 savedRflags) 20 userRsp

/-! ## The scheduler -/

/-- `cur_alive`. -/
def TaskState.alive : TaskState → Bool
  | .running | .ready | .blocked => true
  | .unused | .zombie | .stopped => false

/-- Save the stack pointer of the running task. -/
def saveRsp (s : TaskSys) (cur : Slot) (oldRsp : ℕ) : TaskSys :=
  if (s.tasks cur).state.alive then
    s.modify cur fun t => { t with rsp := oldRsp, ticks := t.ticks + 1 }
  else s

/-- The address space of a task. -/
def Tcb.space (bootCr3 : ℕ) (t : Tcb) : ℕ := if t.cr3 ≠ 0 then t.cr3 else bootCr3

/-- What becomes of the running task when it is switched out, with the FPU registers `fpu`. -/
def Tcb.switchOut (t : Tcb) (fpu : FpuState) : Tcb :=
  if t.state.alive then
    { t with state := if t.state = .running then .ready else t.state
             fpuState := if t.fpuUsed then fpu else t.fpuState }
  else t

/-- The context switch from `cur` to `next`. -/
def switchTo (bootCr3 : ℕ) (s : TaskSys) (cur next : Slot) : TaskSys :=
  let s := s.modify cur fun t => t.switchOut s.fpu
  let s := { s.modify next fun t => { t with state := .running } with current := some next }
  let t := s.tasks next
  { s with
    fpu := if t.fpuUsed then t.fpuState else s.fpu
    tssRsp0 := if t.isUser then t.kstackTop else s.tssRsp0
    cr3 := if t.space bootCr3 ≠ (s.tasks cur).space bootCr3 then t.space bootCr3 else s.cr3 }

/-- The last part of `schedule_from_irq`: deliver a signal to `next`, and return its stack pointer. -/
def resumeNext (s : TaskSys) (next : Slot) (oldRsp : ℕ) : Option (ℕ × TaskSys) :=
  if (s.tasks next).pendingSignals ≠ 0 ∧ (s.tasks next).isUser then
    (signalDeliver s next).map fun s =>
      if (s.tasks next).state = .unused then (oldRsp, s) else ((s.tasks next).rsp, s)
  else some ((s.tasks next).rsp, s)

/-- `schedule_from_irq`. -/
def scheduleFromIrq (bootCr3 : ℕ) (s : TaskSys) (oldRsp : ℕ) : Option (ℕ × TaskSys) :=
  match s.current with
  | none => some (oldRsp, s)
  | some cur =>
    match (s.tasks cur).next with
    | none => some (oldRsp, s)
    | some start =>
      let s := saveRsp s cur oldRsp
      (LinkRing.seek s.links (fun i => (s.tasks i).state == .ready) start 64 start).bind fun next =>
        if (s.tasks next).state ≠ .ready then some (oldRsp, s)
        else resumeNext (switchTo bootCr3 s cur next) next oldRsp

/-- `task_yield`. Its switch of stacks does not concern the table, except for the saved stack pointer. -/
def taskYield (s : TaskSys) (oldRsp : ℕ) : Option TaskSys :=
  match s.current with
  | none => some s
  | some cur =>
    match (s.tasks cur).next with
    | none => some s
    | some start =>
      (LinkRing.seek s.links (fun i => (s.tasks i).state == .ready) start 64 start).map fun next =>
        if next = cur ∨ (s.tasks next).state ≠ .ready then s
        else
          { (s.modify cur fun t => { t with state := .ready, rsp := oldRsp }).modify next fun t =>
              { t with state := .running } with current := some next }

/-- `sched_init`: the task that runs already, and the idle task, with its entry and its stack. -/
def schedInit (bootCr3 idleEntry idleStack : ℕ) : TaskSys :=
  let r := taskCreate (.boot bootCr3) none 0
  match r.1 with
  | none => r.2
  | some i =>
    (taskCreate { r.2.modify i fun t => { t with state := .running } with current := some i }
      (some idleEntry) idleStack).2

/-! ## One call -/

/-- A call. `schedule` is a timer interrupt, with the stack pointer of the interrupted task and the contents
of the FPU registers. A task that ends by `SYS_EXIT` has an exit code. -/
inductive TaskOp
  | create (entry : Option ℕ) (stack : ℕ)
  | kthread (trampoline fn arg stack : ℕ)
  | createUser (entry cr3 ustack kstack : ℕ)
  | createElf (entry base npages cr3 : ℕ) (argv : List (List UInt8)) (ustack kstack : ℕ)
  | fork (regs : Frame) (cr3 kstack : ℕ)
  | exit (code : Option ℤ)
  | waitpid (pid : ℕ)
  | waitpidWoken (pid : ℕ)
  | kill (pid : ℕ)
  | block (channel : Channel)
  | wakeOne (channel : Channel)
  | wakeAll (channel : Channel)
  | stop (i : Slot)
  | resume (i : Slot)
  | signal (pid : ℕ) (signum : ℤ)
  | register (signum : ℤ) (handler : ℕ)
  | yield
  | schedule (oldRsp : ℕ) (fpu : FpuState)

/-- The running task has not ended: it is not in the last loop of `task_exit`. -/
def TaskSys.currentRuns (s : TaskSys) : Bool :=
  match s.currentTask with
  | none => false
  | some t => t.state != .zombie

/-- `SYS_YIELD`. -/
def sysYield (s : TaskSys) : TaskSys :=
  match s.current with
  | none => s
  | some cur =>
    if (s.tasks cur).state = .running then s.modify cur fun t => { t with state := .ready } else s

/-- What a call does. -/
def taskCall (bootCr3 : ℕ) (s : TaskSys) : TaskOp → Option TaskSys
  | .create entry stack => some (taskCreate s entry stack).2
  | .kthread trampoline fn arg stack => some (kthreadCreate s trampoline fn arg stack).2
  | .createUser entry cr3 ustack kstack => some (taskCreateUserTcb s entry cr3 ustack kstack).2
  | .createElf entry base npages cr3 argv ustack kstack =>
    some (taskCreateElfTcb s entry base npages cr3 argv ustack kstack).2
  | .fork regs cr3 kstack => some (taskForkTcb s regs cr3 kstack).2
  | .exit code => taskExitTcb bootCr3 (match code with
    | none => s
    | some code => setExitCode s code)
  | .waitpid pid => taskWaitpid s pid
  | .waitpidWoken pid => taskWaitpidWoken s pid
  | .kill pid => taskKillTcb bootCr3 s pid
  | .block channel => some (taskBlock s channel)
  | .wakeOne channel => taskWakeOne s channel
  | .wakeAll channel => taskWakeAll s channel
  | .stop i => taskStop s i
  | .resume i => some (taskContinue s i)
  | .signal pid signum => signalSend s pid signum
  | .register signum handler => some (signalRegister s signum handler)
  | .yield => some (sysYield s)
  | .schedule oldRsp fpu => (scheduleFromIrq bootCr3 { s with fpu := fpu } oldRsp).map Prod.snd

/-- The calls that interrupt handlers make. -/
def TaskOp.fromIrq : TaskOp → Bool
  | .schedule _ _ | .signal _ _ | .wakeOne _ | .wakeAll _ | .stop _ | .resume _ => true
  | _ => false

/-- One step: a call of the running task, if it has not ended, or an interrupt. -/
def taskStep (bootCr3 : ℕ) (s : TaskSys) (op : TaskOp) : Option TaskSys :=
  if s.currentRuns || op.fromIrq then taskCall bootCr3 s op else some s

end PlantOS.Task
