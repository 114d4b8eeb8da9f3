import PlantOS.Fs.ElfLoader
import PlantOS.Mm.Vma

/-!
# The memory of user processes

The system calls and the kernel functions that give memory to user processes and take it away: `SYS_SBRK`,
`SYS_MMAP`, `SYS_MUNMAP`, the page-fault handler, the creation of tasks, `task_fork` and `task_exit`.
`UserSys` is the system of all processes over one physical memory, and `userStep` one call in it.

Each of these functions is one step of the system; system calls and faults run with interrupts off. Whether
there was a free slot in the task table and memory for a kernel stack are inputs.

Reference: `cpu/syscall.c`, `cpu/isr.c`, `task/task.c`.
-/

namespace PlantOS.Task

open PlantOS.Mm PlantOS.Fs Word

/-- `(uint64_t)-1`. -/
def sysError : ℕ := 2 ^ 64 - 1

/-- `VMM_PRESENT | VMM_WRITE | VMM_USER`. -/
def userRw : ℕ := 7

/-- `USER_STACK_VADDR`. -/
def userStackVaddr : ℕ := 0x7FF000

/-- `USER_STACK_TOP`. -/
def userStackTop : ℕ := 0x800000

/-- The fields of `struct task` that describe the memory of a user task. -/
structure Proc where
  cr3 : ℕ
  brk : ℕ
  vmas : List Vma

/-- Allocate a page, clear it and map it at `va`; `false` if there is no page. -/
def mapNewPage (vm : Vm) (cr3 va flags : ℕ) : Bool × Vm :=
  let r := vm.alloc
  if r.1 = 0 then (false, r.2)
  else (true, vmmMapPageIn (r.2.setPage r.1 fun _ => 0) cr3 va r.1 flags)

/-- The loop that maps `n` new pages from `va` on. It ends below an address that fits into a word, so
that `va` does not overflow. -/
def mapNewPages (cr3 flags : ℕ) : ℕ → ℕ → Vm → Bool × Vm
  | 0, _, vm => (true, vm)
  | n + 1, va, vm =>
    let r := mapNewPage vm cr3 va flags
    if r.1 then mapNewPages cr3 flags n (va + 4096) r.2 else r

/-! ## System calls -/

/-- What a system call leaves: `rax`, the memory and the calling process. -/
structure SysResult where
  rax : ℕ
  vm : Vm
  proc : Proc

/-- `SYS_SBRK`. The `break` for an allocation that fails leaves the loop only: the heap end moves, and
`rax` is set to the old one. -/
def sysSbrk (vm : Vm) (t : Proc) (increment : ℕ) : SysResult :=
  if increment = 0 then ⟨t.brk, vm, t⟩
  -- a negative `int64_t`
  else if 2 ^ 63 ≤ increment then ⟨sysError, vm, t⟩
  else
    let newBrk := wrap 64 (t.brk + increment)
    let r := mapNewPages t.cr3 userRw ((pageUp newBrk - pageUp t.brk) / 4096) (pageUp t.brk) vm
    ⟨t.brk, r.2, { t with brk := newBrk }⟩

/-- The address that `SYS_MMAP` chooses, or 0; `none` if `vma_find_free` does not return. -/
def mmapAddr (t : Proc) (addrHint length : ℕ) : Option ℕ :=
  if mmapBase ≤ addrHint ∧ addrHint < mmapEnd ∧ (vmaFind t.vmas addrHint).isNone then some addrHint
  else vmaFindFree t.vmas length

/-- `vma_flags` of `SYS_MMAP`. -/
def mmapVmaFlags (prot : ℕ) : ℕ :=
  1 ||| (if prot.testBit 1 then 2 else 0) ||| (if prot.testBit 2 then 4 else 0)

/-- `map_flags` of `SYS_MMAP`. -/
def mmapMapFlags (prot : ℕ) : ℕ := if prot.testBit 1 then 7 else 5

/-- The cleanup of `SYS_MMAP`: release the frames of `n` pages from `va` on. The pages stay mapped. -/
def mmapRelease (cr3 : ℕ) : ℕ → ℕ → Vm → Vm
  | 0, _, vm => vm
  | n + 1, va, vm =>
    let ph := vmmGetPhysicalIn vm cr3 va
    mmapRelease cr3 n (va + 4096) (if ph ≠ 0 ∧ ph ≠ va then vm.free ph else vm)

/-- The number of pages in the loop `for (va = addr; va < addr + length; va += PAGE_SIZE)`, for a length
that is a multiple of the page size. -/
def pageCount (addr length : ℕ) : ℕ := (wrap 64 (addr + length) - addr) / 4096

/-- `SYS_MMAP`. -/
def sysMmap (vm : Vm) (t : Proc) (addrHint length prot : ℕ) : Option SysResult :=
  if length = 0 then some ⟨sysError, vm, t⟩
  else
    let length := pageUp length
    match mmapAddr t addrHint length with
    | none => none
    | some addr =>
      if addr = 0 then some ⟨sysError, vm, t⟩
      else
        let stop := wrap 64 (addr + length)
        match vmaAdd addr stop (mmapVmaFlags prot) 0 t.vmas with
        | none => some ⟨sysError, vm, t⟩
        | some vmas =>
          let r := mapNewPages t.cr3 (mmapMapFlags prot) (pageCount addr length) addr vm
          if r.1 then some ⟨addr, r.2, { t with vmas := vmas }⟩
          else
            some ⟨sysError, mmapRelease t.cr3 (pageCount addr length) addr r.2,
              { t with vmas := vmaRemove vmas addr stop }⟩

/-- The loop of `SYS_MUNMAP` over `n` pages from `va` on. -/
def munmapPages (cr3 : ℕ) : ℕ → ℕ → Vm → Vm
  | 0, _, vm => vm
  | n + 1, va, vm =>
    let phys := vmmGetPhysical vm cr3 va
    munmapPages cr3 n (va + 4096)
      (if phys ≠ 0 ∧ phys ≠ va then vmmUnmapPage (vm.free phys) cr3 va else vm)

/-- `SYS_MUNMAP`. -/
def sysMunmap (vm : Vm) (t : Proc) (addr length : ℕ) : SysResult :=
  let length := pageUp length
  let addr := addr / 4096 * 4096
  ⟨0, munmapPages t.cr3 (pageCount addr length) addr vm,
    { t with vmas := vmaRemove t.vmas addr (wrap 64 (addr + length)) }⟩

/-- `page_fault_handler` for a fault in user mode at `cr2`; `false` if the task is killed. -/
def pageFaultHandler (vm : Vm) (t : Proc) (cr2 : ℕ) : Bool × Vm :=
  match vmaFind t.vmas cr2 with
  | none => (false, vm)
  | some v =>
    let r := vm.alloc
    if r.1 = 0 then (false, r.2)
    else
      (true, vmmMapPage (r.2.setPage r.1 fun _ => 0) t.cr3 (cr2 / 4096 * 4096) r.1
        (if v.flags.testBit 1 then 7 else 5))

/-! ## Tasks -/

/-- `task_create_user`. `slotOk` and `kstackOk` are the results of `alloc_task` and of `kmalloc`. -/
def taskCreateUser (boot : ℕ) (vm : Vm) (slotOk kstackOk : Bool) : Option Proc × Vm :=
  if ¬slotOk then (none, vm)
  else
    let r := vmmCreateAddressSpace boot vm
    if r.1 = 0 then (none, r.2)
    else
      let m := mapNewPage r.2 r.1 userStackVaddr userRw
      if m.1 ∧ kstackOk then
        (some ⟨r.1, 0, vmaAddOrKeep stackGuardLow userStackTop 0x13 2 vmaInitList⟩, m.2)
      else (none, vmmDestroyAddressSpace boot m.2 r.1)

/-- `phys + str_offset`. An offset into the page does not overflow. -/
def argDst (phys : ℕ) (off : ℤ) : ℕ := if 0 ≤ off then phys + off.toNat else wrap 64 (phys + off)

/-- `memcpy`, byte by byte. -/
def writeBytes (vm : Vm) (dst : ℕ) : List UInt8 → Vm
  | [] => vm
  | b :: bytes => writeBytes (writeByte vm dst b) (dst + 1) bytes

/-- One iteration of the loop that copies the argument strings: the memory, `str_offset` and the
addresses of the strings so far. -/
def pushString (phys : ℕ) (arg : List UInt8) (st : Vm × ℤ × List ℕ) : Vm × ℤ × List ℕ :=
  let off := st.2.1 - (arg.length + 1)
  (writeBytes st.1 (argDst phys off) (arg ++ [0]), off, wrap 64 (userStackVaddr + off) :: st.2.2)

/-- Push a word below `str_offset`. -/
def pushWord (phys word : ℕ) (st : Vm × ℤ) : Vm × ℤ :=
  let off := st.2 - 8
  (st.1.set (argDst phys off / 4096 * 4096) (argDst phys off % 4096 / 8) word, off)

/-- The `argv` block of `task_create_user_elf` in the stack page. -/
def pushArgs (phys : ℕ) (argv : List (List UInt8)) (vm : Vm) : Vm :=
  if argv = [] then vm
  else
    let st := (argv.take 32).foldr (pushString phys) (vm, 4096, [])
    (st.2.2.foldr (pushWord phys) (pushWord phys 0 (st.1, st.2.1 / 8 * 8))).1

/-- `task_create_user_elf`. -/
def taskCreateUserElf (vm : Vm) (info : ElfInfo) (cr3 : ℕ) (argv : List (List UInt8))
    (slotOk kstackOk : Bool) : Option Proc × Vm :=
  if ¬slotOk then (none, vm)
  else
    let phys := vm.alloc.1
    let m := mapNewPage vm cr3 userStackVaddr userRw
    if m.1 ∧ kstackOk then
      let brk := wrap 64 (info.loadBase + info.numPages * 4096)
      let vmas := vmaAddOrKeep info.loadBase brk 7 3 vmaInitList
      let vmas := vmaAddOrKeep brk (wrap 64 (brk + 16 * 4096)) 3 1 vmas
      let vmas := vmaAddOrKeep stackGuardLow userStackTop 0x13 2 vmas
      (some ⟨cr3, brk, vmas⟩, pushArgs phys argv m.2)
    else (none, m.2)

/-- What `elf_load` finds in the world: the file, memory for its array, the words behind the array. -/
structure ElfEnv where
  file : Option ElfFile
  arrayOk : Bool
  stray : ℕ → ℕ

/-- `SYS_EXEC` and the `exec` command: a new address space, the file, a task. -/
def sysExec (boot : ℕ) (vm : Vm) (env : ElfEnv) (argv : List (List UInt8)) (slotOk kstackOk : Bool) :
    Option Proc × Vm :=
  let r := vmmCreateAddressSpace boot vm
  if r.1 = 0 then (none, r.2)
  else
    let l := elfLoad r.2 r.1 env.file env.arrayOk env.stray
    match l.1 with
    | none => (none, vmmDestroyAddressSpace boot l.2 r.1)
    | some info =>
      let t := taskCreateUserElf l.2 info r.1 argv slotOk kstackOk
      match t.1 with
      | none => (none, vmmDestroyAddressSpace boot t.2 r.1)
      | some p => (some p, t.2)

/-- `task_fork`. -/
def taskFork (boot : ℕ) (vm : Vm) (parent : Proc) (slotOk kstackOk : Bool) : Option Proc × Vm :=
  if ¬slotOk then (none, vm)
  else
    let r := vmmCloneAddressSpace boot vm parent.cr3
    if r.1 = 0 then (none, r.2)
    else if ¬kstackOk then (none, vmmDestroyAddressSpace boot r.2 r.1)
    else (some { parent with cr3 := r.1 }, r.2)

/-- The part of `task_exit` that releases memory. -/
def taskExit (boot : ℕ) (vm : Vm) (t : Proc) : Vm :=
  if t.cr3 ≠ 0 ∧ t.cr3 ≠ boot then vmmDestroyAddressSpace boot vm t.cr3 else vm

/-! ## The system -/

/-- All processes, numbered by `pid`, over one memory. -/
structure UserSys where
  vm : Vm
  procs : ℕ → Option Proc
  next : ℕ

/-- A call in the system. `space` and `load` are the parts of an `exec` on their own. -/
inductive UserOp
  | space
  | load (pid : ℕ) (env : ElfEnv)
  | createUser (slotOk kstackOk : Bool)
  | exec (env : ElfEnv) (argv : List (List UInt8)) (slotOk kstackOk : Bool)
  | fork (pid : ℕ) (slotOk kstackOk : Bool)
  | sbrk (pid increment : ℕ)
  | mmap (pid addrHint length prot : ℕ)
  | munmap (pid addr length : ℕ)
  | fault (pid cr2 : ℕ)
  | exit (pid : ℕ)

namespace UserSys

/-- A call of the process `pid`. -/
def call (S : UserSys) (pid : ℕ) (f : Proc → UserSys) : UserSys :=
  match S.procs pid with
  | none => S
  | some t => f t

/-- Enter a new process, if there is one. -/
def spawn (S : UserSys) (r : Option Proc × Vm) : UserSys :=
  match r.1 with
  | none => { S with vm := r.2 }
  | some t => ⟨r.2, Function.update S.procs S.next (some t), S.next + 1⟩

/-- The state after a call of the process `pid`. -/
def resume (S : UserSys) (pid : ℕ) (r : SysResult) : UserSys :=
  { S with vm := r.vm, procs := Function.update S.procs pid (some r.proc) }

/-- The state after the end of the process `pid`. -/
def kill (boot : ℕ) (S : UserSys) (pid : ℕ) (t : Proc) : UserSys :=
  { S with vm := taskExit boot S.vm t, procs := Function.update S.procs pid none }

end UserSys

/-- A new address space, as a process without memory. -/
def newSpace (boot : ℕ) (vm : Vm) : Option Proc × Vm :=
  let r := vmmCreateAddressSpace boot vm
  (if r.1 = 0 then none else some ⟨r.1, 0, vmaInitList⟩, r.2)

/-- One call. A process that does not exist makes no calls, and a call that does not return leaves the
state as it is. -/
def userStep (boot : ℕ) (S : UserSys) : UserOp → UserSys
  | .space => S.spawn (newSpace boot S.vm)
  | .load pid env => S.call pid fun t =>
    { S with vm := (elfLoad S.vm t.cr3 env.file env.arrayOk env.stray).2 }
  | .createUser slotOk kstackOk => S.spawn (taskCreateUser boot S.vm slotOk kstackOk)
  | .exec env argv slotOk kstackOk => S.spawn (sysExec boot S.vm env argv slotOk kstackOk)
  | .fork pid slotOk kstackOk => S.call pid fun t => S.spawn (taskFork boot S.vm t slotOk kstackOk)
  | .sbrk pid increment => S.call pid fun t => S.resume pid (sysSbrk S.vm t increment)
  | .mmap pid addrHint length prot => S.call pid fun t =>
    match sysMmap S.vm t addrHint length prot with
    | none => S
    | some r => S.resume pid r
  | .munmap pid addr length => S.call pid fun t => S.resume pid (sysMunmap S.vm t addr length)
  | .fault pid cr2 => S.call pid fun t =>
    let r := pageFaultHandler S.vm t cr2
    if r.1 then { S with vm := r.2 } else { S with vm := r.2 }.kill boot pid t
  | .exit pid => S.call pid (S.kill boot pid)

end PlantOS.Task
