import PlantOS.Common.Run
import PlantOS.Task.Table

/-!
# Entering signal handlers

`signal_deliver` changes `rip`, `rsp` and `rdi` of the saved frame and leaves its selectors as they are. So a
handler runs in ring 3 if the task was interrupted there. A task that is blocked in a system call was
interrupted in the kernel: its handler is entered in ring 0, on the kernel stack.
-/

namespace PlantOS.Task

open Memory Word

/-- The saved frame at `rsp` resumes in ring 3, on a stack of ring 3: the selectors `cs` and `ss` have the
requested privilege level 3. -/
structure UserFrame (mem : ℕ → UInt8) (rsp : ℕ) : Prop where
  cs : frameWord mem rsp 18 % 4 = 3
  ss : frameWord mem rsp 21 % 4 = 3

variable {mem : ℕ → UInt8} {rsp : ℕ}

/-- Two steps down are one. -/
theorem wrap_wrap_sub (x : ℕ) (a b : ℤ) :
    wrap 64 ((wrap 64 (x - a) : ℕ) - b) = wrap 64 (x - (a + b)) := by
  have hpos : (0 : ℤ) ≤ (x - a) % 2 ^ 64 := Int.emod_nonneg _ (by norm_num)
  rw [wrap, wrap, wrap, Int.toNat_of_nonneg hpos, Int.emod_sub_emod, sub_sub]

/-- Storing one word of the frame. -/
theorem frameWord_store (i j : Fin 22) (v : ℕ) :
    frameWord (store64 mem (rsp + 8 * i) v) rsp j =
      if j = i then v % 2 ^ 64 else frameWord mem rsp j := by
  split_ifs with h
  · subst h
    exact load64_store64_self
  · refine load64_store64_of_disjoint ?_
    have hne : (i : ℕ) ≠ j := fun heq => h (Fin.ext heq.symm)
    omega

/-- A word outside the frame. -/
theorem frameWord_store_apart {a : ℕ} (h : a + 8 ≤ rsp ∨ rsp + 176 ≤ a) (v : ℕ) (j : Fin 22) :
    frameWord (store64 mem a v) rsp j = frameWord mem rsp j := by
  refine load64_store64_of_disjoint ?_
  have := j.isLt
  omega

/-- The entry of a handler changes `rip`, `rsp` and `rdi` of the frame. -/
theorem frameWord_enterHandler (h : StackApart mem rsp) (sig handler : ℕ) (j : Fin 22) :
    frameWord (enterHandler mem rsp sig handler) rsp j =
      if j = 9 then sig % 2 ^ 64
      else if j = 20 then wrap 64 (frameWord mem rsp 20 - 24)
      else if j = 17 then handler % 2 ^ 64
      else frameWord mem rsp j := by
  have h1 := h 8 (by simp)
  have h2 := h 16 (by simp)
  have h3 := h 24 (by simp)
  have hrdi : ∀ m, frameWord (store64 m (rsp + 8 * 9) sig) rsp j =
      if j = 9 then sig % 2 ^ 64 else frameWord m rsp j := fun _ => frameWord_store 9 j sig
  have hrsp : ∀ m v, frameWord (store64 m (rsp + 8 * 20) v) rsp j =
      if j = 20 then v % 2 ^ 64 else frameWord m rsp j := fun _ v => frameWord_store 20 j v
  have hrip : ∀ m, frameWord (store64 m (rsp + 8 * 17) handler) rsp j =
      if j = 17 then handler % 2 ^ 64 else frameWord m rsp j := fun _ => frameWord_store 17 j handler
  have hlt : wrap 64 (frameWord mem rsp 20 - 24) % 2 ^ 64 = wrap 64 (frameWord mem rsp 20 - 24) :=
    Nat.mod_eq_of_lt (wrap_lt 64 _)
  simp only [enterHandler, pushUser, wrap_wrap_sub, Int.reduceAdd]
  rw [hrdi, hrsp, hrip, frameWord_store_apart h3, frameWord_store_apart h2, frameWord_store_apart h1, hlt]

/-- A signal with a handler is the next one to be delivered to the task. -/
def EntersHandler (t : Tcb) (sig : ℕ) : Prop :=
  t.isUser = true ∧ t.nextSignal = some sig ∧ t.isFatal sig = false

instance (t : Tcb) (sig : ℕ) : Decidable (EntersHandler t sig) := inferInstanceAs (Decidable (_ ∧ _))

/-- `signal_deliver` for a signal with a handler. -/
theorem signalDeliver_enters {s : TaskSys} {i : Slot} {sig : ℕ} (hsig : EntersHandler (s.tasks i) sig) :
    signalDeliver s i = some { s.modify i fun t =>
      { t with pendingSignals := t.pendingSignals &&& ~~~(sigBit sig) } with
        mem := enterHandler s.mem (s.tasks i).rsp sig ((s.tasks i).handler sig) } := by
  obtain ⟨huser, hnext, hfatal⟩ := hsig
  have hpending : (s.tasks i).pendingSignals ≠ 0 := by
    intro hzero
    simp [Tcb.nextSignal, hzero] at hnext
  rw [signalDeliver, if_neg (not_or.2 ⟨hpending, not_not.2 huser⟩), hnext]
  dsimp only
  rw [tasks_modify_self, if_neg (by exact ne_true_of_eq_false hfatal)]
  rfl

/-- A call, or a timer interrupt with the frame that is pushed at `oldRsp`. -/
inductive MachineOp
  | call (op : TaskOp)
  | timer (oldRsp : ℕ) (frame : Frame) (fpu : FpuState)

def machineStep (bootCr3 : ℕ) (s : TaskSys) : MachineOp → Option TaskSys
  | .call op => taskStep bootCr3 s op
  | .timer oldRsp frame fpu =>
    taskStep bootCr3 { s with mem := pushFrame s.mem (oldRsp + 176) frame } (.schedule oldRsp fpu)

/-- A process registers a handler for SIGUSR1, is interrupted in user mode and gets the signal. -/
def userModeRun : List MachineOp :=
  [.call (.createUser 0x400000 0x9000 0x8000 0x50000), .timer 0x7000 (kernelFrame 0x70B0 0x201000 0 0) 0,
    .call (.register 3 0x401000), .timer 0x50F50 (userFrame 0x400010 0x7FFF00 0 0) 0, .call (.signal 2 3)]

/-- The process is blocked in `pipe_read` and interrupted there, in the kernel, before it gets the signal;
then the idle task and the kernel task are interrupted. -/
def blockedRun : List MachineOp :=
  [.call (.createUser 0x400000 0x9000 0x8000 0x50000), .timer 0x7000 (kernelFrame 0x70B0 0x201000 0 0) 0,
    .call (.register 3 0x401000), .call (.block (.other 0x30000)),
    .timer 0x50D00 (kernelFrame 0x50DB0 0x202000 0 0) 0, .call (.signal 2 3),
    .timer 0x70F00 (kernelFrame 0x70FB0 0x200001 0 0) 0, .timer 0x7000 (kernelFrame 0x70B0 0x201000 0 0) 0]

end PlantOS.Task
