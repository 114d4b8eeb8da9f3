import PlantOS.Fs.Pipe

/-!
# When the tasks of a pipe wake each other

A task leaves `pipe_read` or `pipe_write` only after it has woken one task blocked on the pipe. So as long as
a task blocks only on what it has just seen, and only together with tasks of its own role, there is always a
task inside that can go on when a blocked one could. Without these conditions there is not: a writer of more
than a buffer full blocks before it has woken the reader that waits for it.
-/

namespace PlantOS.Fs

open PipeSys

variable {n : ℕ}

/-- A task at `pc` may block: the buffer is still empty, or full, and no task of the other role is blocked. -/
def MayBlock (s : PipeSys n) : PipePc → Prop
  | .readBlock _ => s.pipe.count = 0 ∧ ∀ u, (s.tasks u).blocked → (s.tasks u).pc.writes = false
  | .writeBlock _ _ =>
    s.pipe.count = pipeBufSize ∧ ∀ u, (s.tasks u).blocked → (s.tasks u).pc.reads = none
  | _ => True

instance (s : PipeSys n) : DecidablePred (MayBlock s)
  | .readBlock _ => inferInstanceAs (Decidable (_ ∧ ∀ _, _))
  | .writeBlock _ _ => inferInstanceAs (Decidable (_ ∧ ∀ _, _))
  | .idle | .readCheck _ | .readEof _ | .readWait _ | .readCopy _ | .readWake _ _ | .writeStart _
  | .writeCheck _ _ | .writeFull _ _ | .writeWait _ _ | .writeCopy _ _ | .writeWake _
  | .returned _ _ => isTrue trivial

/-- No signal is sent, and a task blocks only when it may. -/
def BlocksAlike (s : PipeSys n) : PipeOp n → Prop
  | .step t pending _ => pending = false ∧ MayBlock s (s.tasks t).pc
  | .signal _ => False
  | _ => True

instance (s : PipeSys n) : DecidablePred (BlocksAlike s)
  | .step _ _ _ => inferInstanceAs (Decidable (_ ∧ _))
  | .signal _ => isFalse not_false
  | .read _ _ | .write _ _ | .closeRead | .closeWrite => isTrue trivial

/-- No signal is sent. -/
def NoSignal (_ : PipeSys n) : PipeOp n → Prop
  | .step _ pending _ => pending = false
  | .signal _ => False
  | _ => True

/-- A task at `pc` can do what it is in the pipe for. -/
def PipePc.CanGo (p : Pipe) (pc : PipePc) : Prop :=
  (pc.reads.isSome ∧ p.count ≠ 0) ∨ (pc.writes ∧ p.count ≠ pipeBufSize)

/-- With both ends open, all tasks inside are blocked although one of them could go on. -/
def Deadlocked (s : PipeSys n) : Prop :=
  s.pipe.readers ≠ 0 ∧ s.pipe.writers ≠ 0 ∧ (∀ u, (s.tasks u).pc.inside → (s.tasks u).blocked) ∧
    ∃ u, (s.tasks u).pc.CanGo s.pipe

/-- Blocked tasks are inside, and if one of them could go on, some task inside is not blocked. -/
structure WakeInv (s : PipeSys n) : Prop where
  waits : ∀ u, (s.tasks u).blocked → (s.tasks u).pc.inside
  active : s.pipe.readers ≠ 0 → s.pipe.writers ≠ 0 → ∀ u, (s.tasks u).blocked →
    (s.tasks u).pc.CanGo s.pipe → ∃ v, (s.tasks v).pc.inside ∧ (s.tasks v).blocked = false

/-- In a deadlock the task that the invariant gives would be blocked and not blocked. -/
theorem WakeInv.not_deadlocked {s : PipeSys n} (h : WakeInv s) : ¬Deadlocked s := by
  rintro ⟨hr, hw, hall, u, hu⟩
  have hinside : (s.tasks u).pc.inside := by
    rcases hu with ⟨hu, -⟩ | ⟨hu, -⟩
    · simp [PipePc.inside, hu]
    · simp [PipePc.inside, hu]
  obtain ⟨v, hv, hvb⟩ := h.active hr hw u (hall u hinside) hu
  rw [hall v hv] at hvb
  cases hvb

/-! ## Steps -/

/-- A step of a task does not open or close an end. -/
theorem ends_pipeNext (p : Pipe) (pending : Bool) (pc : PipePc) :
    (pipeNext p pending pc).pipe.readers = p.readers ∧
      (pipeNext p pending pc).pipe.writers = p.writers := by
  cases pc with
  | readCheck k | readEof k | readWait k | writeStart data | writeFull data written =>
    simp only [pipeNext, PipePc.writes, pipeReadNext, pipeWriteNext, Bool.false_eq_true, if_false, if_true]
    split <;> exact ⟨rfl, rfl⟩
  | writeCheck data written =>
    simp only [pipeNext, PipePc.writes, pipeWriteNext, if_true]
    split
    · exact ⟨rfl, rfl⟩
    · split <;> exact ⟨rfl, rfl⟩
  | idle | readBlock k | readCopy k | readWake k bytes | writeBlock data written
  | writeWait data written | writeCopy data written | writeWake written | returned r bytes =>
    exact ⟨rfl, rfl⟩

/-- With both ends open and no signal, a task leaves only by waking another. -/
theorem inside_pipeNext {p : Pipe} {pc : PipePc} (hr : p.readers ≠ 0) (hw : p.writers ≠ 0)
    (hpc : pc.inside) (hwake : (pipeNext p false pc).effect ≠ .wake) :
    (pipeNext p false pc).pc.inside := by
  cases pc with
  | readCheck k =>
    simp only [pipeNext, PipePc.writes, pipeReadNext, Bool.false_eq_true, if_false]
    split <;> rfl
  | readEof k => simp [pipeNext, PipePc.writes, pipeReadNext, hw, PipePc.inside, PipePc.reads]
  | writeStart data => simp [pipeNext, PipePc.writes, pipeWriteNext, hr, PipePc.inside]
  | writeFull data written => simp [pipeNext, PipePc.writes, pipeWriteNext, hr, PipePc.inside]
  | writeCheck data written =>
    simp only [pipeNext, PipePc.writes, pipeWriteNext, if_true]
    split
    · rfl
    · split <;> rfl
  | readWake k bytes | writeWake written => exact absurd rfl hwake
  | readBlock k | readWait k | readCopy k | writeBlock data written | writeWait data written
  | writeCopy data written => rfl
  | idle | returned r bytes => cases hpc

/-- A step outside a call does nothing. -/
theorem pipeNext_outside {p : Pipe} {pending : Bool} {pc : PipePc} (h : pc.inside = false) :
    pipeNext p pending pc = ⟨pc, p, .none⟩ := by
  cases pc with
  | idle | returned r bytes => rfl
  | readCheck k | readEof k | readBlock k | readWait k | readCopy k | readWake k bytes | writeStart data
  | writeCheck data written | writeFull data written | writeBlock data written
  | writeWait data written | writeCopy data written | writeWake written => cases h

/-- Only the two block steps block. -/
theorem block_pipeNext {p : Pipe} {pc : PipePc} (h : (pipeNext p false pc).effect = .block) :
    (pipeNext p false pc).pipe = p ∧
      ((∃ k, pc = .readBlock k ∧ (pipeNext p false pc).pc = .readWait k) ∨
        ∃ data written, pc = .writeBlock data written ∧
          (pipeNext p false pc).pc = .writeWait data written) := by
  cases pc with
  | readBlock k => exact ⟨rfl, .inl ⟨k, rfl, rfl⟩⟩
  | writeBlock data written => exact ⟨rfl, .inr ⟨data, written, rfl, rfl⟩⟩
  | readCheck k | readEof k | writeStart data | writeFull data written =>
    simp only [pipeNext, PipePc.writes, pipeReadNext, pipeWriteNext, Bool.false_eq_true, if_false,
      if_true] at h
    split at h <;> cases h
  | writeCheck data written =>
    simp only [pipeNext, PipePc.writes, pipeWriteNext, if_true] at h
    split at h
    · cases h
    · split at h <;> cases h
  | idle | readWait k | readCopy k | readWake k bytes | writeWait data written
  | writeCopy data written | writeWake written | returned r bytes => cases h

section

variable {s : PipeSys n} {t u : Fin n} {order : List (Fin n)} {r : PipeNext}

theorem move_self_of_not_wake (h : r.effect ≠ .wake) :
    (s.move t order r).tasks t = ⟨r.pc, r.effect == PipeEffect.block⟩ := by
  rw [move, if_neg h, setTask_self]

theorem move_ne_of_not_wake (h : r.effect ≠ .wake) (hu : u ≠ t) :
    (s.move t order r).tasks u = s.tasks u := by
  rw [move, if_neg h, setTask_ne hu]

/-- `task_wake_one` leaves no task blocked, or a task that was blocked goes on. -/
theorem wakeOne_cases (s : PipeSys n) (order : List (Fin n)) :
    (∀ u, ((s.wakeOne order).tasks u).blocked = false) ∨
      ∃ v, (s.tasks v).blocked ∧ ((s.wakeOne order).tasks v).blocked = false := by
  rw [wakeOne]
  split
  · rename_i v hv
    exact .inr ⟨v, firstBlocked_some hv, by rw [setTask_self]⟩
  · rename_i hnone
    exact .inl (firstBlocked_none hnone)

theorem blocked_of_wakeOne (h : ((s.wakeOne order).tasks u).blocked) : (s.tasks u).blocked := by
  rw [wakeOne] at h
  split at h
  · rename_i v _
    by_cases huv : u = v
    · subst huv
      rw [setTask_self] at h
      cases h
    · rwa [setTask_ne huv] at h
  · exact h

theorem move_outside (hin : (s.tasks t).pc.inside = false) (ht : (s.tasks t).blocked = false) :
    s.move t order (pipeNext s.pipe false (s.tasks t).pc) = s := by
  have htask : (⟨(s.tasks t).pc, false⟩ : PipeTask) = s.tasks t := by rw [← ht]
  rw [pipeNext_outside hin, move, if_neg (by simp)]
  show s.setTask t ⟨(s.tasks t).pc, false⟩ = s
  rw [htask, setTask, Function.update_eq_self]

/-- A step that neither blocks nor wakes: the task stays inside, so it can go on. -/
theorem WakeInv.move_none (h : WakeInv s) (ht : (s.tasks t).blocked = false)
    (heff : (pipeNext s.pipe false (s.tasks t).pc).effect = .none) :
    WakeInv (s.move t order (pipeNext s.pipe false (s.tasks t).pc)) := by
  have hwake : (pipeNext s.pipe false (s.tasks t).pc).effect ≠ .wake := by rw [heff]; simp
  have hblocked : ∀ u, ((s.move t order (pipeNext s.pipe false (s.tasks t).pc)).tasks u).blocked →
      u ≠ t ∧ (s.tasks u).blocked := by
    intro u hu
    have hut : u ≠ t := by
      rintro rfl
      rw [move_self_of_not_wake hwake, heff] at hu
      cases hu
    exact ⟨hut, by rwa [move_ne_of_not_wake hwake hut] at hu⟩
  by_cases hin : (s.tasks t).pc.inside
  · refine ⟨fun u hu => ?_, fun hr hw u hu _ => ⟨t, ?_, ?_⟩⟩
    · obtain ⟨hut, hu⟩ := hblocked u hu
      rw [move_pc_ne hut]
      exact h.waits u hu
    · rw [move_pipe, (ends_pipeNext _ _ _).1] at hr
      rw [move_pipe, (ends_pipeNext _ _ _).2] at hw
      rw [move_pc_self]
      exact inside_pipeNext hr hw hin hwake
    · rw [move_self_of_not_wake hwake, heff]
      rfl
  · rw [move_outside (by simpa using hin) ht]
    exact h

/-- After a step that blocks, no blocked task could go on. -/
theorem WakeInv.move_block (h : WakeInv s) (hok : MayBlock s (s.tasks t).pc)
    (heff : (pipeNext s.pipe false (s.tasks t).pc).effect = .block) :
    WakeInv (s.move t order (pipeNext s.pipe false (s.tasks t).pc)) := by
  have hwake : (pipeNext s.pipe false (s.tasks t).pc).effect ≠ .wake := by rw [heff]; simp
  obtain ⟨hpipe, hpc⟩ := block_pipeNext heff
  have hself := move_pc_self s t order (pipeNext s.pipe false (s.tasks t).pc)
  have hinside : (pipeNext s.pipe false (s.tasks t).pc).pc.inside := by
    rcases hpc with ⟨k, -, hpc⟩ | ⟨data, written, -, hpc⟩ <;> rw [hpc] <;> rfl
  refine ⟨fun u hu => ?_, fun _ _ u hu hgo => ?_⟩
  · by_cases hut : u = t
    · subst hut
      rw [hself]
      exact hinside
    · rw [move_pc_ne hut]
      rw [move_ne_of_not_wake hwake hut] at hu
      exact h.waits u hu
  · -- no blocked task can go on: the others wait for the same as this one
    exfalso
    rw [move_pipe, hpipe] at hgo
    rcases hpc with ⟨k, hpc, hpc'⟩ | ⟨data, written, hpc, hpc'⟩
    · -- a reader has blocked on the empty buffer; all others blocked are readers
      rw [hpc] at hok
      obtain ⟨hcount, hothers⟩ := hok
      rcases hgo with ⟨-, hgo⟩ | ⟨hgo, -⟩
      · exact hgo hcount
      · by_cases hut : u = t
        · subst hut
          rw [hself, hpc'] at hgo
          cases hgo
        · rw [move_ne_of_not_wake hwake hut] at hu hgo
          rw [hothers u hu] at hgo
          cases hgo
    · -- a writer has blocked on the full buffer; all others blocked are writers
      rw [hpc] at hok
      obtain ⟨hcount, hothers⟩ := hok
      rcases hgo with ⟨hgo, -⟩ | ⟨-, hgo⟩
      · by_cases hut : u = t
        · subst hut
          rw [hself, hpc'] at hgo
          cases hgo
        · rw [move_ne_of_not_wake hwake hut] at hu hgo
          rw [hothers u hu] at hgo
          cases hgo
      · exact hgo hcount

/-- After a step that wakes, no task is blocked or a task inside goes on. -/
theorem WakeInv.move_wake (h : WakeInv s) (heff : r.effect = .wake) : WakeInv (s.move t order r) := by
  have hmove : s.move t order r = ({ s with pipe := r.pipe }.setTask t ⟨r.pc, false⟩).wakeOne order := by
    rw [move, if_pos heff, heff]
    rfl
  have hblocked : ∀ u, (({ s with pipe := r.pipe }.setTask t ⟨r.pc, false⟩).tasks u).blocked →
      u ≠ t ∧ (s.tasks u).blocked := by
    intro u hu
    have hut : u ≠ t := by
      rintro rfl
      rw [setTask_self] at hu
      cases hu
    exact ⟨hut, by rwa [setTask_ne hut] at hu⟩
  refine ⟨fun u hu => ?_, fun _ _ u hu _ => ?_⟩
  · rw [hmove] at hu
    obtain ⟨hut, hu⟩ := hblocked u (blocked_of_wakeOne hu)
    rw [move_pc_ne hut]
    exact h.waits u hu
  · rw [hmove] at hu ⊢
    rcases wakeOne_cases ({ s with pipe := r.pipe }.setTask t ⟨r.pc, false⟩) order with hnone | ⟨v, hv, hv'⟩
    · rw [hnone u] at hu
      cases hu
    · obtain ⟨hvt, hvb⟩ := hblocked v hv
      refine ⟨v, ?_, hv'⟩
      rw [wakeOne_pc, setTask_ne hvt]
      exact h.waits v hvb

/-- Entering a call. -/
theorem WakeInv.enter (h : WakeInv s) {pc : PipePc} (hpc : pc.inside) : WakeInv (s.setTask t ⟨pc, false⟩) := by
  refine ⟨fun u hu => ?_, fun _ _ u hu _ => ⟨t, ?_, ?_⟩⟩
  · have hut : u ≠ t := by
      rintro rfl
      rw [setTask_self] at hu
      cases hu
    rw [setTask_ne hut] at hu ⊢
    exact h.waits u hu
  · rw [setTask_self]
    exact hpc
  · rw [setTask_self]

/-- Closing an end wakes all tasks or leaves both ends open. -/
theorem WakeInv.wakeAll (s : PipeSys n) : WakeInv s.wakeAll :=
  ⟨fun _ hu => (by cases hu), fun _ _ _ hu => (by cases hu)⟩

/-- Step: whoever makes it possible for a blocked task to go on is inside and not blocked until it has woken
it. -/
theorem WakeInv.step (h : WakeInv s) (op : PipeOp n) (hok : BlocksAlike s op) :
    WakeInv (pipeStep s op) := by
  cases op with
  | read t count =>
    simp only [pipeStep]
    split
    · exact h
    · exact h.enter rfl
  | write t data =>
    simp only [pipeStep]
    split
    · exact h
    · exact h.enter rfl
  | step t pending order =>
    obtain ⟨rfl, hok⟩ := hok
    simp only [pipeStep]
    split
    · exact h
    rename_i ht
    have ht : (s.tasks t).blocked = false := by simpa using ht
    cases heff : (pipeNext s.pipe false (s.tasks t).pc).effect with
    | none => exact h.move_none ht heff
    | block => exact h.move_block hok heff
    | wake => exact h.move_wake heff
  | signal t => exact hok.elim
  | closeRead =>
    simp only [pipeStep, closeRead]
    split
    · exact h
    rename_i hr
    split
    · exact WakeInv.wakeAll _
    · exact ⟨h.waits, fun _ hw => h.active hr hw⟩
  | closeWrite =>
    simp only [pipeStep, closeWrite]
    split
    · exact h
    rename_i hw
    split
    · exact WakeInv.wakeAll _
    · exact ⟨h.waits, fun hr _ => h.active hr hw⟩

end

/-- Nobody sleeps at a new pipe. -/
theorem wakeInv_init (n : ℕ) : WakeInv (init n) :=
  ⟨fun _ hu => (by cases hu), fun _ _ _ hu => (by cases hu)⟩

/-- If tasks block only while what they saw of `count` holds, and never together with a task of the other
role, then no state that is reached is a deadlock. -/
theorem pipe_not_deadlocked {ops : List (PipeOp n)}
    (hops : Run.Admits pipeStep BlocksAlike (init n) ops) :
    ¬Deadlocked (Run.run pipeStep (init n) ops) := by
  have hstep : ∀ (s : PipeSys n) op, WakeInv s → BlocksAlike s op → WakeInv (pipeStep s op) :=
    fun s op hs hok => hs.step op hok
  exact (Run.run_invariant_of_admits hstep (wakeInv_init n) hops).not_deadlocked

/-- A reader waits for a byte, and a writer writes it. -/
theorem pipe_not_deadlocked_one_byte :
    let ops : List (PipeOp 2) := [.read 0 1, .step 0 false [], .step 0 false [], .step 0 false [],
      .write 1 [7], .step 1 false [], .step 1 false [], .step 1 false [], .step 1 false [],
      .step 1 false []]
    Run.Admits pipeStep BlocksAlike (init 2) ops ∧ ¬Deadlocked (Run.run pipeStep (init 2) ops) :=
  ⟨by decide +kernel, pipe_not_deadlocked (by decide +kernel)⟩

/-! ## A write of more than the buffer holds -/

section

variable {s : PipeSys n} {t u : Fin n} {data : List UInt8} {written : ℕ}

/-- A step of a task that is not blocked. -/
theorem pipeStep_step (ht : (s.tasks t).blocked = false) (pending : Bool) (order : List (Fin n)) :
    pipeStep s (.step t pending order) =
      s.move t order (pipeNext s.pipe pending (s.tasks t).pc) := by
  rw [pipeStep, if_neg (by simp [ht])]

/-- A step that neither blocks nor wakes. -/
theorem pipeStep_quiet {pc pc' : PipePc} {p : Pipe} (ht : s.tasks t = ⟨pc, false⟩)
    (hnext : pipeNext s.pipe false pc = ⟨pc', p, .none⟩) :
    pipeStep s (.step t false []) = { s with pipe := p }.setTask t ⟨pc', false⟩ := by
  rw [pipeStep_step (by rw [ht]), ht, hnext, move, if_neg (by simp)]
  rfl

/-- The writer checks for space and copies a byte. -/
theorem pipeStep_copy (ht : s.tasks t = ⟨.writeCheck data written, false⟩) (hw : written < data.length)
    (hc : s.pipe.count < pipeBufSize) :
    pipeStep (pipeStep s (.step t false [])) (.step t false []) =
      { s with pipe := pipePut s.pipe (data.getD written 0) }.setTask t
        ⟨.writeCheck data (written + 1), false⟩ := by
  have hcheck : pipeNext s.pipe false (.writeCheck data written) = ⟨.writeCopy data written, s.pipe, .none⟩ := by
    simp only [pipeNext, PipePc.writes, pipeWriteNext, if_true]
    rw [if_neg (by omega), if_neg (by omega)]
  rw [pipeStep_quiet ht hcheck, pipeStep_quiet (setTask_self _ _ _) rfl]
  simp only [setTask, Function.update_idem]

/-- The writer fills the buffer. -/
theorem run_fill (k : ℕ) (ht : s.tasks t = ⟨.writeCheck data written, false⟩)
    (hw : written + k ≤ data.length) (hc : s.pipe.count + k ≤ pipeBufSize) :
    let s' := Run.run pipeStep s (List.replicate (2 * k) (.step t false []))
    s'.tasks t = ⟨.writeCheck data (written + k), false⟩ ∧ s'.pipe.count = s.pipe.count + k ∧
      (∀ u, u ≠ t → s'.tasks u = s.tasks u) ∧ s'.pipe.readers = s.pipe.readers ∧
      s'.pipe.writers = s.pipe.writers := by
  induction k generalizing s written with
  | zero => exact ⟨ht, rfl, fun _ _ => rfl, rfl, rfl⟩
  | succ k ih =>
    have hcopy := pipeStep_copy ht (by omega) (by omega)
    obtain ⟨h1, h2, h3, h4, h5⟩ := @ih
      ({ s with pipe := pipePut s.pipe (data.getD written 0) }.setTask t
        ⟨.writeCheck data (written + 1), false⟩) (written + 1) (setTask_self _ _ _) (by omega)
      (by simp only [setTask_pipe, pipePut]; omega)
    have hrep : List.replicate (2 * (k + 1)) (PipeOp.step t false []) =
        .step t false [] :: .step t false [] :: List.replicate (2 * k) (.step t false []) := rfl
    simp only [hrep, Run.run_cons, hcopy]
    refine ⟨?_, ?_, ?_, h4, h5⟩
    · rw [h1, Nat.add_assoc, Nat.add_comm 1 k]
    · rw [h2]
      simp only [setTask_pipe, pipePut]
      omega
    · intro u hu
      rw [h3 u hu, setTask_ne hu]

end

/-- Task 0 waits for a byte, and task 1 enters `pipe_write`. -/
theorem run_reader_waits (data : List UInt8) :
    let s := Run.run pipeStep (init 2) [.read 0 1, .step 0 false [], .step 0 false [], .step 0 false [],
      .write 1 data, .step 1 false []]
    s.tasks 0 = ⟨.readWait 1, true⟩ ∧ s.tasks 1 = ⟨.writeCheck data 0, false⟩ ∧ s.pipe = pipeCreate :=
  ⟨rfl, rfl, rfl⟩

/-- A writer that finds the buffer full and a reader behind it blocks. -/
theorem run_full {s : PipeSys n} {t : Fin n} {data : List UInt8} {written : ℕ}
    (ht : s.tasks t = ⟨.writeCheck data written, false⟩) (hw : written < data.length)
    (hc : s.pipe.count = pipeBufSize) (hr : s.pipe.readers ≠ 0) :
    Run.run pipeStep s [.step t false [], .step t false [], .step t false []] =
      s.setTask t ⟨.writeWait data written, true⟩ := by
  have hcheck : pipeNext s.pipe false (.writeCheck data written) =
      ⟨.writeFull data written, s.pipe, .none⟩ := by
    simp only [pipeNext, PipePc.writes, pipeWriteNext, if_true]
    rw [if_neg (by omega), if_pos hc]
  have hfull : pipeNext s.pipe false (.writeFull data written) =
      ⟨.writeBlock data written, s.pipe, .none⟩ := by
    simp only [pipeNext, PipePc.writes, pipeWriteNext, if_true]
    rw [if_neg hr]
  rw [Run.run_cons, pipeStep_quiet ht hcheck, Run.run_cons, pipeStep_quiet (setTask_self _ _ _) hfull,
    Run.run_cons, pipeStep_step (by rw [setTask_self]), setTask_self]
  simp [pipeNext, PipePc.writes, pipeWriteNext, move, setTask, Run.run]

/-- With the buffer full the writer blocks too, and the reader is still blocked. -/
theorem deadlocked_of_full {s : PipeSys 2} {data : List UInt8} {written : ℕ}
    (hreader : s.tasks 0 = ⟨.readWait 1, true⟩) (hwriter : s.tasks 1 = ⟨.writeCheck data written, false⟩)
    (hw : written < data.length) (hcount : s.pipe.count = pipeBufSize) (hreaders : s.pipe.readers ≠ 0)
    (hwriters : s.pipe.writers ≠ 0) :
    Deadlocked (Run.run pipeStep s [.step 1 false [], .step 1 false [], .step 1 false []]) := by
  rw [run_full hwriter hw hcount hreaders]
  refine ⟨hreaders, hwriters, ?_, 0, ?_⟩
  · intro u _
    match u with
    | 0 => rw [setTask_ne (by decide), hreader]
    | 1 => rw [setTask_self]
  · left
    rw [setTask_ne (by decide), hreader, setTask_pipe, hcount]
    exact ⟨rfl, by decide⟩

/-- 4097 bytes are written to a pipe on which a reader is blocked. -/
theorem pipe_large_write_deadlocks :
    let ops : List (PipeOp 2) := [.read 0 1, .step 0 false [], .step 0 false [], .step 0 false [],
        .write 1 (List.replicate 4097 7), .step 1 false []] ++
      (List.replicate (2 * pipeBufSize) (.step 1 false []) ++
        [.step 1 false [], .step 1 false [], .step 1 false []])
    Run.Admits pipeStep NoSignal (init 2) ops ∧ Deadlocked (Run.run pipeStep (init 2) ops) := by
  have hlen : pipeBufSize < (List.replicate 4097 (7 : UInt8)).length := by
    rw [List.length_replicate]
    decide
  generalize List.replicate 4097 (7 : UInt8) = data at hlen ⊢
  refine ⟨Run.admits_of_forall (fun op hop s => ?_) _, ?_⟩
  · simp only [List.mem_append, List.mem_cons, List.mem_replicate, List.not_mem_nil, or_false] at hop
    rcases hop with (rfl | rfl | rfl | rfl | rfl | rfl) | ⟨-, rfl⟩ | rfl | rfl | rfl <;>
      simp [NoSignal]
  · obtain ⟨hreader, hwriter, hpipe⟩ := run_reader_waits data
    rw [Run.run_append, Run.run_append]
    obtain ⟨hwriter', hcount, hothers, hreaders, hwriters⟩ :=
      run_fill pipeBufSize hwriter (by omega) (by rw [hpipe]; exact (Nat.zero_add _).le)
    rw [hpipe] at hcount hreaders hwriters
    exact deadlocked_of_full ((hothers 0 (by decide)).trans hreader) hwriter' (by omega)
      (hcount.trans (Nat.zero_add _)) (hreaders.trans_ne Nat.one_ne_zero)
      (hwriters.trans_ne Nat.one_ne_zero)

end PlantOS.Fs
