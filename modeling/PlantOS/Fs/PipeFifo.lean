import PlantOS.Fs.Pipe

/-!
# A pipe is a queue

The bytes taken out of a pipe, followed by the bytes in its buffer, are the bytes put in. This holds for any
interleaving of readers and writers in which a task that has looked at `count` acts on it before `count`
changes the answer: the buffer is not full when a writer copies, and not empty when a reader copies.
-/

namespace PlantOS.Fs

open PipeSys Word

variable {n : ℕ}

/-- What a task at `pc` last saw of `count` still holds, if it is about to act on it. -/
def PipePc.steady (p : Pipe) : PipePc → Bool
  | .readEof _ => p.count == 0
  | .readCopy _ => p.count != 0
  | .writeCopy _ _ => p.count != pipeBufSize
  | _ => true

/-- A task acts on `count` only while what it saw of it holds. -/
def Steady (s : PipeSys n) : PipeOp n → Prop
  | .step t _ _ => (s.tasks t).pc.steady s.pipe
  | _ => True

instance (s : PipeSys n) : DecidablePred (Steady s)
  | .step t _ _ => inferInstanceAs (Decidable ((s.tasks t).pc.steady s.pipe = true))
  | .read _ _ | .write _ _ | .signal _ | .closeRead | .closeWrite => isTrue trivial

/-- The bytes in the buffer, oldest first. -/
def Pipe.content (p : Pipe) : List UInt8 := Ring.view pipeBufSize p.buf p.readPos p.count

/-- The buffer is a ring that holds what has been put in and not taken out. -/
structure Pipe.Queue (p : Pipe) : Prop where
  ring : Ring.Wf pipeBufSize p.writePos p.readPos p.count
  queue : p.put = p.got ++ p.content

/-- The pipe is a queue, and a read that asked for bytes and has copied has copied some. -/
structure FifoInv (s : PipeSys n) : Prop where
  queue : s.pipe.Queue
  copied : ∀ t k bytes, (s.tasks t).pc = .readWake k bytes →
    (0 < k → bytes ≠ []) ∧ bytes.length ≤ pipeBufSize

/-! ## The copies -/

/-- The copy of a byte appends it. -/
theorem Pipe.Queue.put {p : Pipe} (h : p.Queue) (hspace : p.count < pipeBufSize) (b : UInt8) :
    (pipePut p b).Queue := by
  refine ⟨h.ring.push hspace, ?_⟩
  have hview := Ring.view_push h.ring hspace p.buf b
  simp only [Pipe.content, pipePut] at hview ⊢
  rw [hview, h.queue, List.append_assoc]
  rfl

/-- The copying loop takes the oldest bytes. -/
theorem pipeCopyOut_spec {buf : ℕ → UInt8} {head tail count : ℕ} {k : ℕ} (hk : k ≤ count)
    (hring : Ring.Wf pipeBufSize head tail count) :
    (pipeCopyOut buf k tail).1.length = k ∧
      Ring.Wf pipeBufSize head (pipeCopyOut buf k tail).2 (count - k) ∧
      Ring.view pipeBufSize buf tail count =
        (pipeCopyOut buf k tail).1 ++ Ring.view pipeBufSize buf (pipeCopyOut buf k tail).2 (count - k) := by
  induction k generalizing tail count with
  | zero => exact ⟨rfl, hring, rfl⟩
  | succ k ih =>
    have hpos : 0 < count := by omega
    obtain ⟨hlen, hwf, hview⟩ := ih (by omega) (hring.pop hpos)
    have hsub : count - 1 - k = count - (k + 1) := by omega
    rw [hsub] at hwf hview
    refine ⟨?_, hwf, ?_⟩
    · rw [pipeCopyOut, List.length_cons, hlen]
    · rw [Ring.view_pop hring hpos, hview]
      rfl

/-- The copy of a read takes as many bytes as it can get. -/
theorem Pipe.Queue.take {p : Pipe} (h : p.Queue) (k : ℕ) :
    (pipeTake p k).2.Queue ∧ (pipeTake p k).1.length = min k p.count := by
  have hcount : (if p.count < k then p.count else k) = min k p.count := by
    split <;> omega
  obtain ⟨hlen, hwf, hview⟩ := @pipeCopyOut_spec p.buf _ _ _ (min k p.count) (Nat.min_le_right _ _) h.ring
  simp only [pipeTake, hcount, hlen]
  refine ⟨⟨hwf, ?_⟩, trivial⟩
  simp only [Pipe.content]
  rw [h.queue, Pipe.content, hview, List.append_assoc]

/-! ## Steps -/

/-- A step of a task keeps the queue. -/
theorem Pipe.Queue.next {p : Pipe} (h : p.Queue) (pending : Bool) {pc : PipePc} (hst : pc.steady p) :
    (pipeNext p pending pc).pipe.Queue := by
  cases pc with
  | readCopy k => exact (h.take k).1
  | writeCopy data written =>
    have hspace : p.count < pipeBufSize := by
      have hle := h.ring.count_le
      simp only [PipePc.steady, bne_iff_ne, ne_eq] at hst
      omega
    exact h.put hspace _
  | readCheck k | readEof k | readWait k | writeStart data | writeFull data written =>
    simp only [pipeNext, PipePc.writes, pipeReadNext, pipeWriteNext, Bool.false_eq_true, if_false, if_true]
    split <;> exact h
  | writeCheck data written =>
    simp only [pipeNext, PipePc.writes, pipeWriteNext, if_true]
    split
    · exact h
    · split <;> exact h
  | idle | readBlock k | readWake k bytes | writeBlock data written | writeWait data written
  | writeWake written | returned r bytes => exact h

/-- A read that has copied has copied at least a byte if it asked for one. -/
theorem copied_next {p : Pipe} (h : p.Queue) (pending : Bool) {pc : PipePc} (hst : pc.steady p) {k : ℕ}
    {bytes : List UInt8} (hpc : (pipeNext p pending pc).pc = .readWake k bytes) :
    (0 < k → bytes ≠ []) ∧ bytes.length ≤ pipeBufSize := by
  cases pc with
  | readCopy m =>
    obtain ⟨rfl, rfl⟩ : m = k ∧ (pipeTake p m).1 = bytes := by
      simpa [pipeNext, PipePc.writes, pipeReadNext] using hpc
    have hlen := (h.take m).2
    have hcount := h.ring.count_le
    simp only [PipePc.steady, bne_iff_ne, ne_eq] at hst
    refine ⟨fun hk hnil => ?_, by omega⟩
    rw [hnil, List.length_nil] at hlen
    omega
  | readCheck m | readEof m | readWait m | writeStart data | writeFull data written =>
    simp only [pipeNext, PipePc.writes, pipeReadNext, pipeWriteNext, Bool.false_eq_true, if_false,
      if_true] at hpc
    split at hpc <;> cases hpc
  | writeCheck data written =>
    simp only [pipeNext, PipePc.writes, pipeWriteNext, if_true] at hpc
    split at hpc
    · cases hpc
    · split at hpc <;> cases hpc
  | idle | readBlock m | readWake m bytes | writeBlock data written | writeWait data written
  | writeCopy data written | writeWake written | returned r bytes => cases hpc

/-- A change of a task's place outside the copies, or of `blocked`. -/
theorem FifoInv.congr {s s' : PipeSys n} (h : FifoInv s) (hqueue : s'.pipe.Queue)
    (hpc : ∀ t k bytes, (s'.tasks t).pc = .readWake k bytes → (s.tasks t).pc = .readWake k bytes) :
    FifoInv s' :=
  ⟨hqueue, fun t k bytes ht => h.copied t k bytes (hpc t k bytes ht)⟩

/-- The number of open ends is not part of the queue. -/
theorem Pipe.Queue.ends {p : Pipe} (h : p.Queue) (readers writers : ℕ) :
    { p with readers := readers, writers := writers : Pipe }.Queue :=
  ⟨h.ring, h.queue⟩

theorem FifoInv.wakeAll {s : PipeSys n} (h : FifoInv s) : FifoInv s.wakeAll :=
  h.congr h.queue fun _ _ _ ht => ht

/-- Entering a call. -/
theorem FifoInv.enter {s : PipeSys n} (h : FifoInv s) (t : Fin n) {x : PipeTask}
    (hx : ∀ k bytes, x.pc ≠ .readWake k bytes) : FifoInv (s.setTask t x) := by
  refine h.congr h.queue fun u k bytes hu => ?_
  by_cases hut : u = t
  · subst hut
    rw [setTask_self] at hu
    exact absurd hu (hx k bytes)
  · rwa [setTask_ne hut] at hu

/-- Step, one case for each place that a task can be at. Only the two copies move bytes, and they act on a
`count` that is still what the task saw. -/
theorem FifoInv.step {s : PipeSys n} (h : FifoInv s) (op : PipeOp n) (hok : Steady s op) :
    FifoInv (pipeStep s op) := by
  cases op with
  | read t count =>
    simp only [pipeStep]
    split
    · exact h
    · exact h.enter t fun k bytes hx => by cases hx
  | write t data =>
    simp only [pipeStep]
    split
    · exact h
    · exact h.enter t fun k bytes hx => by cases hx
  | step t pending order =>
    simp only [pipeStep]
    split
    · exact h
    -- Only this task moves, and the others still hold what they have copied.
    refine ⟨?_, fun u k bytes hu => ?_⟩
    · rw [move_pipe]
      exact h.queue.next pending hok
    · by_cases hut : u = t
      · subst hut
        rw [move_pc_self] at hu
        exact copied_next h.queue pending hok hu
      · rw [move_pc_ne hut] at hu
        exact h.copied u k bytes hu
  | signal t =>
    refine h.congr h.queue fun u k bytes hu => ?_
    by_cases hut : u = t
    · subst hut
      rwa [pipeStep, setTask_self] at hu
    · rwa [pipeStep, setTask_ne hut] at hu
  | closeRead =>
    have hends : FifoInv { s with pipe := { s.pipe with readers := s.pipe.readers - 1 } } :=
      h.congr (h.queue.ends _ _) fun _ _ _ hu => hu
    simp only [pipeStep, closeRead]
    split
    · exact h
    split
    · exact hends.wakeAll
    · exact hends
  | closeWrite =>
    have hends : FifoInv { s with pipe := { s.pipe with writers := s.pipe.writers - 1 } } :=
      h.congr (h.queue.ends _ _) fun _ _ _ hu => hu
    simp only [pipeStep, closeWrite]
    split
    · exact h
    split
    · exact hends.wakeAll
    · exact hends

/-- A new pipe is empty and nothing has been written to it. -/
theorem fifoInv_init (n : ℕ) : FifoInv (init n) :=
  ⟨⟨Ring.wf_empty (by decide), rfl⟩, fun _ _ _ ht => (by cases ht)⟩

/-- A read that asked for at least a byte returns 0 only at the end of the stream. -/
theorem FifoInv.returns_zero {s : PipeSys n} (h : FifoInv s) {t : Fin n} {pending : Bool}
    {order : List (Fin n)} (hok : Steady s (.step t pending order)) {k : ℕ}
    (hread : (s.tasks t).pc.reads = some k) (hk : 0 < k) {bytes : List UInt8}
    (hret : ((pipeStep s (.step t pending order)).tasks t).pc = .returned 0 bytes) :
    s.pipe.count = 0 ∧ s.pipe.writers = 0 := by
  simp only [pipeStep] at hret
  split at hret
  · -- a blocked task does not return
    rw [hret] at hread
    cases hread
  rw [move_pc_self] at hret
  have hcopied := h.copied t
  simp only [Steady] at hok
  generalize (s.tasks t).pc = pc at hread hret hok hcopied
  cases pc with
  | readEof m =>
    simp only [pipeNext, PipePc.writes, pipeReadNext, Bool.false_eq_true, if_false] at hret
    split at hret
    · rename_i hw
      exact ⟨by simpa [PipePc.steady] using hok, hw⟩
    · cases hret
  | readWake m bs =>
    obtain rfl : m = k := Option.some.inj hread
    obtain ⟨hne, hlen⟩ := hcopied m bs rfl
    have hzero : toInt32 bs.length = 0 := by
      simp only [pipeNext, PipePc.writes, pipeReadNext, Bool.false_eq_true, if_false] at hret
      exact (PipePc.returned.inj hret).1
    simp only [pipeBufSize] at hlen
    rw [toInt32_of_lt (by omega)] at hzero
    exact absurd (List.eq_nil_of_length_eq_zero (by omega)) (hne hk)
  | readCheck m | readWait m =>
    simp only [pipeNext, PipePc.writes, pipeReadNext, Bool.false_eq_true, if_false] at hret
    split at hret <;> cases hret
  | readBlock m | readCopy m => cases hret
  | idle | writeStart data | writeCheck data written | writeFull data written | writeBlock data written
  | writeWait data written | writeCopy data written | writeWake written | returned r bs => cases hread

/-- In every interleaving in which tasks act on `count` while what they saw of it holds, the pipe is a
queue: what has been taken out is a prefix of what has been put in, the rest is in the buffer, and a read of
at least a byte returns 0 only if the buffer is empty and no writer is left. -/
theorem pipe_fifo {ops : List (PipeOp n)} (hops : Run.Admits pipeStep Steady (init n) ops) :
    let s := Run.run pipeStep (init n) ops
    s.pipe.got <+: s.pipe.put ∧ s.pipe.put = s.pipe.got ++ s.pipe.content ∧
    s.pipe.count ≤ pipeBufSize ∧ s.pipe.writePos = (s.pipe.readPos + s.pipe.count) % pipeBufSize ∧
    ∀ t pending order k bytes, Steady s (.step t pending order) →
      (s.tasks t).pc.reads = some k → 0 < k →
      ((pipeStep s (.step t pending order)).tasks t).pc = .returned 0 bytes →
      s.pipe.count = 0 ∧ s.pipe.writers = 0 := by
  intro s
  have hstep : ∀ (s : PipeSys n) op, FifoInv s → Steady s op → FifoInv (pipeStep s op) :=
    fun s op hs hok => hs.step op hok
  have h : FifoInv s := Run.run_invariant_of_admits hstep (fifoInv_init n) hops
  refine ⟨?_, h.queue.queue, h.queue.ring.count_le, h.queue.ring.head_eq, ?_⟩
  · rw [h.queue.queue]
    exact List.prefix_append _ _
  · intro t pending order k bytes hok hread hk hret
    exact h.returns_zero hok hread hk hret

/-- Task 0 writes two bytes while task 1 is waiting, and task 1 reads the first. -/
theorem pipe_fifo_two_bytes :
    let ops : List (PipeOp 2) := [.read 1 1, .step 1 false [], .step 1 false [], .step 1 false [],
      .write 0 [7, 8], .step 0 false [], .step 0 false [], .step 0 false [], .step 0 false [],
      .step 0 false [], .step 0 false [], .step 0 false [], .step 1 false [], .step 1 false [],
      .step 1 false [], .step 1 false []]
    (Run.run pipeStep (init 2) ops).pipe.got = [7] ∧
      (Run.run pipeStep (init 2) ops).pipe.got <+: (Run.run pipeStep (init 2) ops).pipe.put :=
  ⟨by decide +kernel, (pipe_fifo (by decide +kernel)).1⟩

/-- A read of no bytes returns 0 although the pipe holds a byte and has a writer. -/
theorem pipe_read_nothing :
    let ops : List (PipeOp 2) := [.write 0 [7], .step 0 false [], .step 0 false [], .step 0 false [],
      .step 0 false [], .step 0 false [], .read 1 0, .step 1 false [], .step 1 false []]
    let s := Run.run pipeStep (init 2) ops
    Run.Admits pipeStep Steady (init 2) ops ∧ (s.tasks 1).pc.reads = some 0 ∧
      ((pipeStep s (.step 1 false [])).tasks 1).pc = .returned 0 [] ∧
      s.pipe.count = 1 ∧ s.pipe.writers = 1 := by
  decide +kernel

end PlantOS.Fs
