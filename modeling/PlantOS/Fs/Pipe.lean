import PlantOS.Common.Ring
import PlantOS.Common.Run
import PlantOS.Common.Word
import Mathlib.Data.List.FinRange
import Mathlib.Tactic.Ring

/-!
# Pipes

`pipe_read` and `pipe_write` of `fs/pipe.c` as processes: any number of tasks step through them on one pipe,
in any order. Each check, each `task_block`, each copy and each `task_wake_one` is one step; the copy of a
byte in `pipe_write` is a step of its own, the copy in `pipe_read` is one step as a whole.

A task that is blocked takes no step. Which of the tasks blocked on the pipe `task_wake_one` finds first
depends on the run ring and on the current task, so a step is given an order in which it looks. The history
`put`, `got` of the pipe lists the bytes copied into it and out of it.

Reference: `fs/pipe.c`, `fs/vfs.c` (`vfs_close_fd`), `task/task.c` (`task_block`, `task_wake_one`,
`task_wake_all`).
-/

namespace PlantOS.Fs

open Word

/-- `PIPE_BUF_SIZE`. -/
def pipeBufSize : ℕ := 4096

/-- `struct pipe` while it is in use, followed by the history. -/
structure Pipe where
  buf : ℕ → UInt8
  readPos : ℕ
  writePos : ℕ
  count : ℕ
  readers : ℕ
  writers : ℕ
  /-- The bytes put in, oldest first. -/
  put : List UInt8
  /-- The bytes taken out, oldest first. -/
  got : List UInt8

/-- The pipe after `pipe_create`. -/
def pipeCreate : Pipe :=
  { buf := fun _ => 0, readPos := 0, writePos := 0, count := 0, readers := 1, writers := 1,
    put := [], got := [] }

/-- Where a task is in `pipe_read` or `pipe_write`, with the call's arguments and local variables. -/
inductive PipePc where
  | idle
  /-- `while (p->count == 0)`. -/
  | readCheck (count : ℕ)
  /-- `if (p->writers == 0)`. -/
  | readEof (count : ℕ)
  /-- `task_block(p)` of `pipe_read`. -/
  | readBlock (count : ℕ)
  /-- Waiting while `cur->state == TASK_BLOCKED`, then `if (cur->pending_signals)`. -/
  | readWait (count : ℕ)
  /-- The copy out of the buffer. -/
  | readCopy (count : ℕ)
  /-- `task_wake_one(p)` of `pipe_read`, with what was copied. -/
  | readWake (count : ℕ) (bytes : List UInt8)
  /-- `if (p->readers == 0)` at the start of `pipe_write`. -/
  | writeStart (data : List UInt8)
  /-- `while (written < count)` and `while (p->count == PIPE_BUF_SIZE)`. -/
  | writeCheck (data : List UInt8) (written : ℕ)
  /-- `if (p->readers == 0)` of a writer that has found the buffer full. -/
  | writeFull (data : List UInt8) (written : ℕ)
  /-- `task_block(p)` of `pipe_write`. -/
  | writeBlock (data : List UInt8) (written : ℕ)
  /-- Waiting while `cur->state == TASK_BLOCKED`. -/
  | writeWait (data : List UInt8) (written : ℕ)
  /-- The copy of one byte into the buffer. -/
  | writeCopy (data : List UInt8) (written : ℕ)
  /-- `task_wake_one(p)` of `pipe_write`. -/
  | writeWake (written : ℕ)
  /-- The call has returned `r`; `bytes` is what a read has stored. -/
  | returned (r : ℤ) (bytes : List UInt8)
deriving DecidableEq

/-- The number of bytes asked for, if the task is in `pipe_read`. -/
def PipePc.reads : PipePc → Option ℕ
  | .readCheck k | .readEof k | .readBlock k | .readWait k | .readCopy k | .readWake k _ => some k
  | _ => none

/-- The task is in `pipe_write`. -/
def PipePc.writes : PipePc → Bool
  | .writeStart _ | .writeCheck _ _ | .writeFull _ _ | .writeBlock _ _ | .writeWait _ _
  | .writeCopy _ _ | .writeWake _ => true
  | _ => false

/-- The task is in one of the two calls. -/
def PipePc.inside (pc : PipePc) : Bool := pc.reads.isSome || pc.writes

/-- A task, as far as the pipe sees it: `blocked` is `TASK_BLOCKED` on the pipe. -/
structure PipeTask where
  pc : PipePc
  blocked : Bool

/-- A pipe and `n` tasks. -/
structure PipeSys (n : ℕ) where
  pipe : Pipe
  tasks : Fin n → PipeTask

/-- The steps. In a step of a task, `pending` is whether it has pending signals and `order` is the order in
which `task_wake_one` looks at the tasks; tasks that are not in `order` come last. -/
inductive PipeOp (n : ℕ) where
  | read (t : Fin n) (count : ℕ)
  | write (t : Fin n) (data : List UInt8)
  | step (t : Fin n) (pending : Bool) (order : List (Fin n))
  | signal (t : Fin n)
  | closeRead
  | closeWrite

/-- The loop of `pipe_read` that copies `n` bytes: the bytes and `read_pos`. -/
def pipeCopyOut (buf : ℕ → UInt8) : ℕ → ℕ → List UInt8 × ℕ
  | 0, readPos => ([], readPos)
  | n + 1, readPos =>
    let r := pipeCopyOut buf n ((readPos + 1) % pipeBufSize)
    (buf readPos :: r.1, r.2)

/-- The copy of `pipe_read`, for a request of `k` bytes. -/
def pipeTake (p : Pipe) (k : ℕ) : List UInt8 × Pipe :=
  let count := if p.count < k then p.count else k
  let r := pipeCopyOut p.buf count p.readPos
  (r.1, { p with readPos := r.2, count := p.count - r.1.length, got := p.got ++ r.1 })

/-- The copy of one byte of `pipe_write`. -/
def pipePut (p : Pipe) (b : UInt8) : Pipe :=
  { p with buf := Function.update p.buf p.writePos b
           writePos := (p.writePos + 1) % pipeBufSize
           count := p.count + 1
           put := p.put ++ [b] }

/-- What a step does besides moving the task and changing the pipe: nothing, `task_block(p)` or
`task_wake_one(p)`. -/
inductive PipeEffect where
  | none
  | block
  | wake
deriving DecidableEq

/-- The result of a step: where the task goes on, the pipe, and the effect. -/
structure PipeNext where
  pc : PipePc
  pipe : Pipe
  effect : PipeEffect

/-- A step of `pipe_read`. -/
def pipeReadNext (p : Pipe) (pending : Bool) : PipePc → PipeNext
  | .readCheck k => if p.count = 0 then ⟨.readEof k, p, .none⟩ else ⟨.readCopy k, p, .none⟩
  | .readEof k => if p.writers = 0 then ⟨.returned 0 [], p, .none⟩ else ⟨.readBlock k, p, .none⟩
  | .readBlock k => ⟨.readWait k, p, .block⟩
  | .readWait k => if pending then ⟨.returned (-1) [], p, .none⟩ else ⟨.readCheck k, p, .none⟩
  | .readCopy k => ⟨.readWake k (pipeTake p k).1, (pipeTake p k).2, .none⟩
  | .readWake _ bytes => ⟨.returned (toInt32 bytes.length) bytes, p, .wake⟩
  | pc => ⟨pc, p, .none⟩

/-- A step of `pipe_write`. -/
def pipeWriteNext (p : Pipe) : PipePc → PipeNext
  | .writeStart data =>
    if p.readers = 0 then ⟨.returned (-1) [], p, .none⟩ else ⟨.writeCheck data 0, p, .none⟩
  | .writeCheck data written =>
    if data.length ≤ written then ⟨.writeWake written, p, .none⟩
    else if p.count = pipeBufSize then ⟨.writeFull data written, p, .none⟩
    else ⟨.writeCopy data written, p, .none⟩
  | .writeFull data written =>
    if p.readers = 0 then ⟨.returned (if 0 < written then toInt32 written else -1) [], p, .none⟩
    else ⟨.writeBlock data written, p, .none⟩
  | .writeBlock data written => ⟨.writeWait data written, p, .block⟩
  | .writeWait data written => ⟨.writeCheck data written, p, .none⟩
  | .writeCopy data written => ⟨.writeCheck data (written + 1), pipePut p (data.getD written 0), .none⟩
  | .writeWake written => ⟨.returned (toInt32 written) [], p, .wake⟩
  | pc => ⟨pc, p, .none⟩

/-- A step of a task at `pc`. -/
def pipeNext (p : Pipe) (pending : Bool) (pc : PipePc) : PipeNext :=
  if pc.writes then pipeWriteNext p pc else pipeReadNext p pending pc

namespace PipeSys

variable {n : ℕ}

/-- The pipe is new and no task is in a call. -/
def init (n : ℕ) : PipeSys n := ⟨pipeCreate, fun _ => ⟨.idle, false⟩⟩

def setTask (s : PipeSys n) (t : Fin n) (x : PipeTask) : PipeSys n :=
  { s with tasks := Function.update s.tasks t x }

/-- The task `task_wake_one(p)` finds. -/
def firstBlocked (s : PipeSys n) (order : List (Fin n)) : Option (Fin n) :=
  (order ++ List.finRange n).find? fun t => (s.tasks t).blocked

/-- `task_wake_one(p)`. -/
def wakeOne (s : PipeSys n) (order : List (Fin n)) : PipeSys n :=
  match s.firstBlocked order with
  | some t => s.setTask t { s.tasks t with blocked := false }
  | none => s

/-- `task_wake_all(p)`. -/
def wakeAll (s : PipeSys n) : PipeSys n :=
  { s with tasks := fun t => { s.tasks t with blocked := false } }

/-- Carry out the step of task `t` with the result `r`. -/
def move (s : PipeSys n) (t : Fin n) (order : List (Fin n)) (r : PipeNext) : PipeSys n :=
  let s := { s with pipe := r.pipe }.setTask t ⟨r.pc, r.effect == PipeEffect.block⟩
  if r.effect = .wake then s.wakeOne order else s

/-- `p->readers` after the last reference to the read end is gone. -/
def closeRead (s : PipeSys n) : PipeSys n :=
  let s := { s with pipe := { s.pipe with readers := s.pipe.readers - 1 } }
  if s.pipe.readers = 0 then s.wakeAll else s

/-- `p->writers` after the last reference to the write end is gone. -/
def closeWrite (s : PipeSys n) : PipeSys n :=
  let s := { s with pipe := { s.pipe with writers := s.pipe.writers - 1 } }
  if s.pipe.writers = 0 then s.wakeAll else s

end PipeSys

variable {n : ℕ}

/-- One step. A call can be entered by a task that is in none; an end of the pipe is closed once. -/
def pipeStep (s : PipeSys n) : PipeOp n → PipeSys n
  | .read t count => if (s.tasks t).pc.inside then s else s.setTask t ⟨.readCheck count, false⟩
  | .write t data => if (s.tasks t).pc.inside then s else s.setTask t ⟨.writeStart data, false⟩
  | .step t pending order =>
    if (s.tasks t).blocked then s else s.move t order (pipeNext s.pipe pending (s.tasks t).pc)
  | .signal t => s.setTask t { s.tasks t with blocked := false }
  | .closeRead => if s.pipe.readers = 0 then s else s.closeRead
  | .closeWrite => if s.pipe.writers = 0 then s else s.closeWrite

/-! ## The state operations -/

namespace PipeSys

variable {s : PipeSys n} {t u : Fin n}

@[simp] theorem setTask_pipe (s : PipeSys n) (t : Fin n) (x : PipeTask) : (s.setTask t x).pipe = s.pipe :=
  rfl

@[simp] theorem setTask_self (s : PipeSys n) (t : Fin n) (x : PipeTask) : (s.setTask t x).tasks t = x :=
  Function.update_self ..

theorem setTask_ne (h : u ≠ t) (x : PipeTask) : (s.setTask t x).tasks u = s.tasks u :=
  Function.update_of_ne h ..

@[simp] theorem wakeOne_pipe (s : PipeSys n) (order : List (Fin n)) : (s.wakeOne order).pipe = s.pipe := by
  rw [wakeOne]
  split <;> rfl

/-- Waking does not move a task. -/
@[simp] theorem wakeOne_pc (s : PipeSys n) (order : List (Fin n)) (u : Fin n) :
    ((s.wakeOne order).tasks u).pc = (s.tasks u).pc := by
  rw [wakeOne]
  split
  · rename_i t _
    by_cases hu : u = t
    · subst hu
      rw [setTask_self]
    · rw [setTask_ne hu]
  · rfl

theorem firstBlocked_none {order : List (Fin n)} (h : s.firstBlocked order = none) (u : Fin n) :
    (s.tasks u).blocked = false := by
  have hu : u ∈ order ++ List.finRange n := List.mem_append_right _ (List.mem_finRange u)
  simpa using List.find?_eq_none.mp h u hu

theorem firstBlocked_some {order : List (Fin n)} (h : s.firstBlocked order = some u) :
    (s.tasks u).blocked = true := by
  simpa using List.find?_some h

@[simp] theorem move_pipe (s : PipeSys n) (t : Fin n) (order : List (Fin n)) (r : PipeNext) :
    (s.move t order r).pipe = r.pipe := by
  rw [move]
  split
  · rw [wakeOne_pipe]
    rfl
  · rfl

theorem move_pc_self (s : PipeSys n) (t : Fin n) (order : List (Fin n)) (r : PipeNext) :
    ((s.move t order r).tasks t).pc = r.pc := by
  rw [move]
  split
  · rw [wakeOne_pc, setTask_self]
  · rw [setTask_self]

/-- A step of one task does not move another. -/
theorem move_pc_ne (h : u ≠ t) (order : List (Fin n)) (r : PipeNext) :
    ((s.move t order r).tasks u).pc = (s.tasks u).pc := by
  rw [move]
  split
  · rw [wakeOne_pc, setTask_ne h]
  · rw [setTask_ne h]

end PipeSys

end PlantOS.Fs
