import Mathlib.Algebra.BigOperators.Fin
import PlantOS.Common.Run
import PlantOS.Fs.Vfs

/-!
# The descriptors of all processes

The processes open, duplicate and close, they make pipes, fork and exit, in any order.

Reference: `cpu/syscall.c`, `task/task.c`.
-/

namespace PlantOS.Fs

/-! ## Processes and their descriptors -/

/-- The tables of the kernel and the descriptors of the processes, by their place in the task table. -/
structure Files where
  vfs : Vfs
  procs : Fin 64 → Option OfdTable

/-- The kernel with no process. -/
def Files.init (mount : Option (List UInt8)) : Files := ⟨vfsInit mount, fun _ => none⟩

/-- The calls of the processes. -/
inductive ProcOp
  | create (i : Fin 64)
  | openFile (i : Fin 64) (cred : Cred) (path : List UInt8) (flags : ℕ) (env : OpenEnv)
  | pipe (i : Fin 64)
  | dup2 (i : Fin 64) (oldPfd newPfd : ℤ)
  | close (i : Fin 64) (procFd : ℤ)
  | fork (i child : Fin 64)
  | exit (i : Fin 64)

/-- The process that makes a call. -/
def ProcOp.proc : ProcOp → Fin 64
  | .create i | .openFile i .. | .pipe i | .dup2 i .. | .close i _ | .fork i _ | .exit i => i

/-- The tables after a system call of process `i`. -/
def Files.after (s : Files) (i : Fin 64) (r : FileCall) : Files := ⟨r.vfs, Function.update s.procs i (some r.ofd)⟩

/-- A call of a process with the descriptors `t`. -/
def procCall (s : Files) (t : OfdTable) : ProcOp → Option Files
  | .create _ => some s
  | .openFile i cred path flags env => (sysOpen s.vfs t cred path flags env).map (s.after i)
  | .pipe i => some (s.after i (sysPipe s.vfs t))
  | .dup2 i oldPfd newPfd => some (s.after i (sysDup2 s.vfs t oldPfd newPfd))
  | .close i procFd => some (s.after i (sysClose s.vfs t procFd))
  | .fork _ child =>
    -- `alloc_task` takes a free place
    if s.procs child = none then some ⟨forkFds s.vfs t, Function.update s.procs child (some t)⟩ else some s
  | .exit i => some ⟨taskCloseFds s.vfs t, Function.update s.procs i none⟩

/-- A step: a new process at a free place, or a call of a process. -/
def procStep (s : Files) (op : ProcOp) : Option Files :=
  match s.procs op.proc with
  | some t => procCall s t op
  | none =>
    match op with
    | .create i => some { s with procs := Function.update s.procs i (some newOfdTable) }
    | _ => some s

end PlantOS.Fs
