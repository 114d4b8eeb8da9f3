import Mathlib.Data.Fintype.Pi
import PlantOS.Common.Word
import PlantOS.Fs.Ramfs

/-!
# The virtual file system and the descriptors of the processes

The table of open descriptions, the ends of the pipes and the system calls on descriptors. A process has a
table of 16 descriptors that refer to open descriptions; an open description counts the descriptors that refer
to it, and is released with the last of them.

Of a pipe only the numbers of its open ends are here, of the FAT layer only which of its descriptors are in
use; whether a path on the FAT volume can be opened, and whether there is memory, are inputs. A call that
stores outside the buffer of a file has no result.

Reference: `fs/vfs.c`, `fs/pipe.c`, `cpu/syscall.c`.
-/

namespace PlantOS.Fs

open Word

/-! ## Open descriptions -/

/-- An open description, by its position in `fd_table`. -/
abbrev Fd := Fin 64

/-- `pipe_mode`. -/
inductive PipeMode
  | none | read | write
deriving DecidableEq

/-- `struct vfs_fd`. -/
structure VfsFd where
  used : Bool
  refcount : ℕ
  inode : ℕ
  offset : ℕ
  dirIdx : ℕ
  pipe : Option (Fin 16)
  pipeMode : PipeMode
  fatFd : Option (Fin 16)
deriving DecidableEq

/-- The fields of `struct pipe` that concern its ends. -/
structure PipeEnds where
  used : Bool
  readers : ℕ
  writers : ℕ
deriving DecidableEq

/-- The tables of the kernel: the open descriptions, the pipes, which FAT descriptors are in use, the mount
point of the FAT volume, and the inodes. -/
structure Vfs where
  fds : Fd → VfsFd
  pipes : Fin 16 → PipeEnds
  fat : Fin 16 → Bool
  mount : Option (List UInt8)
  inodes : Inodes

/-- `vfs_init`, `ramfs_init`. -/
def vfsInit (mount : Option (List UInt8)) : Vfs :=
  ⟨fun _ => ⟨false, 0, 0, 0, 0, none, .none, none⟩, fun _ => ⟨false, 0, 0⟩, fun _ => false, mount, ramfsInit⟩

namespace Vfs

/-- Change one open description. -/
def setFd (v : Vfs) (fd : Fd) (f : VfsFd) : Vfs := { v with fds := Function.update v.fds fd f }

/-- Change one pipe. -/
def setPipe (v : Vfs) (p : Fin 16) (e : PipeEnds) : Vfs := { v with pipes := Function.update v.pipes p e }

/-- Change one inode. -/
def setInode (v : Vfs) (ino : ℕ) (n : Inode) : Vfs := { v with inodes := Function.update v.inodes ino n }

@[simp] theorem fds_setFd_self (v : Vfs) (fd : Fd) (f : VfsFd) : (v.setFd fd f).fds fd = f :=
  Function.update_self ..

theorem fds_setFd_of_ne (v : Vfs) {fd fd' : Fd} (h : fd' ≠ fd) (f : VfsFd) :
    (v.setFd fd f).fds fd' = v.fds fd' :=
  Function.update_of_ne h ..

@[simp] theorem setFd_setFd (v : Vfs) (fd : Fd) (f g : VfsFd) : (v.setFd fd f).setFd fd g = v.setFd fd g := by
  simp [setFd]

@[simp] theorem inodes_setFd (v : Vfs) (fd : Fd) (f : VfsFd) : (v.setFd fd f).inodes = v.inodes := rfl

end Vfs

/-- A new open description. `inode` is as it was. -/
def VfsFd.fresh (f : VfsFd) : VfsFd :=
  { f with
    used := true, refcount := 1, offset := 0, dirIdx := 0, pipe := none, pipeMode := .none, fatFd := none }

/-- `alloc_fd`. -/
def allocFd (v : Vfs) : Option (Fd × Vfs) :=
  ((List.finRange 64).find? fun fd => !(v.fds fd).used).map fun fd => (fd, v.setFd fd (v.fds fd).fresh)

theorem allocFd_some {v v' : Vfs} {fd : Fd} (h : allocFd v = some (fd, v')) :
    (v.fds fd).used = false ∧ v' = v.setFd fd (v.fds fd).fresh := by
  simp only [allocFd, Option.map_eq_some_iff, Prod.mk.injEq] at h
  obtain ⟨i, hi, rfl, rfl⟩ := h
  exact ⟨by simpa using List.find?_some hi, rfl⟩

/-- `fat_subpath`: the path lies on the FAT volume. -/
def onFat (v : Vfs) (path : List UInt8) : Bool :=
  match v.mount with
  | none => false
  | some m => m ≠ [] && m.isPrefixOf path && (path[m.length]?).all (· = 47)

/-- `vfs_check_perm` succeeds; `want` has the bits 4 for reading, 2 for writing and 1 for executing. -/
def vfsCheckPerm (cred : Cred) (node : Inode) (want : ℕ) : Bool :=
  if cred.uid = 0 then true
  else
    let bits :=
      if cred.uid = node.uid then node.mode / 64 % 8
      else if cred.gid = node.gid then node.mode / 8 % 8
      else node.mode % 8
    bits &&& want = want

/-- The flags of `vfs_open`. -/
structure OpenFlags where
  create : Bool
  trunc : Bool

/-- What `vfs_open` finds in the world: whether `fat_open` finds or creates the file, and whether there is
memory for a larger directory. -/
structure OpenEnv where
  fatFound : Bool
  memory : Bool

/-- The part of `vfs_open` for a path on the FAT volume. `fat_open` takes the first free descriptor. -/
def vfsOpenFat (v : Vfs) (env : OpenEnv) : Option Fd × Vfs :=
  if env.fatFound then
    match (List.finRange 16).find? fun i => !v.fat i with
    | none => (none, v)
    | some ffd =>
      match allocFd { v with fat := Function.update v.fat ffd true } with
      -- `fat_close`
      | none => (none, v)
      | some (fd, v) => (some fd, v.setFd fd { v.fds fd with fatFd := some ffd })
  else (none, v)

/-- The inode that `vfs_open` opens on the file system in memory, or -1: an existing one that the task may
access, or a new file. -/
def vfsOpenInode (v : Vfs) (cred : Cred) (path : List UInt8) (flags : OpenFlags) (memory : Bool) :
    Option RamfsResult :=
  match ramfsResolvePath v.inodes path with
  | none => if flags.create then ramfsCreateFile v.inodes cred path memory else some (none, v.inodes)
  | some ino =>
    match ramfsGetInode v.inodes ino with
    | none => some (some ino, v.inodes)
    | some node =>
      if vfsCheckPerm cred node (if flags.create || flags.trunc then 6 else 4) then
        some (some ino, v.inodes)
      else some (none, v.inodes)

/-- The truncation in `vfs_open`. -/
def vfsTruncate (v : Vfs) (ino : ℕ) : Vfs :=
  match ramfsGetInode v.inodes ino with
  | none => v
  | some node => if node.type = .file then v.setInode ino { node with size := 0 } else v

theorem vfsTruncate_eq (v : Vfs) (ino : ℕ) : ∃ inodes, vfsTruncate v ino = { v with inodes := inodes } := by
  unfold vfsTruncate
  split
  · exact ⟨v.inodes, rfl⟩
  · split_ifs
    · exact ⟨_, rfl⟩
    · exact ⟨v.inodes, rfl⟩

/-- `vfs_open`. -/
def vfsOpen (v : Vfs) (cred : Cred) (path : List UInt8) (flags : OpenFlags) (env : OpenEnv) :
    Option (Option Fd × Vfs) :=
  if onFat v path then some (vfsOpenFat v env)
  else
    (vfsOpenInode v cred path flags env.memory).map fun r =>
      let v := { v with inodes := r.2 }
      match r.1 with
      | none => (none, v)
      | some ino =>
        match allocFd v with
        | none => (none, v)
        | some (fd, v) =>
          let v := v.setFd fd { v.fds fd with inode := ino }
          (some fd, if flags.trunc then vfsTruncate v ino else v)

/-- The FAT descriptor of an open description is closed. -/
def closeFat (v : Vfs) (fd : Fd) : Vfs :=
  match (v.fds fd).fatFd with
  | none => v
  | some ffd => { v with fat := Function.update v.fat ffd false }.setFd fd { v.fds fd with fatFd := none }

/-- `vfs_close`. -/
def vfsClose (v : Vfs) (fd : Fd) : Vfs :=
  if ¬(v.fds fd).used then v
  else if (v.fds fd).refcount > 1 then v.setFd fd { v.fds fd with refcount := (v.fds fd).refcount - 1 }
  else
    let v := closeFat v fd
    v.setFd fd { v.fds fd with refcount := 0, used := false }

/-- `vfs_fd_addref`. -/
def vfsFdAddref (v : Vfs) (fd : Fd) : Vfs :=
  if (v.fds fd).used then v.setFd fd { v.fds fd with refcount := wrap 32 ((v.fds fd).refcount + 1) } else v

/-- An end of a pipe is closed, in the pipe. -/
def PipeEnds.closeEnd (e : PipeEnds) (mode : PipeMode) : PipeEnds :=
  let e := match mode with
    | .read => { e with readers := wrap 32 (e.readers - 1) }
    | .write => { e with writers := wrap 32 (e.writers - 1) }
    | .none => e
  if e.readers = 0 ∧ e.writers = 0 then { e with used := false } else e

/-- The end of a pipe that an open description is. The tasks that are blocked on the pipe are woken if it was
the last end of its kind. -/
def closePipeEnd (v : Vfs) (fd : Fd) : Vfs :=
  match (v.fds fd).pipe with
  | none => v
  | some p =>
    (v.setPipe p ((v.pipes p).closeEnd (v.fds fd).pipeMode)).setFd fd
      { v.fds fd with pipe := none, pipeMode := .none }

/-- `vfs_close_fd`. -/
def vfsCloseFd (v : Vfs) (fd : Fd) : Vfs :=
  if ¬(v.fds fd).used then v
  else if (v.fds fd).refcount > 1 then v.setFd fd { v.fds fd with refcount := (v.fds fd).refcount - 1 }
  else
    let v := closeFat (closePipeEnd v fd) fd
    v.setFd fd { v.fds fd with refcount := 0, used := false }

/-- `pipe_fd_close`. -/
def pipeFdClose (v : Vfs) (fd : Fd) : Vfs :=
  if ¬(v.fds fd).used ∨ (v.fds fd).pipe = none then v
  else if (v.fds fd).refcount > 1 then v.setFd fd { v.fds fd with refcount := (v.fds fd).refcount - 1 }
  else
    let v := closePipeEnd v fd
    v.setFd fd { v.fds fd with refcount := 0, used := false }

/-- `pipe_create`: the two ends of a new pipe. If there is no second description, the first is given back by
clearing `used` only. -/
def pipeCreateFds (v : Vfs) : Option (Fd × Fd) × Vfs :=
  match (List.finRange 16).find? fun p => !(v.pipes p).used with
  | none => (none, v)
  | some p =>
    match allocFd v with
    | none => (none, v.setPipe p ⟨false, 0, 0⟩)
    | some (r, v) =>
      match allocFd v with
      | none => (none, (v.setPipe p ⟨false, 0, 0⟩).setFd r { v.fds r with used := false })
      | some (w, v) =>
        let v := v.setFd r { v.fds r with pipe := some p, pipeMode := .read }
        let v := v.setFd w { v.fds w with pipe := some p, pipeMode := .write }
        (some (r, w), v.setPipe p ⟨true, 1, 1⟩)

/-! ## Files -/

/-- The bytes of a file from `off` on, `n` of them. -/
def Inode.read (data : ℕ → UInt8) (off n : ℕ) : List UInt8 := (List.range n).map fun i => data (off + i)

/-- `vfs_read`: the result and the bytes that are stored in the buffer of the caller. `elsewhere` is the
result of `fat_read`. -/
def vfsRead (v : Vfs) (fd : Fd) (count : ℕ) (elsewhere : ℤ × List UInt8) :
    Option ((ℤ × List UInt8) × Vfs) :=
  if ¬(v.fds fd).used then some ((-1, []), v)
  else if (v.fds fd).fatFd.isSome then some (elsewhere, v)
  else
    match ramfsGetInode v.inodes (v.fds fd).inode with
    | none => some ((-1, []), v)
    | some node =>
      if node.type ≠ .file then some ((-1, []), v)
      else
        let off := (v.fds fd).offset
        if off ≥ node.size then some ((0, []), v)
        else
          let count := min count (node.size - off)
          node.data.map fun data =>
            ((toInt32 count, Inode.read data off count),
              v.setFd fd { v.fds fd with offset := wrap 32 (off + count) })

/-- What a write finds in the world: the result of `kmalloc`, with the contents of the new buffer, and the
result of `pipe_write` or `fat_write` for a description that is no file in memory. -/
structure WriteEnv where
  memory : Option (ℕ → UInt8)
  elsewhere : ℤ

/-- The growth of the buffer in `vfs_write`: the file, or nothing where the old contents do not fit the new
buffer. -/
def growBuffer (node : Inode) (needed : ℕ) (junk : ℕ → UInt8) : Option Inode :=
  let cap := max (wrap 32 (needed * 2)) 256
  if node.data.isSome ∧ cap < node.size then none
  else some { node with
    data := some fun i => if i < node.size then (node.data.getD junk) i else junk i
    capacity := cap }

/-- The end of `vfs_write`: the bytes are stored at the offset. -/
def storeBytes (v : Vfs) (fd : Fd) (node : Inode) (bytes : List UInt8) (needed : ℕ) : Option (ℤ × Vfs) :=
  let off := (v.fds fd).offset
  if bytes = [] ∨ off + bytes.length ≤ node.capacity then
    let node := { node with
      data := node.data.map fun old i => if off ≤ i then (bytes[i - off]?).getD (old i) else old i
      size := max node.size needed }
    some (toInt32 bytes.length,
      (v.setInode (v.fds fd).inode node).setFd fd { v.fds fd with offset := needed })
  else none

/-- `vfs_write`. -/
def vfsWrite (v : Vfs) (fd : Fd) (bytes : List UInt8) (env : WriteEnv) : Option (ℤ × Vfs) :=
  if ¬(v.fds fd).used then some (-1, v)
  else if (v.fds fd).fatFd.isSome then some (env.elsewhere, v)
  else
    match ramfsGetInode v.inodes (v.fds fd).inode with
    | none => some (-1, v)
    | some node =>
      if node.type ≠ .file then some (-1, v)
      else
        let needed := wrap 32 ((v.fds fd).offset + wrap 32 bytes.length)
        if needed > node.capacity then
          match env.memory with
          | none => some (-1, v)
          | some junk => (growBuffer node needed junk).bind fun node => storeBytes v fd node bytes needed
        else storeBytes v fd node bytes needed

/-- The `whence` of `vfs_lseek`. -/
inductive Whence
  | set | cur | «end» | other

/-- `vfs_lseek`. -/
def vfsLseek (v : Vfs) (fd : Fd) (offset : ℤ) (whence : Whence) : ℤ × Vfs :=
  if ¬(v.fds fd).used ∨ (v.fds fd).pipe.isSome ∨ (v.fds fd).fatFd.isSome then (-1, v)
  else
    match ramfsGetInode v.inodes (v.fds fd).inode with
    | none => (-1, v)
    | some node =>
      if node.type ≠ .file then (-1, v)
      else
        let seek (base : ℤ) : ℤ × Vfs :=
          let off := max (toInt32 (base + offset)) 0
          (off, v.setFd fd { v.fds fd with offset := off.toNat })
        match whence with
        | .set => seek 0
        | .cur => seek (toInt32 (v.fds fd).offset)
        | .«end» => seek (toInt32 node.size)
        | .other => (-1, v)

/-! ## Paths -/

/-- `vfs_mkdir` for a path that is not on the FAT volume: the inode or -1. -/
def vfsMkdir (v : Vfs) (cred : Cred) (path : List UInt8) (memory : Bool) : Option (Option ℕ × Vfs) :=
  (ramfsCreateDir v.inodes cred path memory).map fun r => (r.1, { v with inodes := r.2 })

/-- `vfs_unlink` for a path that is not on the FAT volume. -/
def vfsUnlink (v : Vfs) (cred : Cred) (path : List UInt8) : Option (ℤ × Vfs) :=
  let denied := ((ramfsResolvePath v.inodes path).bind (ramfsGetInode v.inodes)).any
    fun node => !vfsCheckPerm cred node 2
  if denied then some (-1, v)
  else (ramfsUnlink v.inodes path).map fun r => (r.1, { v with inodes := r.2 })

/-! ## System calls -/

/-- What a descriptor of a process refers to. -/
inductive Ofd
  | none | consoleIn | consoleOut
  | file (fd : Fd)
deriving DecidableEq

/-- `ofd` of a task. -/
abbrev OfdTable := Fin 16 → Ofd

/-- The open description of an `Ofd`. -/
def Ofd.fd? : Ofd → Option Fd
  | .file fd => some fd
  | _ => Option.none

/-- What a slot refers to is closed. -/
def closeOfd (v : Vfs) : Ofd → Vfs
  | .file fd => vfsCloseFd v fd
  | _ => v

/-- A new reference to what a slot refers to is counted. -/
def addrefOfd (v : Vfs) : Ofd → Vfs
  | .file fd => vfsFdAddref v fd
  | _ => v

/-- `proc_to_ofd`. -/
def procToOfd (t : OfdTable) (procFd : ℤ) : Ofd :=
  if h : 0 ≤ procFd ∧ procFd < 16 then t ⟨procFd.toNat, by omega⟩ else .none

/-- `proc_install_fd`. -/
def procInstallFd (t : OfdTable) (fd : Fd) : Option (Fin 16 × OfdTable) :=
  ((List.finRange 16).find? fun i => t i = .none).map fun i => (i, Function.update t i (.file fd))

/-- The tables after a system call. -/
structure FileCall where
  rax : ℤ
  vfs : Vfs
  ofd : OfdTable

/-- `SYS_OPEN`. -/
def sysOpen (v : Vfs) (t : OfdTable) (cred : Cred) (path : List UInt8) (flags : ℕ) (env : OpenEnv) :
    Option FileCall :=
  (vfsOpen v cred path ⟨flags.testBit 6, flags.testBit 9⟩ env).map fun r =>
    match r.1 with
    | none => ⟨-1, r.2, t⟩
    | some fd =>
      match procInstallFd t fd with
      | none => ⟨-1, vfsClose r.2 fd, t⟩
      | some (pfd, t) => ⟨pfd, r.2, t⟩

/-- `SYS_PIPE`. -/
def sysPipe (v : Vfs) (t : OfdTable) : FileCall :=
  let r := pipeCreateFds v
  match r.1 with
  | none => ⟨-1, r.2, t⟩
  | some (rfd, wfd) =>
    match procInstallFd t rfd with
    | none => ⟨-1, pipeFdClose (pipeFdClose r.2 rfd) wfd, t⟩
    | some (_, t') =>
      match procInstallFd t' wfd with
      | none => ⟨-1, pipeFdClose (pipeFdClose r.2 rfd) wfd, t⟩
      | some (_, t'') => ⟨0, r.2, t''⟩

/-- `SYS_CLOSE`. -/
def sysClose (v : Vfs) (t : OfdTable) (procFd : ℤ) : FileCall :=
  if h : 0 ≤ procFd ∧ procFd < 16 then
    let i : Fin 16 := ⟨procFd.toNat, by omega⟩
    match t i with
    | .none => ⟨-1, v, t⟩
    | .consoleIn | .consoleOut => ⟨0, v, Function.update t i .none⟩
    | .file fd => ⟨if (v.fds fd).used then 0 else -1, vfsCloseFd v fd, Function.update t i .none⟩
  else ⟨-1, v, t⟩

/-- `SYS_DUP2`: what is at the new descriptor is closed before the reference is counted. -/
def sysDup2 (v : Vfs) (t : OfdTable) (oldPfd newPfd : ℤ) : FileCall :=
  if h : (0 ≤ oldPfd ∧ oldPfd < 16) ∧ (0 ≤ newPfd ∧ newPfd < 16) then
    let old : Fin 16 := ⟨oldPfd.toNat, by omega⟩
    let new : Fin 16 := ⟨newPfd.toNat, by omega⟩
    let ofd := t old
    if ofd = .none then ⟨-1, v, t⟩
    else
      ⟨newPfd, addrefOfd (closeOfd v (t new)) ofd, Function.update t new ofd⟩
  else ⟨-1, v, t⟩

/-- `SYS_WRITE`. Writing to a pipe and to the console does not concern these tables. -/
def sysWrite (v : Vfs) (t : OfdTable) (procFd : ℤ) (bytes : List UInt8) (env : WriteEnv) :
    Option FileCall :=
  match procToOfd t procFd with
  | .consoleOut => some ⟨bytes.length, v, t⟩
  | .none | .consoleIn => some ⟨-1, v, t⟩
  | .file fd =>
    if (v.fds fd).used ∧ (v.fds fd).pipe.isSome ∧ (v.fds fd).pipeMode = .write then
      some ⟨env.elsewhere, v, t⟩
    else (vfsWrite v fd bytes env).map fun r => ⟨r.1, r.2, t⟩

/-- `SYS_READ`: `rax`, the bytes that are stored in the buffer of the caller, and the tables. `elsewhere` is
what the console, a pipe or the FAT layer delivers. -/
def sysRead (v : Vfs) (t : OfdTable) (procFd : ℤ) (count : ℕ) (elsewhere : ℤ × List UInt8) :
    Option (List UInt8 × FileCall) :=
  match procToOfd t procFd with
  | .consoleIn => some (elsewhere.2, ⟨elsewhere.1, v, t⟩)
  | .none | .consoleOut => some ([], ⟨-1, v, t⟩)
  | .file fd =>
    if (v.fds fd).used ∧ (v.fds fd).pipe.isSome ∧ (v.fds fd).pipeMode = .read then
      some (elsewhere.2, ⟨elsewhere.1, v, t⟩)
    else (vfsRead v fd count elsewhere).map fun r => (r.1.2, ⟨r.1.1, r.2, t⟩)

/-- `SYS_LSEEK`. -/
def sysLseek (v : Vfs) (t : OfdTable) (procFd offset : ℤ) (whence : Whence) : FileCall :=
  match procToOfd t procFd with
  | .file fd =>
    let r := vfsLseek v fd (toInt32 offset) whence
    ⟨r.1, r.2, t⟩
  | _ => ⟨-1, v, t⟩

/-- The copy of the descriptors in `task_fork`: every reference of the child is counted. -/
def forkFds (v : Vfs) (t : OfdTable) : Vfs := (List.finRange 16).foldl (fun v j => addrefOfd v (t j)) v

/-- `task_close_fds`. -/
def taskCloseFds (v : Vfs) (t : OfdTable) : Vfs := (List.finRange 16).foldl (fun v j => closeOfd v (t j)) v

/-- The descriptors of a new process. -/
def newOfdTable : OfdTable := fun i =>
  if i = 0 then .consoleIn else if i = 1 ∨ i = 2 then .consoleOut else .none

end PlantOS.Fs
