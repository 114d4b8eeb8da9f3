import PlantOS.Fs.Path

/-!
# The file system in memory

A table of inodes. A file has a buffer of `capacity` bytes of which `size` are in use; a directory has a list
of entries, in the code an array of `struct vfs_dirent` of 64 bytes each, whose size in bytes is in `size`.
Whether there is memory for a larger buffer is an input.

The functions that create a file or a directory copy its name into a buffer of 60 bytes and the path of its
parent into one of 256 bytes, without a check. With longer ones they have no result.

Reference: `fs/ramfs.c`.
-/

namespace PlantOS.Fs

/-- `type` of an inode. -/
inductive NodeType
  | none | file | dir
deriving DecidableEq

/-- `struct vfs_dirent`. -/
structure Dirent where
  name : List UInt8
  inode : ℕ
deriving DecidableEq

/-- `struct vfs_inode`. `data` is NULL or the contents of the buffer. -/
structure Inode where
  type : NodeType
  size : ℕ
  data : Option (ℕ → UInt8)
  capacity : ℕ
  used : Bool
  uid : ℕ
  gid : ℕ
  mode : ℕ
  entries : List Dirent

/-- `memset(inode, 0, sizeof(*inode))`. -/
def Inode.zero : Inode := ⟨.none, 0, none, 0, false, 0, 0, 0, []⟩

/-- `inode_table`. -/
abbrev Inodes := ℕ → Inode

/-- The user and the group of a task. -/
structure Cred where
  uid : ℕ
  gid : ℕ

/-- `ramfs_get_inode`. -/
def ramfsGetInode (t : Inodes) (idx : ℕ) : Option Inode :=
  if idx < 64 ∧ (t idx).used then some (t idx) else none

/-- `alloc_inode`. -/
def allocInode (t : Inodes) : Option (ℕ × Inodes) :=
  ((List.range 64).find? fun i => !(t i).used).map fun i =>
    (i, Function.update t i { Inode.zero with used := true })

/-- `dir_add_entry`; `memory` is the result of `kmalloc`. -/
def dirAddEntry (t : Inodes) (dir : ℕ) (name : List UInt8) (child : ℕ) (memory : Bool) : Option Inodes :=
  let d := t dir
  if d.type ≠ .dir then none
  else
    let needed := (d.size / 64 + 1) * 64
    let entries := d.entries ++ [⟨name.take 59, child⟩]
    if needed > d.capacity then
      if memory then
        some (Function.update t dir
          { d with capacity := max (needed * 2) 512, entries := entries, size := needed })
      else none
    else some (Function.update t dir { d with entries := entries, size := needed })

/-- The next component of a path, and the rest of the path. A component has at most 59 characters. -/
def nextComponent (p : List UInt8) : List UInt8 × List UInt8 :=
  let c := (p.takeWhile (· ≠ 47)).take 59
  (c, p.drop c.length)

/-- The loop of `ramfs_resolve_path`. Every component has a character, so the length of the path bounds the
number of components. -/
def resolveComponents (t : Inodes) : ℕ → ℕ → List UInt8 → Option ℕ
  | 0, cur, _ => some cur
  | fuel + 1, cur, p =>
    match p.dropWhile (· = 47) with
    | [] => some cur
    | p =>
      match ramfsGetInode t cur with
      | none => none
      | some dir =>
        if dir.type ≠ .dir then none
        else
          match dir.entries.find? fun e => e.name = (nextComponent p).1 with
          | none => none
          | some e => resolveComponents t fuel e.inode (nextComponent p).2

/-- `ramfs_resolve_path`. -/
def ramfsResolvePath (t : Inodes) (path : List UInt8) : Option ℕ :=
  match path with
  | [] => none
  | c :: p => if c ≠ 47 then none else resolveComponents t (p.length + 1) 0 p

/-- What a function that creates a node returns: the inode or -1, and the table. -/
abbrev RamfsResult := Option ℕ × Inodes

/-- `split_path` fails. -/
def splitFails (path : List UInt8) : Bool := path.length < 2 || path.head? != some 47

/-- `split_path` stays inside the buffers of its caller. -/
def splitFits (path : List UInt8) : Bool := (parentPath path).length < 256 && (baseName path).length < 60

/-- The part of `ramfs_create_file` and `ramfs_create_dir` behind their checks: a new inode, entered in the
directory `parent`. -/
def createNode (t : Inodes) (cred : Cred) (parent : ℕ) (name : List UInt8) (type : NodeType) (mode : ℕ)
    (memory : Bool) : RamfsResult :=
  match allocInode t with
  | none => (none, t)
  | some (ino, t) =>
    let t := Function.update t ino
      { t ino with type := type, mode := mode, uid := cred.uid, gid := cred.gid }
    match dirAddEntry t parent name ino memory with
    | none => (none, Function.update t ino { t ino with used := false })
    | some t => (some ino, t)

/-- `ramfs_create_file`. -/
def ramfsCreateFile (t : Inodes) (cred : Cred) (path : List UInt8) (memory : Bool) : Option RamfsResult :=
  if splitFails path then some (none, t)
  else if splitFits path then
    match ramfsResolvePath t (parentPath path) with
    | none => some (none, t)
    | some parent =>
      match ramfsResolvePath t path with
      | some existing => some (some existing, t)
      | none => some (createNode t cred parent (baseName path) .file 0o644 memory)
  else none

/-- `ramfs_create_dir`. -/
def ramfsCreateDir (t : Inodes) (cred : Cred) (path : List UInt8) (memory : Bool) : Option RamfsResult :=
  if splitFails path then some (none, t)
  else if splitFits path then
    match ramfsResolvePath t (parentPath path) with
    | none => some (none, t)
    | some parent =>
      match ramfsResolvePath t path with
      | some _ => some (none, t)
      | none => some (createNode t cred parent (baseName path) .dir 0o755 memory)
  else none

/-- The entry `name` is taken out of a directory, and the entries behind it move up. -/
def dirRemoveEntry (dir : Inode) (name : List UInt8) : Inode :=
  if dir.entries.any (·.name = name) then
    { dir with entries := dir.entries.eraseP (·.name = name), size := dir.size - 64 }
  else dir

/-- The end of `ramfs_unlink`: the inode is free. -/
def Inode.release (node : Inode) : Inode := { node with data := none, used := false, size := 0, capacity := 0 }

/-- `ramfs_unlink`: 0 or -1, and the table. -/
def ramfsUnlink (t : Inodes) (path : List UInt8) : Option (ℤ × Inodes) :=
  if splitFails path then some (-1, t)
  else if splitFits path then
    match ramfsResolvePath t (parentPath path), ramfsResolvePath t path with
    | some parent, some target =>
      match ramfsGetInode t target, ramfsGetInode t parent with
      | some node, some dir =>
        if node.type = .file ∧ dir.type = .dir then
          let t := Function.update t parent (dirRemoveEntry dir (baseName path))
          some (0, Function.update t target node.release)
        else some (-1, t)
      | _, _ => some (-1, t)
    | _, _ => some (-1, t)
  else none

/-- `ramfs_init`: the root directory. -/
def ramfsInit : Inodes :=
  Function.update (fun _ => Inode.zero) 0 { Inode.zero with used := true, type := .dir, mode := 0o755 }

/-! ## What the helper functions return -/

theorem ramfsGetInode_eq_some {t : Inodes} {i : ℕ} {node : Inode} :
    ramfsGetInode t i = some node ↔ (i < 64 ∧ (t i).used = true) ∧ t i = node := by
  rw [ramfsGetInode]
  split
  · rename_i h
    simp [h]
  · rename_i h
    simp [h]

theorem allocInode_eq_some {t t' : Inodes} {ino : ℕ} (h : allocInode t = some (ino, t')) :
    ino < 64 ∧ (t ino).used = false ∧ t' = Function.update t ino { Inode.zero with used := true } := by
  simp only [allocInode, Option.map_eq_some_iff, Prod.mk.injEq] at h
  obtain ⟨i, hi, rfl, rfl⟩ := h
  exact ⟨List.mem_range.1 (List.mem_of_find?_eq_some hi), by simpa using List.find?_some hi, rfl⟩

theorem dirAddEntry_eq_some {t t' : Inodes} {dir child : ℕ} {name : List UInt8} {memory : Bool}
    (h : dirAddEntry t dir name child memory = some t') :
    (t dir).type = .dir ∧ ∃ capacity, t' = Function.update t dir { t dir with
      capacity := capacity, entries := (t dir).entries ++ [⟨name.take 59, child⟩],
      size := ((t dir).size / 64 + 1) * 64 } := by
  unfold dirAddEntry at h
  by_cases htype : (t dir).type = .dir
  · refine ⟨htype, ?_⟩
    rw [if_neg (not_not.2 htype)] at h
    dsimp only at h
    split at h
    · split at h
      · exact ⟨_, (Option.some.inj h).symm⟩
      · cases h
    · exact ⟨(t dir).capacity, (Option.some.inj h).symm⟩
  · rw [if_pos htype] at h
    cases h

end PlantOS.Fs
