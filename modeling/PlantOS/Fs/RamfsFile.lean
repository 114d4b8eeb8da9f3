import PlantOS.Common.Slice
import PlantOS.Fs.WritePermission

/-!
# Files in memory as byte arrays

The contents of a file are the first `size` bytes of its buffer (`Inode.bytes`). The calls on paths and on
descriptors keep the buffers of all files large enough (`vfsStep_filesOk`), so that reads and writes stay inside
them. Through any descriptors that are open on a file, a file then behaves like an array of bytes with a cursor
for each descriptor (`ramfs_file_refines`).

A write may start behind the end of the file. The gap has the contents of the new buffer, and the file is no
array of the bytes that were written, so the refinement is for writes that start inside the file or at its end.

Reference: `fs/vfs.c`, `fs/ramfs.c`.
-/

namespace PlantOS.Fs

open Run Word Bytes

/-! ## The contents of a file -/

/-- The contents of a file. -/
def Inode.bytes (node : Inode) : List UInt8 := Inode.read (node.data.getD fun _ => 0) 0 node.size

/-- The contents fit in the buffer, and there is a buffer unless its capacity is 0. -/
structure Inode.Wf (node : Inode) : Prop where
  size : node.size ≤ node.capacity
  data : 0 < node.capacity → node.data.isSome

theorem Inode.getElem?_read (data : ℕ → UInt8) (off n i : ℕ) :
    (Inode.read data off n)[i]? = if i < n then some (data (off + i)) else none := by
  rw [Inode.read, List.getElem?_map]
  by_cases hi : i < n
  · rw [List.getElem?_range hi, if_pos hi]
    rfl
  · rw [List.getElem?_eq_none (by rw [List.length_range]; omega), if_neg hi]
    rfl

@[simp] theorem Inode.length_read (data : ℕ → UInt8) (off n : ℕ) : (Inode.read data off n).length = n := by
  rw [Inode.read, List.length_map, List.length_range]

@[simp] theorem Inode.length_bytes (node : Inode) : node.bytes.length = node.size := Inode.length_read ..

/-- What `vfs_read` copies is a part of the contents. -/
theorem Inode.read_eq_slice {node : Inode} {data : ℕ → UInt8} (hdata : node.data = some data) {off : ℕ}
    (hoff : off < node.size) (count : ℕ) :
    Inode.read data off (min count (node.size - off)) = slice node.bytes off count := by
  refine List.ext_getElem? fun i => ?_
  rw [getElem?_slice, Inode.getElem?_read, Inode.bytes, Inode.getElem?_read, hdata, Nat.zero_add]
  by_cases hi : i < count
  · rw [if_pos hi]
    refine if_congr ?_ rfl rfl
    omega
  · rw [if_neg hi, if_neg (by omega)]

/-- What an open entry of the RAM file system refers to. -/
theorem Vfs.fileAt_eq_some {v : Vfs} {fd : Fd} {node : Inode} : v.fileAt fd = some node ↔
    (v.fds fd).fatFd = none ∧ ramfsGetInode v.inodes (v.fds fd).inode = some node ∧ node.type = .file := by
  rw [Vfs.fileAt]
  cases hfat : (v.fds fd).fatFd with
  | none => simp [Option.filter_eq_some_iff]
  | some ffd => simp

theorem type_ne_file {v : Vfs} {fd : Fd} (hfat : (v.fds fd).fatFd = none) (hused : (v.fds fd).used = true)
    (hnot : (v.fds fd).used = false ∨ v.fileAt fd = none) {node : Inode}
    (hget : ramfsGetInode v.inodes (v.fds fd).inode = some node) : node.type ≠ .file := by
  intro htype
  rw [hused, Vfs.fileAt_eq_some.2 ⟨hfat, hget, htype⟩] at hnot
  simp at hnot

/-! ## Reading -/

theorem vfsRead_of_fileAt {v : Vfs} {fd : Fd} {node : Inode} (hused : (v.fds fd).used = true)
    (hat : v.fileAt fd = some node) (hwf : node.Wf) (count : ℕ) (elsewhere : ℤ × List UInt8) :
    vfsRead v fd count elsewhere = some (if (v.fds fd).offset ≥ node.size then ((0, []), v) else
      ((toInt32 (slice node.bytes (v.fds fd).offset count).length, slice node.bytes (v.fds fd).offset count),
        v.setFd fd { v.fds fd with
          offset := wrap 32 ((v.fds fd).offset + (slice node.bytes (v.fds fd).offset count).length) })) := by
  obtain ⟨hfat, hget, htype⟩ := Vfs.fileAt_eq_some.1 hat
  rw [vfsRead, if_neg (not_not.2 hused), if_neg (by simp [hfat]), hget]
  dsimp only
  rw [if_neg (not_not.2 htype)]
  by_cases hoff : (v.fds fd).offset ≥ node.size
  · rw [if_pos hoff, if_pos hoff]
  · rw [if_neg hoff, if_neg hoff]
    obtain ⟨data, hdata⟩ := Option.isSome_iff_exists.1 (hwf.data (by have := hwf.size; omega))
    rw [← Inode.read_eq_slice hdata (Nat.lt_of_not_ge hoff), hdata, Option.map_some, Inode.length_read]

theorem vfsRead_of_not {v : Vfs} {fd : Fd} (hfat : (v.fds fd).fatFd = none)
    (hnot : (v.fds fd).used = false ∨ v.fileAt fd = none) (count : ℕ) (elsewhere : ℤ × List UInt8) :
    vfsRead v fd count elsewhere = some ((-1, []), v) := by
  rw [vfsRead]
  by_cases hused : (v.fds fd).used = true
  · rw [if_neg (not_not.2 hused), if_neg (by simp [hfat])]
    cases hget : ramfsGetInode v.inodes (v.fds fd).inode with
    | none => rfl
    | some node => exact if_pos (type_ne_file hfat hused hnot hget)
  · rw [if_pos hused]

/-! ## Writing -/

@[simp] theorem Vfs.inodes_setInode_self (v : Vfs) (ino : ℕ) (node : Inode) :
    (v.setInode ino node).inodes ino = node :=
  Function.update_self ..

theorem Vfs.inodes_setInode_of_ne (v : Vfs) {ino i : ℕ} (h : i ≠ ino) (node : Inode) :
    (v.setInode ino node).inodes i = v.inodes i :=
  Function.update_of_ne h ..

/-- The tables after `n` bytes have been written through `fd` to a file that is now `node`. -/
def Vfs.wrote (v : Vfs) (fd : Fd) (node : Inode) (n : ℕ) : Vfs :=
  (v.setInode (v.fds fd).inode node).setFd fd { v.fds fd with offset := (v.fds fd).offset + n }

/-- `node'` is the file after a write. -/
structure Written (node node' : Inode) (off : ℕ) (bytes : List UInt8) : Prop where
  used : node'.used = node.used
  type : node'.type = node.type
  wf : node'.Wf
  bytes : off ≤ node.size → node'.bytes = splice node.bytes off bytes

/-- The bytes are stored in a buffer that has room for them. -/
theorem storeBytes_spec {v : Vfs} {fd : Fd} {node : Inode} {bytes : List UInt8} (hwf : node.Wf)
    (hroom : (v.fds fd).offset + bytes.length ≤ node.capacity) (hlen : bytes.length < 2 ^ 31) :
    ∃ node', storeBytes v fd node bytes ((v.fds fd).offset + bytes.length) =
        some ((bytes.length : ℤ), v.wrote fd node' bytes.length) ∧
      Written node node' (v.fds fd).offset bytes := by
  unfold storeBytes
  dsimp only
  rw [if_pos (.inr hroom), toInt32_of_lt hlen]
  refine ⟨_, rfl, rfl, rfl, ⟨?_, fun hcap => ?_⟩, fun hoff => ?_⟩
  · have := hwf.size
    dsimp only
    omega
  · rw [Option.isSome_map]
    exact hwf.data hcap
  · refine List.ext_getElem? fun i => ?_
    rw [getElem?_splice (by simpa using hoff), Inode.bytes, Inode.bytes, Inode.getElem?_read,
      Inode.getElem?_read, Nat.zero_add]
    dsimp only
    by_cases hcap : node.capacity = 0
    · -- An empty file, and nothing to write.
      have hsize := hwf.size
      rw [if_neg (by omega), if_neg (by omega), if_neg (by omega), if_neg (by omega)]
    · obtain ⟨data, hdata⟩ := Option.isSome_iff_exists.1 (hwf.data (Nat.pos_of_ne_zero hcap))
      rw [hdata, Option.map_some, Option.getD_some, Option.getD_some]
      by_cases hi : i < (v.fds fd).offset
      · rw [if_pos hi, if_neg (Nat.not_le.2 hi)]
        refine if_congr ?_ rfl rfl
        omega
      · rw [if_neg hi, if_pos (Nat.le_of_not_lt hi)]
        by_cases hend : i < (v.fds fd).offset + bytes.length
        · have hlt : i - (v.fds fd).offset < bytes.length := by omega
          rw [if_pos hend, if_pos (by omega), List.getElem?_eq_getElem hlt, Option.getD_some]
        · rw [if_neg hend, List.getElem?_eq_none (by omega), Option.getD_none]
          refine if_congr ?_ rfl rfl
          omega

/-- The new buffer has the contents of the old one, and room for the write. -/
theorem growBuffer_spec {node : Inode} (hwf : node.Wf) {needed : ℕ} (hgrow : needed > node.capacity)
    (hlt : needed < 2 ^ 31) (junk : ℕ → UInt8) :
    ∃ node', growBuffer node needed junk = some node' ∧ node'.used = node.used ∧ node'.type = node.type ∧
      node'.size = node.size ∧ node'.bytes = node.bytes ∧ node'.Wf ∧ needed ≤ node'.capacity := by
  have hsize := hwf.size
  have hcap : wrap 32 (needed * 2) = needed * 2 := wrap_of_lt (by push_cast; rfl) (by omega)
  rw [growBuffer, hcap, if_neg (by omega)]
  refine ⟨_, rfl, rfl, rfl, rfl, ?_, ⟨?_, fun _ => rfl⟩, ?_⟩
  · refine List.ext_getElem? fun i => ?_
    rw [Inode.bytes, Inode.bytes, Inode.getElem?_read, Inode.getElem?_read, Nat.zero_add]
    dsimp only
    by_cases hi : i < node.size
    · obtain ⟨data, hdata⟩ := Option.isSome_iff_exists.1 (hwf.data (by omega))
      rw [hdata, if_pos hi, if_pos hi, Option.getD_some, Option.getD_some, if_pos hi, Option.getD_some]
    · rw [if_neg hi, if_neg hi]
  · dsimp only
    omega
  · dsimp only
    omega

theorem vfsWrite_of_fileAt {v : Vfs} {fd : Fd} {node : Inode} (hused : (v.fds fd).used = true)
    (hat : v.fileAt fd = some node) (hwf : node.Wf) {bytes : List UInt8}
    (hfits : (v.fds fd).offset + bytes.length < 2 ^ 31) (env : WriteEnv) :
    (env.memory = none ∧ vfsWrite v fd bytes env = some (-1, v)) ∨
      ∃ node', vfsWrite v fd bytes env = some ((bytes.length : ℤ), v.wrote fd node' bytes.length) ∧
        Written node node' (v.fds fd).offset bytes := by
  obtain ⟨hfat, hget, htype⟩ := Vfs.fileAt_eq_some.1 hat
  have hlen : wrap 32 bytes.length = bytes.length := wrap_of_lt rfl (by omega)
  have hneeded : wrap 32 ((v.fds fd).offset + wrap 32 bytes.length) = (v.fds fd).offset + bytes.length :=
    wrap_of_lt (by rw [hlen]; push_cast; rfl) (by omega)
  rw [vfsWrite, if_neg (not_not.2 hused), if_neg (by simp [hfat]), hget]
  dsimp only
  rw [if_neg (not_not.2 htype), hneeded]
  by_cases hgrow : (v.fds fd).offset + bytes.length > node.capacity
  · rw [if_pos hgrow]
    cases env.memory with
    | none => exact .inl ⟨rfl, rfl⟩
    | some junk =>
      obtain ⟨node₁, hnode₁, hused₁, htype₁, hsize₁, hbytes₁, hwf₁, hroom⟩ :=
        growBuffer_spec hwf hgrow hfits junk
      obtain ⟨node', hstore, hwritten⟩ := storeBytes_spec hwf₁ hroom (by omega)
      dsimp only
      rw [hnode₁, Option.bind_some, hstore]
      exact .inr ⟨node', rfl, hwritten.used.trans hused₁, hwritten.type.trans htype₁, hwritten.wf,
        fun hoff => by rw [hwritten.bytes (hsize₁ ▸ hoff), hbytes₁]⟩
  · rw [if_neg hgrow]
    exact .inr (storeBytes_spec hwf (Nat.le_of_not_gt hgrow) (by omega))

theorem vfsWrite_of_not {v : Vfs} {fd : Fd} (hfat : (v.fds fd).fatFd = none)
    (hnot : (v.fds fd).used = false ∨ v.fileAt fd = none) (bytes : List UInt8) (env : WriteEnv) :
    vfsWrite v fd bytes env = some (-1, v) := by
  rw [vfsWrite]
  by_cases hused : (v.fds fd).used = true
  · rw [if_neg (not_not.2 hused), if_neg (by simp [hfat])]
    cases hget : ramfsGetInode v.inodes (v.fds fd).inode with
    | none => rfl
    | some node => exact if_pos (type_ne_file hfat hused hnot hget)
  · rw [if_pos hused]

/-! ## Seeking -/

/-- The position that `whence` counts from. -/
def seekBase (size cursor : ℕ) : Whence → Option ℕ
  | .set => some 0
  | .cur => some cursor
  | .«end» => some size
  | .other => none

theorem vfsLseek_of_fileAt {v : Vfs} {fd : Fd} {node : Inode} (hused : (v.fds fd).used = true)
    (hpipe : (v.fds fd).pipe = none) (hat : v.fileAt fd = some node) (hcursor : (v.fds fd).offset < 2 ^ 31)
    (hsize : node.size < 2 ^ 31) {offset : ℤ} (hoffset : -2 ^ 31 ≤ offset) {whence : Whence}
    (hseek : ∀ base ∈ seekBase node.size (v.fds fd).offset whence, base + offset < 2 ^ 31) :
    vfsLseek v fd offset whence = match seekBase node.size (v.fds fd).offset whence with
      | none => (-1, v)
      | some base => (max (base + offset) 0,
          v.setFd fd { v.fds fd with offset := (max (base + offset) 0).toNat }) := by
  obtain ⟨hfat, hget, htype⟩ := Vfs.fileAt_eq_some.1 hat
  rw [vfsLseek, if_neg (by simp [hused, hpipe, hfat]), hget]
  dsimp only
  rw [if_neg (not_not.2 htype), toInt32_of_lt hcursor, toInt32_of_lt hsize]
  cases whence with
  | other => rfl
  | set =>
    have hlt := hseek 0 rfl
    simp only [seekBase]
    rw [toInt32_of_range (by omega) (by omega)]
    rfl
  | cur =>
    have hlt := hseek _ rfl
    simp only [seekBase]
    rw [toInt32_of_range (by omega) (by omega)]
  | «end» =>
    have hlt := hseek _ rfl
    simp only [seekBase]
    rw [toInt32_of_range (by omega) (by omega)]

/-! ## The calls -/

/-- The calls on files and paths. -/
inductive VfsOp
  | openFile (cred : Cred) (path : List UInt8) (flags : OpenFlags) (env : OpenEnv)
  | close (fd : Fd)
  | read (fd : Fd) (count : ℕ)
  | write (fd : Fd) (bytes : List UInt8) (memory : Option (ℕ → UInt8))
  | lseek (fd : Fd) (offset : ℤ) (whence : Whence)
  | mkdir (cred : Cred) (path : List UInt8) (memory : Bool)
  | unlink (cred : Cred) (path : List UInt8)

/-- The tables after a call. -/
def vfsStep (v : Vfs) : VfsOp → Option Vfs
  | .openFile cred path flags env => (vfsOpen v cred path flags env).map Prod.snd
  | .close fd => some (vfsClose v fd)
  | .read fd count => (vfsRead v fd count (-1, [])).map Prod.snd
  | .write fd bytes memory => (vfsWrite v fd bytes ⟨memory, -1⟩).map Prod.snd
  | .lseek fd offset whence => some (vfsLseek v fd offset whence).2
  | .mkdir cred path memory => (vfsMkdir v cred path memory).map Prod.snd
  | .unlink cred path => (vfsUnlink v cred path).map Prod.snd

/-- Paths are not on the FAT volume, names fit the buffers they are copied to, and the end of a write is below
2 GiB. -/
def VfsOp.Fits (v : Vfs) : VfsOp → Prop
  | .openFile _ path flags _ => onFat v path = false ∧ (flags.create → splitFits path)
  | .write fd bytes _ => (v.fds fd).offset + bytes.length < 2 ^ 31
  | .mkdir _ path _ => onFat v path = false ∧ splitFits path
  | .unlink _ path => onFat v path = false ∧ splitFits path
  | _ => True

instance (v : Vfs) : (op : VfsOp) → Decidable (op.Fits v)
  | .openFile .. => inferInstanceAs (Decidable (_ ∧ (_ → _)))
  | .write .. => inferInstanceAs (Decidable (_ < _))
  | .mkdir .. | .unlink .. => inferInstanceAs (Decidable (_ ∧ _))
  | .close .. | .read .. | .lseek .. => inferInstanceAs (Decidable True)

/-- The inode that is taken for a path that leads nowhere: the one that `alloc_inode` finds. -/
def newInode (t : Inodes) (path : List UInt8) : Option ℕ :=
  if ramfsResolvePath t path = none then (allocInode t).map Prod.fst else none

/-- The inode that a call takes, if it succeeds. -/
def VfsOp.takes (v : Vfs) : VfsOp → Option ℕ
  | .openFile _ path flags _ => if flags.create then newInode v.inodes path else none
  | .mkdir _ path _ => newInode v.inodes path
  | _ => none

/-- The files fit in their buffers, and no description is for a file of the FAT volume. -/
structure Vfs.FilesOk (v : Vfs) : Prop where
  wf : ∀ i, (v.inodes i).used = true → (v.inodes i).type = .file → (v.inodes i).Wf
  fat : ∀ fd, (v.fds fd).fatFd = none

/-- At most the inode `new` is new, and a description that stays in use keeps its inode. -/
structure Vfs.Kept (v v' : Vfs) (new : Option ℕ) : Prop where
  handle : ∀ fd, (v.fds fd).used = true → (v'.fds fd).used = true → (v'.fds fd).inode = (v.fds fd).inode
  inodes : ∀ i, (v'.inodes i).used = true → (v.inodes i).used = true ∨ new = some i

theorem Vfs.FilesOk.fileAt {v : Vfs} (h : v.FilesOk) {fd : Fd} {node : Inode} (hat : v.fileAt fd = some node) :
    node.Wf := by
  obtain ⟨-, hget, htype⟩ := Vfs.fileAt_eq_some.1 hat
  obtain ⟨⟨-, hused⟩, rfl⟩ := ramfsGetInode_eq_some.1 hget
  exact h.wf _ hused htype

/-! ## Creating and removing -/

/-- At most the inode `new` is new, and the files are as they were but for new ones. -/
structure Inodes.Changes (t t' : Inodes) (new : Option ℕ) : Prop where
  used : ∀ i, (t' i).used = true → (t i).used = true ∨ new = some i
  file : ∀ i, (t' i).used = true → (t' i).type = .file →
    t' i = t i ∨ ((t' i).size = 0 ∧ (t' i).capacity = 0)

theorem Inodes.Changes.refl (t : Inodes) (new : Option ℕ) : Inodes.Changes t t new :=
  ⟨fun _ hi => .inl hi, fun _ _ _ => .inl rfl⟩

namespace Inodes.Changes

variable {t t' t'' : Inodes} {new : Option ℕ} {i : ℕ} {node : Inode}

theorem trans (h : Inodes.Changes t t' new) (h' : Inodes.Changes t' t'' none) : Inodes.Changes t t'' new := by
  refine ⟨fun i hi => ?_, fun i hi hfile => ?_⟩
  · obtain hi | hi := h'.used i hi
    · exact h.used i hi
    · cases hi
  · obtain heq | hzero := h'.file i hi hfile
    · rw [heq] at hi hfile ⊢
      exact h.file i hi hfile
    · exact .inr hzero

/-- An inode is given back. -/
theorem free (hnode : node.used = false) : Inodes.Changes t (Function.update t i node) new := by
  have hne : ∀ j, (Function.update t i node j).used = true → j ≠ i := by
    rintro j hj rfl
    rw [Function.update_self, hnode] at hj
    cases hj
  refine ⟨fun j hj => .inl ?_, fun j hj _ => .inl (Function.update_of_ne (hne j hj) ..)⟩
  rwa [Function.update_of_ne (hne j hj)] at hj

/-- A directory is changed. -/
theorem dir (hused : node.used = (t i).used) (htype : node.type = .dir) :
    Inodes.Changes t (Function.update t i node) none := by
  refine ⟨fun j hj => .inl ?_, fun j _ hfile => .inl ?_⟩
  · by_cases hji : j = i
    · subst hji
      rwa [Function.update_self, hused] at hj
    · rwa [Function.update_of_ne hji] at hj
  · have hji : j ≠ i := by
      rintro rfl
      rw [Function.update_self, htype] at hfile
      cases hfile
    exact Function.update_of_ne hji ..

/-- An inode is taken. -/
theorem take (hsize : node.size = 0) (hcap : node.capacity = 0) :
    Inodes.Changes t (Function.update t i node) (some i) := by
  refine ⟨fun j hj => ?_, fun j _ _ => ?_⟩
  · by_cases hji : j = i
    · exact .inr (by rw [hji])
    · rw [Function.update_of_ne hji] at hj
      exact .inl hj
  · by_cases hji : j = i
    · subst hji
      rw [Function.update_self]
      exact .inr ⟨hsize, hcap⟩
    · exact .inl (Function.update_of_ne hji ..)

/-- New files are empty. -/
theorem wf (h : Inodes.Changes t t' new) (hwf : ∀ i, (t i).used = true → (t i).type = .file → (t i).Wf)
    (i : ℕ) (hi : (t' i).used = true) (hfile : (t' i).type = .file) : (t' i).Wf := by
  obtain heq | ⟨hsize, hcap⟩ := h.file i hi hfile
  · rw [heq] at hi hfile ⊢
    exact hwf i hi hfile
  · exact ⟨by rw [hsize]; exact Nat.zero_le _, fun hpos => by rw [hcap] at hpos; cases hpos⟩

end Inodes.Changes

theorem createNode_changes (t : Inodes) (cred : Cred) (parent : ℕ) (name : List UInt8) (type : NodeType)
    (mode : ℕ) (memory : Bool) :
    Inodes.Changes t (createNode t cred parent name type mode memory).2 ((allocInode t).map Prod.fst) := by
  unfold createNode
  cases halloc : allocInode t with
  | none => exact .refl t none
  | some r =>
    obtain ⟨ino, t₁⟩ := r
    obtain ⟨-, -, rfl⟩ := allocInode_eq_some halloc
    simp only [Function.update_self, Function.update_idem]
    split
    · exact .free rfl
    · rename_i t₃ hadd
      obtain ⟨htype, capacity, rfl⟩ := dirAddEntry_eq_some hadd
      exact .trans (.take rfl rfl) (.dir rfl htype)

theorem ramfsCreateFile_changes (t : Inodes) (cred : Cred) {path : List UInt8} (hfits : splitFits path)
    (memory : Bool) :
    ∃ r, ramfsCreateFile t cred path memory = some r ∧ Inodes.Changes t r.2 (newInode t path) := by
  unfold ramfsCreateFile
  rw [if_pos hfits]
  split_ifs
  · exact ⟨_, rfl, .refl t _⟩
  · split
    · exact ⟨_, rfl, .refl t _⟩
    · split
      · exact ⟨_, rfl, .refl t _⟩
      · rename_i hnew
        rw [newInode, if_pos hnew]
        exact ⟨_, rfl, createNode_changes ..⟩

theorem ramfsCreateDir_changes (t : Inodes) (cred : Cred) {path : List UInt8} (hfits : splitFits path)
    (memory : Bool) :
    ∃ r, ramfsCreateDir t cred path memory = some r ∧ Inodes.Changes t r.2 (newInode t path) := by
  unfold ramfsCreateDir
  rw [if_pos hfits]
  split_ifs
  · exact ⟨_, rfl, .refl t _⟩
  · split
    · exact ⟨_, rfl, .refl t _⟩
    · split
      · exact ⟨_, rfl, .refl t _⟩
      · rename_i hnew
        rw [newInode, if_pos hnew]
        exact ⟨_, rfl, createNode_changes ..⟩

theorem dirRemoveEntry_type (dir : Inode) (name : List UInt8) :
    (dirRemoveEntry dir name).type = dir.type ∧ (dirRemoveEntry dir name).used = dir.used := by
  unfold dirRemoveEntry
  split_ifs <;> exact ⟨rfl, rfl⟩

theorem ramfsUnlink_changes (t : Inodes) {path : List UInt8} (hfits : splitFits path) :
    ∃ r, ramfsUnlink t path = some r ∧ Inodes.Changes t r.2 none := by
  unfold ramfsUnlink
  split
  · exact ⟨_, rfl, .refl t _⟩
  · split
    · rename_i parent target _ _
      split
      · rename_i node dir hnode hdir
        obtain ⟨-, rfl⟩ := ramfsGetInode_eq_some.1 hdir
        split
        · rename_i htypes
          obtain ⟨htype, hused⟩ := dirRemoveEntry_type (t parent) (baseName path)
          exact ⟨_, rfl, .trans (.dir hused (htype.trans htypes.2)) (.free rfl)⟩
        · exact ⟨_, rfl, .refl t _⟩
      · exact ⟨_, rfl, .refl t _⟩
    · exact ⟨_, rfl, .refl t _⟩

/-! ## One call -/

/-- Truncation changes the size of one inode at most. -/
theorem vfsTruncate_inodes (v : Vfs) (ino i : ℕ) : (vfsTruncate v ino).inodes i = v.inodes i ∨
    (vfsTruncate v ino).inodes i = { v.inodes i with size := 0 } := by
  unfold vfsTruncate
  split
  · exact .inl rfl
  · rename_i node hget
    obtain ⟨-, rfl⟩ := ramfsGetInode_eq_some.1 hget
    split_ifs
    · by_cases hi : i = ino
      · subst hi
        exact .inr (Function.update_self ..)
      · exact .inl (Function.update_of_ne hi ..)
    · exact .inl rfl

theorem vfsTruncate_fds (v : Vfs) (ino : ℕ) : (vfsTruncate v ino).fds = v.fds := by
  obtain ⟨inodes, heq⟩ := vfsTruncate_eq v ino
  rw [heq]

/-- At most the inode for a path that leads nowhere is new. -/
theorem vfsOpenInode_changes {v : Vfs} {path : List UInt8} {flags : OpenFlags} (cred : Cred) (memory : Bool)
    (hfits : flags.create → splitFits path) :
    ∃ r, vfsOpenInode v cred path flags memory = some r ∧
      Inodes.Changes v.inodes r.2 (if flags.create then newInode v.inodes path else none) := by
  unfold vfsOpenInode
  split
  · split_ifs with hcreate
    · exact ramfsCreateFile_changes v.inodes cred (hfits hcreate) memory
    · exact ⟨_, rfl, .refl ..⟩
  · split
    · exact ⟨_, rfl, .refl ..⟩
    · split_ifs <;> exact ⟨_, rfl, .refl ..⟩

/-- An empty file needs no buffer. -/
theorem Vfs.FilesOk.truncate {v : Vfs} (h : v.FilesOk) (ino : ℕ) : (vfsTruncate v ino).FilesOk := by
  refine ⟨fun i hi hfile => ?_, fun fd => by rw [vfsTruncate_fds]; exact h.fat fd⟩
  obtain heq | heq := vfsTruncate_inodes v ino i
  · rw [heq] at hi hfile ⊢
    exact h.wf i hi hfile
  · rw [heq] at hi hfile ⊢
    exact ⟨Nat.zero_le _, (h.wf i hi hfile).data⟩

/-- `vfs_open` in the RAM file system takes at most one inode, and only for a creation. -/
theorem vfsOpen_spec {v : Vfs} (h : v.FilesOk) {path : List UInt8} {flags : OpenFlags} (cred : Cred)
    (env : OpenEnv) (hfat : onFat v path = false) (hfits : flags.create → splitFits path) :
    ∃ r, vfsOpen v cred path flags env = some r ∧ r.2.FilesOk ∧
      v.Kept r.2 (if flags.create then newInode v.inodes path else none) := by
  obtain ⟨⟨ino, t⟩, hinode, hchanges⟩ := vfsOpenInode_changes cred env.memory hfits (v := v)
  generalize (if flags.create then newInode v.inodes path else none) = new at hchanges ⊢
  have hok : ({ v with inodes := t } : Vfs).FilesOk := ⟨hchanges.wf h.wf, h.fat⟩
  rw [vfsOpen, if_neg (by simp [hfat]), hinode, Option.map_some]
  refine ⟨_, rfl, ?_⟩
  dsimp only
  cases ino with
  | none => exact ⟨hok, fun _ _ _ => rfl, hchanges.used⟩
  | some ino =>
    dsimp only
    cases halloc : allocFd { v with inodes := t } with
    | none => exact ⟨hok, fun _ _ _ => rfl, hchanges.used⟩
    | some r =>
      obtain ⟨fd, v'⟩ := r
      obtain ⟨hfree, rfl⟩ := allocFd_some halloc
      -- The description was not in use.
      have hok' : (({ v with inodes := t } : Vfs).setFd fd { (v.fds fd).fresh with inode := ino }).FilesOk := by
        refine ⟨hok.wf, fun fd' => ?_⟩
        by_cases hfd : fd' = fd
        · rw [hfd, Vfs.fds_setFd_self]
          rfl
        · rw [Vfs.fds_setFd_of_ne _ hfd]
          exact h.fat fd'
      have hhandle : ∀ fd', (v.fds fd').used = true →
          ((({ v with inodes := t } : Vfs).setFd fd { (v.fds fd).fresh with inode := ino }).fds fd').inode =
            (v.fds fd').inode := by
        intro fd' hused
        have hfd : fd' ≠ fd := by
          rintro rfl
          rw [hfree] at hused
          cases hused
        rw [Vfs.fds_setFd_of_ne _ hfd]
      simp only [Vfs.fds_setFd_self, Vfs.setFd_setFd]
      split_ifs
      · refine ⟨hok'.truncate ino, fun fd' hused _ => ?_, fun i hi => ?_⟩
        · rw [vfsTruncate_fds]
          exact hhandle fd' hused
        · refine hchanges.used i ?_
          obtain heq | heq := vfsTruncate_inodes
            (({ v with inodes := t } : Vfs).setFd fd { (v.fds fd).fresh with inode := ino }) ino i
          · rwa [heq] at hi
          · rwa [heq] at hi
      · exact ⟨hok', fun fd' hused _ => hhandle fd' hused, hchanges.used⟩

/-- A step that leaves the inodes alone. -/
theorem Vfs.FilesOk.of_fds {v v' : Vfs} (h : v.FilesOk) (hinodes : v'.inodes = v.inodes)
    (hfds : ∀ fd, (v'.fds fd).inode = (v.fds fd).inode ∧ (v'.fds fd).fatFd = (v.fds fd).fatFd) :
    v'.FilesOk ∧ v.Kept v' none := by
  refine ⟨⟨by rw [hinodes]; exact h.wf, fun fd => by rw [(hfds fd).2]; exact h.fat fd⟩,
    fun fd _ _ => (hfds fd).1, fun i hi => .inl ?_⟩
  rwa [hinodes] at hi

/-- A description is changed, but neither its inode nor its file on the FAT volume. -/
theorem Vfs.FilesOk.setFd {v : Vfs} (h : v.FilesOk) (fd : Fd) {f : VfsFd} (hinode : f.inode = (v.fds fd).inode)
    (hfat : f.fatFd = (v.fds fd).fatFd) : (v.setFd fd f).FilesOk ∧ v.Kept (v.setFd fd f) none := by
  refine h.of_fds rfl fun fd' => ?_
  by_cases hfd : fd' = fd
  · subst hfd
    rw [Vfs.fds_setFd_self]
    exact ⟨hinode, hfat⟩
  · rw [Vfs.fds_setFd_of_ne _ hfd]
    exact ⟨rfl, rfl⟩

theorem Vfs.FilesOk.refl {v : Vfs} (h : v.FilesOk) : v.FilesOk ∧ v.Kept v none :=
  h.of_fds rfl fun _ => ⟨rfl, rfl⟩

theorem Vfs.FilesOk.close {v : Vfs} (h : v.FilesOk) (fd : Fd) :
    (vfsClose v fd).FilesOk ∧ v.Kept (vfsClose v fd) none := by
  have hfat : closeFat v fd = v := by rw [closeFat, h.fat fd]
  unfold vfsClose
  rw [hfat]
  split
  · exact h.refl
  · split
    · exact h.setFd _ rfl rfl
    · exact h.setFd _ rfl rfl

theorem Vfs.FilesOk.read {v : Vfs} (h : v.FilesOk) (fd : Fd) (count : ℕ) (elsewhere : ℤ × List UInt8) :
    ∃ r, vfsRead v fd count elsewhere = some r ∧ r.2.FilesOk ∧ v.Kept r.2 none := by
  cases hused : (v.fds fd).used with
  | false => exact ⟨_, vfsRead_of_not (h.fat fd) (.inl hused) .., h.refl⟩
  | true =>
    cases hat : v.fileAt fd with
    | none => exact ⟨_, vfsRead_of_not (h.fat fd) (.inr hat) .., h.refl⟩
    | some node =>
      refine ⟨_, vfsRead_of_fileAt hused hat (h.fileAt hat) .., ?_⟩
      split_ifs
      · exact h.refl
      · exact h.setFd _ rfl rfl

theorem Vfs.FilesOk.lseek {v : Vfs} (h : v.FilesOk) (fd : Fd) (offset : ℤ) (whence : Whence) :
    (vfsLseek v fd offset whence).2.FilesOk ∧ v.Kept (vfsLseek v fd offset whence).2 none := by
  unfold vfsLseek
  split_ifs
  · exact h.refl
  · split
    · exact h.refl
    · split_ifs
      · exact h.refl
      · cases whence with
        | other => exact h.refl
        | set => exact h.setFd _ rfl rfl
        | cur => exact h.setFd _ rfl rfl
        | «end» => exact h.setFd _ rfl rfl

theorem Vfs.FilesOk.wrote {v : Vfs} (h : v.FilesOk) {fd : Fd} {node node' : Inode}
    (hat : v.fileAt fd = some node) {bytes : List UInt8} (hw : Written node node' (v.fds fd).offset bytes)
    (n : ℕ) : (v.wrote fd node' n).FilesOk ∧ v.Kept (v.wrote fd node' n) none := by
  obtain ⟨-, hget, -⟩ := Vfs.fileAt_eq_some.1 hat
  obtain ⟨⟨-, hnode⟩, rfl⟩ := ramfsGetInode_eq_some.1 hget
  have hok : (v.setInode (v.fds fd).inode node').FilesOk := by
    refine ⟨fun i hi hfile => ?_, h.fat⟩
    by_cases hii : i = (v.fds fd).inode
    · rw [hii, Vfs.inodes_setInode_self]
      exact hw.wf
    · rw [Vfs.inodes_setInode_of_ne _ hii] at hi hfile ⊢
      exact h.wf i hi hfile
  obtain ⟨hset, hkept⟩ := hok.setFd fd (f := { v.fds fd with offset := (v.fds fd).offset + n }) rfl rfl
  refine ⟨hset, hkept.handle, fun i hi => .inl ?_⟩
  by_cases hii : i = (v.fds fd).inode
  · rw [hii]
    exact hnode
  · rwa [Vfs.wrote, Vfs.inodes_setFd, Vfs.inodes_setInode_of_ne _ hii] at hi

theorem Vfs.FilesOk.write {v : Vfs} (h : v.FilesOk) {fd : Fd} {bytes : List UInt8}
    (hfits : (v.fds fd).offset + bytes.length < 2 ^ 31) (env : WriteEnv) :
    ∃ r, vfsWrite v fd bytes env = some r ∧ r.2.FilesOk ∧ v.Kept r.2 none := by
  cases hused : (v.fds fd).used with
  | false => exact ⟨_, vfsWrite_of_not (h.fat fd) (.inl hused) .., h.refl⟩
  | true =>
    cases hat : v.fileAt fd with
    | none => exact ⟨_, vfsWrite_of_not (h.fat fd) (.inr hat) .., h.refl⟩
    | some node =>
      obtain ⟨-, hfail⟩ | ⟨node', hwrite, hwritten⟩ := vfsWrite_of_fileAt hused hat (h.fileAt hat) hfits env
      · exact ⟨_, hfail, h.refl⟩
      · exact ⟨_, hwrite, h.wrote hat hwritten _⟩

/-- Every call returns, and keeps the files inside their buffers. -/
theorem vfsStep_spec {v : Vfs} (h : v.FilesOk) {op : VfsOp} (hfits : op.Fits v) :
    ∃ v', vfsStep v op = some v' ∧ v'.FilesOk ∧ v.Kept v' (op.takes v) := by
  cases op with
  | openFile cred path flags env =>
    obtain ⟨r, hr, hspec⟩ := vfsOpen_spec h cred env hfits.1 hfits.2
    exact ⟨r.2, by rw [vfsStep, hr]; rfl, hspec⟩
  | close fd => exact ⟨_, rfl, h.close fd⟩
  | read fd count =>
    obtain ⟨r, hr, hspec⟩ := h.read fd count (-1, [])
    exact ⟨r.2, by rw [vfsStep, hr]; rfl, hspec⟩
  | write fd bytes memory =>
    obtain ⟨r, hr, hspec⟩ := h.write hfits ⟨memory, -1⟩
    exact ⟨r.2, by rw [vfsStep, hr]; rfl, hspec⟩
  | lseek fd offset whence => exact ⟨_, rfl, h.lseek fd offset whence⟩
  | mkdir cred path memory =>
    obtain ⟨r, hr, hchanges⟩ := ramfsCreateDir_changes v.inodes cred hfits.2 memory
    exact ⟨{ v with inodes := r.2 }, by rw [vfsStep, vfsMkdir, hr]; rfl, ⟨hchanges.wf h.wf, h.fat⟩,
      fun _ _ _ => rfl, hchanges.used⟩
  | unlink cred path =>
    obtain ⟨r, hr, hchanges⟩ := ramfsUnlink_changes v.inodes hfits.2
    rw [vfsStep, vfsUnlink]
    split_ifs
    · exact ⟨v, rfl, h.refl⟩
    · rw [hr]
      exact ⟨_, rfl, ⟨hchanges.wf h.wf, h.fat⟩, fun _ _ _ => rfl, hchanges.used⟩

/-- After `vfs_init` there are no files. -/
theorem vfsInit_filesOk (mount : Option (List UInt8)) : (vfsInit mount).FilesOk := by
  refine ⟨fun i hi hfile => ?_, fun _ => rfl⟩
  have h0 : i = 0 := by
    by_contra hne
    have hfree : ramfsInit i = Inode.zero := by rw [ramfsInit, Function.update_of_ne hne]
    rw [vfsInit] at hi
    dsimp only at hi
    rw [hfree] at hi
    cases hi
  rw [h0] at hfile
  cases hfile

/-! ## The array of bytes -/

/-- A file as an array of bytes, with a cursor for each description. -/
structure ByteFile where
  bytes : List UInt8
  cursor : Fd → ℕ

/-- The calls on a file. -/
inductive IoOp
  | read (fd : Fd) (count : ℕ)
  | write (fd : Fd) (bytes : List UInt8) (memory : Option (ℕ → UInt8))
  | lseek (fd : Fd) (offset : ℤ) (whence : Whence)

/-- The description a call is for. -/
def IoOp.fd : IoOp → Fd
  | .read fd _ | .write fd .. | .lseek fd .. => fd

/-- The return value and the data that is returned. -/
abbrev IoReply := ℤ × List UInt8

namespace ByteFile

/-- Move one cursor. -/
def seek (f : ByteFile) (fd : Fd) (n : ℕ) : ByteFile := { f with cursor := Function.update f.cursor fd n }

/-- The calls on an array of bytes. A write overwrites and extends; it may fail for want of memory, and then
changes nothing. -/
inductive Step : ByteFile → IoOp → IoReply → ByteFile → Prop
  | read (f : ByteFile) (fd : Fd) (count : ℕ) :
    Step f (.read fd count) ((slice f.bytes (f.cursor fd) count).length, slice f.bytes (f.cursor fd) count)
      (f.seek fd (f.cursor fd + (slice f.bytes (f.cursor fd) count).length))
  | write (f : ByteFile) (fd : Fd) (bytes : List UInt8) (memory : Option (ℕ → UInt8)) :
    Step f (.write fd bytes memory) (bytes.length, [])
      (({ f with bytes := splice f.bytes (f.cursor fd) bytes } : ByteFile).seek fd
        (f.cursor fd + bytes.length))
  | full (f : ByteFile) (fd : Fd) (bytes : List UInt8) : Step f (.write fd bytes none) (-1, []) f
  | lseek (f : ByteFile) (fd : Fd) (offset : ℤ) (whence : Whence) (base : ℕ)
    (hbase : seekBase f.bytes.length (f.cursor fd) whence = some base) :
    Step f (.lseek fd offset whence) (max (base + offset) 0, []) (f.seek fd (max (base + offset) 0).toNat)
  | whence (f : ByteFile) (fd : Fd) (offset : ℤ) : Step f (.lseek fd offset .other) (-1, []) f

/-- The calls one after another. -/
inductive Runs : ByteFile → List IoOp → List IoReply → ByteFile → Prop
  | nil (f : ByteFile) : Runs f [] [] f
  | cons {f g h : ByteFile} {op : IoOp} {reply : IoReply} {ops : List IoOp} {replies : List IoReply}
    (hstep : Step f op reply g) (hrest : Runs g ops replies h) : Runs f (op :: ops) (reply :: replies) h

end ByteFile

/-- A call on a file in memory. -/
def ioCall (v : Vfs) : IoOp → Option (IoReply × Vfs)
  | .read fd count => vfsRead v fd count (-1, [])
  | .write fd bytes memory => (vfsWrite v fd bytes ⟨memory, -1⟩).map fun r => ((r.1, []), r.2)
  | .lseek fd offset whence =>
    let r := vfsLseek v fd offset whence
    some ((r.1, []), r.2)

/-- The replies to the calls, and the tables after them. -/
def ioRun : Vfs → List IoOp → Option (List IoReply × Vfs)
  | v, [] => some ([], v)
  | v, op :: ops => (ioCall v op).bind fun r => (ioRun r.2 ops).map fun q => (r.1 :: q.1, q.2)

/-- The array of bytes that a file in memory is. -/
def Vfs.byteFile (v : Vfs) (ino : ℕ) : ByteFile := ⟨(v.inodes ino).bytes, fun fd => (v.fds fd).offset⟩

/-- A write starts inside the file or at its end, and offsets stay below 2 GiB. The offset of a seek is an
`int`. -/
def IoOp.Bounded (size cursor : ℕ) : IoOp → Prop
  | .read .. => True
  | .write _ bytes _ => cursor ≤ size ∧ cursor + bytes.length < 2 ^ 31
  | .lseek _ offset whence => -2 ^ 31 ≤ offset ∧ ∀ base ∈ seekBase size cursor whence, base + offset < 2 ^ 31

/-- The call is for a description that is open on the file `ino`, and within the bounds. -/
def IoOk (ino : ℕ) (v : Vfs) (op : IoOp) : Prop :=
  ((v.fds op.fd).used = true ∧ (v.fds op.fd).pipe = none ∧ (v.fds op.fd).fatFd = none ∧
    (v.fds op.fd).inode = ino ∧ ((ramfsGetInode v.inodes ino).any fun node => node.type = .file) = true) ∧
  (v.fds op.fd).offset < 2 ^ 31 ∧ (v.inodes ino).size < 2 ^ 31 ∧
  op.Bounded (v.inodes ino).size (v.fds op.fd).offset

instance (size cursor : ℕ) : (op : IoOp) → Decidable (op.Bounded size cursor)
  | .read .. => inferInstanceAs (Decidable True)
  | .write .. => inferInstanceAs (Decidable (_ ∧ _))
  | .lseek .. => inferInstanceAs (Decidable (_ ∧ ∀ base ∈ seekBase _ _ _, _))

instance (ino : ℕ) (v : Vfs) (op : IoOp) : Decidable (IoOk ino v op) :=
  inferInstanceAs (Decidable ((_ ∧ _ ∧ _ ∧ _ ∧ _) ∧ _ ∧ _ ∧ _))

theorem Vfs.byteFile_setFd (v : Vfs) (ino : ℕ) (fd : Fd) (n : ℕ) :
    (v.setFd fd { v.fds fd with offset := n }).byteFile ino = (v.byteFile ino).seek fd n := by
  have hcursor : (fun fd' => ((v.setFd fd { v.fds fd with offset := n }).fds fd').offset) =
      Function.update (fun fd' => (v.fds fd').offset) fd n := by
    funext fd'
    by_cases hfd : fd' = fd
    · rw [hfd, Vfs.fds_setFd_self, Function.update_self]
    · rw [Vfs.fds_setFd_of_ne _ hfd, Function.update_of_ne hfd]
  rw [Vfs.byteFile, hcursor]
  rfl

theorem ByteFile.seek_self (f : ByteFile) (fd : Fd) : f.seek fd (f.cursor fd) = f := by
  rw [ByteFile.seek, Function.update_eq_self]

/-- One call. -/
theorem ioCall_spec {v : Vfs} {ino : ℕ} {op : IoOp} (hwf : (v.inodes ino).Wf) (hok : IoOk ino v op) :
    ∃ reply v', ioCall v op = some (reply, v') ∧
      ByteFile.Step (v.byteFile ino) op reply (v'.byteFile ino) ∧ (v'.inodes ino).Wf := by
  obtain ⟨⟨hused, hpipe, hfat, rfl, hfile⟩, hoff, hsize, hbounded⟩ := hok
  obtain ⟨node, hget, htype⟩ := (Option.any_eq_true _ _).1 hfile
  obtain ⟨-, rfl⟩ := ramfsGetInode_eq_some.1 hget
  have hat : v.fileAt op.fd = some (v.inodes (v.fds op.fd).inode) :=
    Vfs.fileAt_eq_some.2 ⟨hfat, hget, of_decide_eq_true htype⟩
  cases op with
  | read fd count =>
    simp only [IoOp.fd] at hused hoff hsize hat hwf ⊢
    have hread := vfsRead_of_fileAt hused hat hwf count (-1, [])
    have hstep := ByteFile.Step.read (v.byteFile (v.fds fd).inode) fd count
    by_cases hend : (v.fds fd).offset ≥ (v.inodes (v.fds fd).inode).size
    · -- At the end of the file there is nothing to read.
      have hnil : slice (v.inodes (v.fds fd).inode).bytes (v.fds fd).offset count = [] := by
        rw [slice, List.drop_eq_nil_of_le (by simpa using hend), List.take_nil]
      refine ⟨(0, []), v, hread.trans (congrArg some (if_pos hend)), ?_, hwf⟩
      simp only [Vfs.byteFile, hnil, List.length_nil, Nat.add_zero] at hstep
      rwa [show (⟨_, _⟩ : ByteFile).seek fd (v.fds fd).offset = v.byteFile (v.fds fd).inode from
        ByteFile.seek_self _ fd] at hstep
    · -- The offset does not wrap: it stays within the file.
      have hlen : (v.fds fd).offset +
          (slice (v.inodes (v.fds fd).inode).bytes (v.fds fd).offset count).length < 2 ^ 31 := by
        rw [slice, List.length_take, List.length_drop, Inode.length_bytes]
        omega
      have hwrap : wrap 32 ((v.fds fd).offset +
          (slice (v.inodes (v.fds fd).inode).bytes (v.fds fd).offset count).length) = (v.fds fd).offset +
          (slice (v.inodes (v.fds fd).inode).bytes (v.fds fd).offset count).length :=
        wrap_of_lt (by push_cast; rfl) (by omega)
      rw [if_neg hend, toInt32_of_lt (by omega), hwrap] at hread
      refine ⟨_, _, hread, ?_, hwf⟩
      rw [Vfs.byteFile_setFd]
      exact hstep
  | write fd bytes memory =>
    simp only [IoOp.fd, IoOp.Bounded] at hused hoff hsize hat hwf hbounded ⊢
    obtain ⟨hstart, hlen⟩ := hbounded
    obtain ⟨rfl, hfail⟩ | ⟨node', hwrite, hwritten⟩ := vfsWrite_of_fileAt hused hat hwf hlen ⟨memory, -1⟩
    · -- the buffer could not be enlarged, and nothing is written
      exact ⟨_, v, by rw [ioCall, hfail]; rfl, .full _ fd bytes, hwf⟩
    · refine ⟨_, _, by rw [ioCall, hwrite]; rfl, ?_, ?_⟩
      · have hstep := ByteFile.Step.write (v.byteFile (v.fds fd).inode) fd bytes memory
        have hfile' : (v.wrote fd node' bytes.length).byteFile (v.fds fd).inode =
            ((v.setInode (v.fds fd).inode node').byteFile (v.fds fd).inode).seek fd
              ((v.fds fd).offset + bytes.length) := Vfs.byteFile_setFd ..
        have hbytes : (v.setInode (v.fds fd).inode node').byteFile (v.fds fd).inode =
            ⟨splice (v.inodes (v.fds fd).inode).bytes (v.fds fd).offset bytes, fun fd => (v.fds fd).offset⟩ := by
          rw [Vfs.byteFile, Vfs.inodes_setInode_self, hwritten.bytes hstart]
          rfl
        rw [hfile', hbytes]
        exact hstep
      · rw [Vfs.wrote, Vfs.inodes_setFd, Vfs.inodes_setInode_self]
        exact hwritten.wf
  | lseek fd offset whence =>
    simp only [IoOp.fd, IoOp.Bounded] at hused hpipe hoff hsize hat hwf hbounded ⊢
    obtain ⟨hlow, hseek⟩ := hbounded
    have hcall := vfsLseek_of_fileAt hused hpipe hat hoff hsize hlow hseek
    have hsizeBytes : (v.byteFile (v.fds fd).inode).bytes.length = (v.inodes (v.fds fd).inode).size :=
      Inode.length_bytes _
    refine ⟨_, _, by rw [ioCall, hcall], ?_⟩
    cases hbase : seekBase (v.inodes (v.fds fd).inode).size (v.fds fd).offset whence with
    | none =>
      cases whence with
      | other => exact ⟨.whence _ fd offset, hwf⟩
      | set => cases hbase
      | cur => cases hbase
      | «end» => cases hbase
    | some base =>
      refine ⟨?_, hwf⟩
      dsimp only
      rw [Vfs.byteFile_setFd]
      exact .lseek _ fd offset whence base (by rw [hsizeBytes]; exact hbase)

/-- The tables after a call. -/
def ioStep (v : Vfs) (op : IoOp) : Option Vfs := (ioCall v op).map Prod.snd

/-- Any calls on a file are those on an array of bytes. -/
theorem ioRun_spec {v : Vfs} {ino : ℕ} {ops : List IoOp} (hwf : (v.inodes ino).Wf)
    (hops : AdmitsM ioStep (IoOk ino) v ops) :
    ∃ replies v', ioRun v ops = some (replies, v') ∧
      ByteFile.Runs (v.byteFile ino) ops replies (v'.byteFile ino) := by
  induction ops generalizing v with
  | nil => exact ⟨[], v, rfl, .nil _⟩
  | cons op ops ih =>
    obtain ⟨hok, hrest⟩ := hops
    obtain ⟨reply, v₁, hcall, hstep, hwf₁⟩ := ioCall_spec hwf hok
    rw [ioStep, hcall] at hrest
    obtain ⟨replies, v', hrun, hruns⟩ := ih hwf₁ hrest
    exact ⟨reply :: replies, v', by rw [ioRun, hcall, Option.bind_some, hrun]; rfl, .cons hstep hruns⟩

/-- After any calls, the calls on a file through the descriptions that are open on it have the replies of an
array of bytes with a cursor for each description, and leave the contents and the offsets of the array. -/
theorem ramfs_file_refines (mount : Option (List UInt8)) (ops : List VfsOp)
    (hops : AdmitsM vfsStep (fun v op => op.Fits v) (vfsInit mount) ops) :
    ∃ v, runM vfsStep (vfsInit mount) ops = some v ∧
      ∀ (ino : ℕ) (io : List IoOp), AdmitsM ioStep (IoOk ino) v io →
        ∃ replies v', ioRun v io = some (replies, v') ∧
          ByteFile.Runs (v.byteFile ino) io replies (v'.byteFile ino) := by
  have hstep : ∀ (v : Vfs) (op : VfsOp), v.FilesOk → op.Fits v → ∃ v', vfsStep v op = some v' ∧ v'.FilesOk := by
    intro v op hv hop
    obtain ⟨v', hv', hok, -⟩ := vfsStep_spec hv hop
    exact ⟨v', hv', hok⟩
  obtain ⟨v, hrun, hv⟩ := runM_invariant hstep (vfsInit_filesOk mount) hops
  refine ⟨v, hrun, fun ino io hio => ?_⟩
  cases io with
  | nil => exact ⟨[], v, rfl, .nil _⟩
  | cons op io =>
    obtain ⟨node, hget, htype⟩ := (Option.any_eq_true _ _).1 hio.1.1.2.2.2.2
    obtain ⟨⟨-, hused⟩, rfl⟩ := ramfsGetInode_eq_some.1 hget
    exact ioRun_spec (hv.wf ino hused (of_decide_eq_true htype)) hio

/-- A file that is opened twice. -/
def twoHandles : List VfsOp :=
  [.openFile ⟨0, 0⟩ [47, 97] ⟨true, false⟩ ⟨false, true⟩, .openFile ⟨0, 0⟩ [47, 97] ⟨false, false⟩ ⟨false, true⟩]

/-- A write through one description, and a read, a seek and a write through the other. -/
def twoHandlesIo (fd fd' : Fd) : List IoOp :=
  [.write fd [1, 2, 3] (some fun _ => 0), .read fd' 2, .lseek fd' (-1) .cur, .write fd' [7, 8, 9] none]

theorem ramfs_file_refines_two_handles :
    ∃ v, runM vfsStep (vfsInit none) twoHandles = some v ∧
      ∃ replies v', ioRun v (twoHandlesIo 0 1) = some (replies, v') ∧
        ByteFile.Runs (v.byteFile 1) (twoHandlesIo 0 1) replies (v'.byteFile 1) := by
  obtain ⟨v, hrun, hrefines⟩ := ramfs_file_refines none twoHandles (by decide +kernel)
  have hadmits : (runM vfsStep (vfsInit none) twoHandles).any
      (fun v => decide (AdmitsM ioStep (IoOk 1) v (twoHandlesIo 0 1))) = true := by decide +kernel
  rw [hrun] at hadmits
  exact ⟨v, hrun, hrefines 1 (twoHandlesIo 0 1) (of_decide_eq_true hadmits)⟩

end PlantOS.Fs
