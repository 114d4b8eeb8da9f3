import PlantOS.Common.Run
import PlantOS.Fs.Vfs

/-!
# Write permission

A task opens, writes, seeks, duplicates and closes. `vfs_open` checks the permission to write if the caller
asks for a new or an empty file, and the permission to read otherwise; a descriptor does not record which of
them was checked, and `vfs_write` checks nothing. So a task can write to every file that it may read
(`readable_file_overwritten`). What holds is that the other calls leave a file alone that the task may not
write, and that a write changes no file but the one it is for (`denied_file_kept`).

Reference: `fs/vfs.c`, `cpu/syscall.c`.
-/

namespace PlantOS.Fs

open Word Run

/-! ## Runs of a task -/

/-- The tables as one task sees them. -/
structure TaskFiles where
  vfs : Vfs
  ofd : OfdTable

/-- The calls of a task on its descriptors. -/
inductive FileOp
  | openFile (path : List UInt8) (flags : ℕ) (env : OpenEnv)
  | write (procFd : ℤ) (bytes : List UInt8) (env : WriteEnv)
  | lseek (procFd offset : ℤ) (whence : Whence)
  | dup2 (oldPfd newPfd : ℤ)
  | close (procFd : ℤ)

/-- A call of a task. -/
def fileCall (cred : Cred) (s : TaskFiles) : FileOp → Option FileCall
  | .openFile path flags env => sysOpen s.vfs s.ofd cred path flags env
  | .write procFd bytes env => sysWrite s.vfs s.ofd procFd bytes env
  | .lseek procFd offset whence => some (sysLseek s.vfs s.ofd procFd offset whence)
  | .dup2 oldPfd newPfd => some (sysDup2 s.vfs s.ofd oldPfd newPfd)
  | .close procFd => some (sysClose s.vfs s.ofd procFd)

/-- A step of a task. -/
def fileStep (cred : Cred) (s : TaskFiles) (op : FileOp) : Option TaskFiles :=
  (fileCall cred s op).map fun r => ⟨r.vfs, r.ofd⟩

/-- The file in memory that an open description is for. -/
def Vfs.fileAt (v : Vfs) (fd : Fd) : Option Inode :=
  if (v.fds fd).fatFd.isSome then none
  else (ramfsGetInode v.inodes (v.fds fd).inode).filter (·.type = .file)

/-- A write through an open description stays inside the buffer of the file. -/
def WriteFits (v : Vfs) (fd : Fd) (node : Inode) (bytes : List UInt8) : Prop :=
  (v.fds fd).offset + bytes.length < 2 ^ 31 ∧ node.size ≤ node.capacity

/-- The condition on a step: a write is for a file that the task may write, and neither a write nor the
creation of a file overruns a buffer of the kernel. -/
def WriteOk (cred : Cred) (s : TaskFiles) : FileOp → Prop
  | .openFile path flags _ => flags.testBit 6 → onFat s.vfs path = false → splitFits path
  | .write procFd bytes _ => ∀ fd ∈ (procToOfd s.ofd procFd).fd?, ∀ node ∈ s.vfs.fileAt fd,
      vfsCheckPerm cred node 2 ∧ WriteFits s.vfs fd node bytes
  | _ => True

instance (v : Vfs) (fd : Fd) (node : Inode) (bytes : List UInt8) : Decidable (WriteFits v fd node bytes) :=
  inferInstanceAs (Decidable (_ ∧ _))

instance (cred : Cred) (s : TaskFiles) : (op : FileOp) → Decidable (WriteOk cred s op)
  | .openFile .. => inferInstanceAs (Decidable (_ → _ → _))
  | .write .. => inferInstanceAs (Decidable (∀ fd ∈ _, ∀ node ∈ _, _ ∧ _))
  | .lseek .. | .dup2 .. | .close .. => inferInstanceAs (Decidable True)

/-! ## The calls that write to no file -/

theorem inodes_allocFd {v v' : Vfs} {fd : Fd} (h : allocFd v = some (fd, v')) : v'.inodes = v.inodes := by
  obtain ⟨_, rfl⟩ := allocFd_some h
  rfl

@[simp] theorem inodes_closeFat (v : Vfs) (fd : Fd) : (closeFat v fd).inodes = v.inodes := by
  unfold closeFat; split <;> rfl

@[simp] theorem inodes_closePipeEnd (v : Vfs) (fd : Fd) : (closePipeEnd v fd).inodes = v.inodes := by
  unfold closePipeEnd; split <;> rfl

@[simp] theorem inodes_vfsClose (v : Vfs) (fd : Fd) : (vfsClose v fd).inodes = v.inodes := by
  unfold vfsClose; split_ifs <;> simp

@[simp] theorem inodes_vfsCloseFd (v : Vfs) (fd : Fd) : (vfsCloseFd v fd).inodes = v.inodes := by
  unfold vfsCloseFd; split_ifs <;> simp

@[simp] theorem inodes_vfsFdAddref (v : Vfs) (fd : Fd) : (vfsFdAddref v fd).inodes = v.inodes := by
  unfold vfsFdAddref; split_ifs <;> rfl

@[simp] theorem inodes_closeOfd (v : Vfs) (x : Ofd) : (closeOfd v x).inodes = v.inodes := by
  cases x <;> simp [closeOfd]

@[simp] theorem inodes_addrefOfd (v : Vfs) (x : Ofd) : (addrefOfd v x).inodes = v.inodes := by
  cases x <;> simp [addrefOfd]

@[simp] theorem inodes_sysClose (v : Vfs) (t : OfdTable) (procFd : ℤ) :
    (sysClose v t procFd).vfs.inodes = v.inodes := by
  unfold sysClose
  split
  · dsimp only; split <;> simp
  · rfl

@[simp] theorem inodes_sysDup2 (v : Vfs) (t : OfdTable) (oldPfd newPfd : ℤ) :
    (sysDup2 v t oldPfd newPfd).vfs.inodes = v.inodes := by
  unfold sysDup2
  split
  · dsimp only
    split_ifs
    · rfl
    · simp
  · rfl

@[simp] theorem inodes_vfsLseek (v : Vfs) (fd : Fd) (offset : ℤ) (whence : Whence) :
    (vfsLseek v fd offset whence).2.inodes = v.inodes := by
  unfold vfsLseek
  split_ifs
  · rfl
  · split
    · rfl
    · split_ifs
      · rfl
      · cases whence <;> rfl

@[simp] theorem inodes_sysLseek (v : Vfs) (t : OfdTable) (procFd offset : ℤ) (whence : Whence) :
    (sysLseek v t procFd offset whence).vfs.inodes = v.inodes := by
  unfold sysLseek
  split <;> simp

/-! ## Opening a file -/

section Create

variable {t : Inodes} {ino : ℕ} (hused : (t ino).used = true) (hfile : (t ino).type = .file)

include hused in
theorem allocInode_kept {new : ℕ} {t' : Inodes} (h : allocInode t = some (new, t')) :
    new ≠ ino ∧ t' ino = t ino := by
  simp only [allocInode, Option.map_eq_some_iff, Prod.mk.injEq] at h
  obtain ⟨i, hi, rfl, rfl⟩ := h
  have hfree := List.find?_some hi
  have hne : i ≠ ino := by
    rintro rfl
    simp [hused] at hfree
  exact ⟨hne, Function.update_of_ne hne.symm _ _⟩

include hfile in
theorem dirAddEntry_kept {dir child : ℕ} {name : List UInt8} {memory : Bool} {t' : Inodes}
    (h : dirAddEntry t dir name child memory = some t') : t' ino = t ino := by
  unfold dirAddEntry at h
  dsimp only at h
  split_ifs at h with hdir _ _
  all_goals
    cases h
    -- the directory is not the file
    have hne : ino ≠ dir := by
      rintro rfl
      simp [hfile] at hdir
    exact Function.update_of_ne hne _ _

include hused hfile in
/-- A new node is not the file, and leaves it as it is. -/
theorem createNode_kept (cred : Cred) (parent : ℕ) (name : List UInt8) (type : NodeType) (mode : ℕ)
    (memory : Bool) : (createNode t cred parent name type mode memory).1 ≠ some ino ∧
      (createNode t cred parent name type mode memory).2 ino = t ino := by
  unfold createNode
  split
  · exact ⟨by simp, rfl⟩
  · next new t₁ halloc =>
    obtain ⟨hne, hkept⟩ := allocInode_kept hused halloc
    set t₂ := Function.update t₁ new
      { t₁ new with type := type, mode := mode, uid := cred.uid, gid := cred.gid } with ht₂
    have hkept₂ : t₂ ino = t ino := by rw [ht₂, Function.update_of_ne hne.symm, hkept]
    dsimp only
    split
    · exact ⟨by simp, (Function.update_of_ne hne.symm _ _).trans hkept₂⟩
    · next hadd =>
      have hkept₃ := dirAddEntry_kept (by rw [hkept₂, hfile]) hadd
      exact ⟨fun h => hne (Option.some.inj h), hkept₃.trans hkept₂⟩

include hused hfile in
theorem ramfsCreateFile_kept {path : List UInt8} (cred : Cred) (memory : Bool) (hfits : splitFits path)
    (hnew : ramfsResolvePath t path = none) :
    ∃ r, ramfsCreateFile t cred path memory = some r ∧ r.1 ≠ some ino ∧ r.2 ino = t ino := by
  unfold ramfsCreateFile
  rw [if_pos hfits, hnew]
  split_ifs
  · exact ⟨_, rfl, by simp, rfl⟩
  · split
    · exact ⟨_, rfl, by simp, rfl⟩
    · next parent _ => exact ⟨_, rfl, createNode_kept hused hfile cred parent _ _ _ memory⟩

end Create

/-- Who may read and write may write. -/
theorem vfsCheckPerm_write {cred : Cred} {node : Inode} (h : vfsCheckPerm cred node 6 = true) :
    vfsCheckPerm cred node 2 = true := by
  by_cases hroot : cred.uid = 0
  · rw [vfsCheckPerm, if_pos hroot]
  · rw [vfsCheckPerm, if_neg hroot, decide_eq_true_eq] at h ⊢
    generalize (if cred.uid = node.uid then _ else _ : ℕ) = bits at h ⊢
    calc bits &&& 2 = bits &&& (6 &&& 2) := rfl
      _ = bits &&& 6 &&& 2 := (Nat.and_assoc ..).symm
      _ = 2 := by rw [h]; rfl

section Open

variable {v : Vfs} {ino : ℕ} {cred : Cred} (hused : ramfsGetInode v.inodes ino = some (v.inodes ino))
  (hfile : (v.inodes ino).type = .file) (hden : vfsCheckPerm cred (v.inodes ino) 2 = false)
  {path : List UInt8} {flags : OpenFlags}

include hused hfile hden in
/-- A file that the task may not write is not opened for truncation. -/
theorem vfsOpenInode_kept (memory : Bool) (hfits : flags.create → splitFits path) :
    ∃ r, vfsOpenInode v cred path flags memory = some r ∧ r.2 ino = v.inodes ino ∧
      (flags.trunc = true → r.1 ≠ some ino) := by
  have hin : (v.inodes ino).used = true := by
    unfold ramfsGetInode at hused
    split_ifs at hused with h
    exact h.2
  unfold vfsOpenInode
  split
  · next hnew =>
    split_ifs with hc
    · obtain ⟨r, hr, hne, hkept⟩ := ramfsCreateFile_kept hin hfile cred memory (hfits hc) hnew
      exact ⟨r, hr, hkept, fun _ => hne⟩
    · exact ⟨_, rfl, rfl, by simp⟩
  · next found _ =>
    split
    · next hgone =>
      refine ⟨_, rfl, rfl, fun _ h => ?_⟩
      rw [Option.some.inj h, hused] at hgone
      cases hgone
    · next node hnode =>
      by_cases hperm : vfsCheckPerm cred node (if flags.create || flags.trunc then 6 else 4) = true
      · rw [if_pos hperm]
        refine ⟨_, rfl, rfl, fun htrunc h => ?_⟩
        -- the permission to write was checked
        rw [htrunc, Bool.or_true, if_pos rfl] at hperm
        rw [Option.some.inj h, hused, Option.some.injEq] at hnode
        rw [← hnode] at hperm
        simp [vfsCheckPerm_write hperm] at hden
      · rw [if_neg hperm]
        exact ⟨_, rfl, rfl, by simp⟩

theorem vfsTruncate_kept {ino' : ℕ} (hne : ino' ≠ ino) : (vfsTruncate v ino').inodes ino = v.inodes ino := by
  unfold vfsTruncate
  split
  · rfl
  · split_ifs
    · exact Function.update_of_ne hne.symm _ _
    · rfl

theorem vfsOpenFat_inodes (env : OpenEnv) : (vfsOpenFat v env).2.inodes = v.inodes := by
  unfold vfsOpenFat
  split_ifs
  · split
    · rfl
    · split
      · rfl
      · next halloc =>
        have hkept := inodes_allocFd halloc
        exact hkept
  · rfl

include hused hfile hden in
theorem vfsOpen_kept (env : OpenEnv) (hfits : flags.create → onFat v path = false → splitFits path) :
    ∃ r, vfsOpen v cred path flags env = some r ∧ r.2.inodes ino = v.inodes ino := by
  unfold vfsOpen
  by_cases hfat : onFat v path = true
  · rw [if_pos hfat]
    exact ⟨_, rfl, by rw [vfsOpenFat_inodes]⟩
  · rw [if_neg hfat]
    obtain ⟨r, hr, hkept, htrunc⟩ := vfsOpenInode_kept hused hfile hden env.memory
      fun hc => hfits hc (by simpa using hfat)
    rw [hr]
    refine ⟨_, rfl, ?_⟩
    dsimp only
    split
    · exact hkept
    · next ino' hino' =>
      split
      · exact hkept
      · next fd v' halloc =>
        have hv' : v'.inodes ino = v.inodes ino := (congrFun (inodes_allocFd halloc) ino).trans hkept
        split_ifs with ht
        · have hne : ino' ≠ ino := fun h => htrunc ht (h ▸ hino')
          exact (vfsTruncate_kept hne).trans hv'
        · exact hv'

include hused hfile hden in
theorem sysOpen_kept (t : OfdTable) (bits : ℕ) (env : OpenEnv)
    (hfits : bits.testBit 6 → onFat v path = false → splitFits path) :
    ∃ r, sysOpen v t cred path bits env = some r ∧ r.vfs.inodes ino = v.inodes ino := by
  obtain ⟨r, hr, hkept⟩ := @vfsOpen_kept v ino cred hused hfile hden path
    ⟨bits.testBit 6, bits.testBit 9⟩ env hfits
  unfold sysOpen
  rw [hr]
  refine ⟨_, rfl, ?_⟩
  dsimp only
  split
  · exact hkept
  · split
    · rw [inodes_vfsClose, hkept]
    · exact hkept

end Open

/-! ## Writing -/

section Write

variable {v : Vfs} {fd : Fd} {node : Inode} {bytes : List UInt8}

/-- A write that fits a buffer changes the inode of the description only. -/
theorem storeBytes_kept {needed ino : ℕ} (hfits : (v.fds fd).offset + bytes.length ≤ node.capacity)
    (hne : (v.fds fd).inode ≠ ino) :
    ∃ r, storeBytes v fd node bytes needed = some r ∧ r.2.inodes ino = v.inodes ino := by
  unfold storeBytes
  rw [if_pos (Or.inr hfits)]
  exact ⟨_, rfl, Function.update_of_ne hne.symm _ _⟩

/-- The new buffer of a file has room for what is written, and for what was in the old one. -/
theorem growBuffer_fits (h : WriteFits v fd node bytes)
    (hgrow : (v.fds fd).offset + bytes.length > node.capacity) (junk : ℕ → UInt8) :
    ∃ node', growBuffer node ((v.fds fd).offset + bytes.length) junk = some node' ∧
      (v.fds fd).offset + bytes.length ≤ node'.capacity := by
  obtain ⟨hsmall, hsize⟩ := h
  have hcap : wrap 32 (((v.fds fd).offset + bytes.length : ℕ) * 2) =
      ((v.fds fd).offset + bytes.length) * 2 := wrap_of_lt (by push_cast; rfl) (by omega)
  unfold growBuffer
  rw [hcap, if_neg (by omega)]
  refine ⟨_, rfl, ?_⟩
  dsimp only
  omega

theorem vfsWrite_kept {ino : ℕ} (env : WriteEnv)
    (hok : ∀ node, v.fileAt fd = some node → WriteFits v fd node bytes ∧ (v.fds fd).inode ≠ ino) :
    ∃ r, vfsWrite v fd bytes env = some r ∧ r.2.inodes ino = v.inodes ino := by
  unfold vfsWrite
  by_cases hu : (v.fds fd).used = true
  · rw [if_neg (not_not.mpr hu)]
    by_cases hfat : (v.fds fd).fatFd.isSome = true
    · rw [if_pos hfat]
      exact ⟨_, rfl, rfl⟩
    · rw [if_neg hfat]
      split
      · exact ⟨_, rfl, rfl⟩
      · next node hnode =>
        by_cases hfile : node.type = .file
        · obtain ⟨hfits, hne⟩ := hok node (by simp [Vfs.fileAt, hfat, hnode, hfile])
          have hlen : wrap 32 bytes.length = bytes.length := wrap_of_lt rfl (by have := hfits.1; omega)
          have hneed : wrap 32 ((v.fds fd).offset + wrap 32 bytes.length) =
              (v.fds fd).offset + bytes.length :=
            wrap_of_lt (by rw [hlen]; push_cast; rfl) (by have := hfits.1; omega)
          rw [if_neg (not_not.mpr hfile), hneed]
          dsimp only
          split_ifs with hgrow
          · split
            · exact ⟨_, rfl, rfl⟩
            · next junk _ =>
              obtain ⟨node', hnode', hroom⟩ := growBuffer_fits hfits hgrow junk
              rw [hnode']
              exact storeBytes_kept hroom hne
          · exact storeBytes_kept (by omega) hne
        · rw [if_pos hfile]
          exact ⟨_, rfl, rfl⟩
  · rw [if_pos hu]
    exact ⟨_, rfl, rfl⟩

theorem sysWrite_kept {t : OfdTable} {procFd : ℤ} {ino : ℕ} (env : WriteEnv)
    (hok : ∀ fd node, procToOfd t procFd = .file fd → v.fileAt fd = some node →
      WriteFits v fd node bytes ∧ (v.fds fd).inode ≠ ino) :
    ∃ r, sysWrite v t procFd bytes env = some r ∧ r.vfs.inodes ino = v.inodes ino := by
  unfold sysWrite
  split
  iterate 3 exact ⟨_, rfl, rfl⟩
  next fd hfd =>
    split_ifs
    · exact ⟨_, rfl, rfl⟩
    · obtain ⟨r, hr, hkept⟩ := vfsWrite_kept env (hok fd · hfd)
      rw [hr]
      exact ⟨_, rfl, hkept⟩

end Write

/-! ## Files that a task may not write -/

/-- The inode `ino` is the file `node`. -/
def FileIs (ino : ℕ) (node : Inode) (s : TaskFiles) : Prop :=
  ramfsGetInode s.vfs.inodes ino = some node

theorem FileIs.eq {ino : ℕ} {node : Inode} {s : TaskFiles} (h : FileIs ino node s) :
    s.vfs.inodes ino = node := by
  unfold FileIs ramfsGetInode at h
  split_ifs at h
  exact Option.some.inj h

theorem FileIs.of_eq {ino : ℕ} {node : Inode} {s s' : TaskFiles} (h : FileIs ino node s)
    (hkept : s'.vfs.inodes ino = s.vfs.inodes ino) : FileIs ino node s' := by
  unfold FileIs ramfsGetInode at h ⊢
  rwa [hkept]

/-- Step: a file that the task may not write is left as it is. -/
theorem fileStep_kept {cred : Cred} {s : TaskFiles} {ino : ℕ} {node : Inode} (op : FileOp)
    (hfile : node.type = .file) (hden : vfsCheckPerm cred node 2 = false)
    (hnode : FileIs ino node s) (hok : WriteOk cred s op) :
    ∃ s', fileStep cred s op = some s' ∧ FileIs ino node s' := by
  suffices h : ∃ r, fileCall cred s op = some r ∧ r.vfs.inodes ino = s.vfs.inodes ino by
    obtain ⟨r, hr, hkept⟩ := h
    exact ⟨⟨r.vfs, r.ofd⟩, by rw [fileStep, hr]; rfl, hnode.of_eq hkept⟩
  have heq := hnode.eq
  cases op with
  | openFile path flags env =>
    subst heq
    exact sysOpen_kept hnode hfile hden s.ofd flags env hok
  | write procFd bytes env =>
    refine sysWrite_kept env fun fd node' hfd hat => ?_
    obtain ⟨hperm, hfits⟩ := hok fd (by rw [hfd]; rfl) node' hat
    refine ⟨hfits, fun hino => ?_⟩
    -- the file that is written is not the one that the task may not write
    have hsame : node' = node := by
      have hnode' := hnode
      rw [FileIs] at hnode'
      unfold Vfs.fileAt at hat
      split_ifs at hat
      rw [hino, hnode', Option.filter_eq_some_iff, Option.some.injEq] at hat
      exact hat.1.symm
    rw [hsame, hden] at hperm
    cases hperm
  | lseek procFd offset whence => exact ⟨_, rfl, by rw [inodes_sysLseek]⟩
  | dup2 oldPfd newPfd => exact ⟨_, rfl, by rw [inodes_sysDup2]⟩
  | close procFd => exact ⟨_, rfl, by rw [inodes_sysClose]⟩

/-- A task whose writes are for files that it may write leaves every file as it is that it may not write: its
bytes, its size, its mode and its owner. -/
theorem denied_file_kept (cred : Cred) (s : TaskFiles) (ops : List FileOp) (ino : ℕ) (node : Inode)
    (hnode : ramfsGetInode s.vfs.inodes ino = some node) (hfile : node.type = .file)
    (hden : vfsCheckPerm cred node 2 = false)
    (hok : AdmitsM (fileStep cred) (WriteOk cred) s ops) :
    ∃ s', runM (fileStep cred) s ops = some s' ∧ s'.vfs.inodes ino = node := by
  have hstep : ∀ s op, FileIs ino node s → WriteOk cred s op →
      ∃ s', fileStep cred s op = some s' ∧ FileIs ino node s' :=
    fun _ op hs hop => fileStep_kept op hfile hden hs hop
  obtain ⟨s', hs', hnode'⟩ := runM_invariant hstep hnode hok
  exact ⟨s', hs', hnode'.eq⟩

/-! ## A file that a task may only read -/

/-- The file `/a` with the byte 65. It belongs to root, and the others may read it. -/
def rootFile : Inode := ⟨.file, 1, some fun _ => 65, 256, true, 0, 0, 0o644, []⟩

/-- The file system with this file, as a new process sees it. -/
def rootFiles : TaskFiles :=
  let root := { ramfsInit 0 with size := 64, capacity := 512, entries := [⟨[97], 1⟩] }
  ⟨{ vfsInit none with inodes := Function.update (Function.update ramfsInit 0 root) 1 rootFile }, newOfdTable⟩

/-- A task that is not root. -/
def user : Cred := ⟨1000, 1000⟩

/-- The task may not write the file. It opens it without flags and writes a byte: the byte is in the file. -/
theorem readable_file_overwritten :
    ramfsGetInode rootFiles.vfs.inodes 1 = some rootFile ∧ rootFile.data.map (· 0) = some 65 ∧
      vfsCheckPerm user rootFile 2 = false ∧
      (runM (fileStep user) rootFiles [.openFile [47, 97] 0 ⟨false, true⟩, .write 3 [88] ⟨none, 0⟩]).map
          (fun s => ((s.vfs.inodes 1).data.map (· 0), (s.vfs.inodes 1).mode, (s.vfs.inodes 1).uid)) =
        some (some 88, 0o644, 0) :=
  ⟨rfl, rfl, by decide, by decide +kernel⟩

/-- The task creates the file `/b`, opens `/a`, writes to `/b`, moves in `/a`, and duplicates and closes its
descriptors. -/
def ownFileOps : List FileOp :=
  [.openFile [47, 98] 0x40 ⟨false, true⟩, .openFile [47, 97] 0 ⟨false, true⟩,
    .write 3 [88, 89] ⟨some fun _ => 7, 0⟩, .lseek 4 1 .set, .dup2 3 5, .close 3]

theorem denied_file_kept_own :
    ∃ s', runM (fileStep user) rootFiles ownFileOps = some s' ∧ s'.vfs.inodes 1 = rootFile :=
  denied_file_kept user rootFiles ownFileOps 1 rootFile rfl rfl (by decide) (by decide +kernel)

end PlantOS.Fs
