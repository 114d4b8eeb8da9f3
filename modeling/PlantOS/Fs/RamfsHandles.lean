import PlantOS.Fs.RamfsFile

/-!
# What a descriptor is for

A description holds the number of an inode. `ramfs_unlink` frees the inode at once, and the next file or
directory that is created takes the lowest free number, so a description that is still open then reads and
writes the new file (`unlinked_inode_reused`).

To say which file a description is for, a run carries two clocks that the code does not have: the step in which
each inode was taken (`born`), and the value of that clock for the inode of a description at the time it was
opened (`opened`). A description is for the file it was opened on as long as the two agree. In every run in
which no inode is taken while an open description still has its number, they agree in every state
(`handle_keeps_file`): a file that was removed can neither be read nor written.

Reference: `fs/vfs.c`, `fs/ramfs.c`.
-/

namespace PlantOS.Fs

open Run Bytes

/-- The tables, the number of steps, the step in which each inode was taken, and for each description the step
in which its file was made. -/
structure Traced where
  vfs : Vfs
  clock : ℕ
  born : ℕ → ℕ
  opened : Fd → ℕ

/-- The tables at the start. -/
def Traced.init (mount : Option (List UInt8)) : Traced := ⟨vfsInit mount, 0, fun _ => 0, fun _ => 0⟩

/-- A call. An inode that was free may be taken in this step, and a description that was free may be opened. -/
def tracedStep (s : Traced) (op : VfsOp) : Option Traced :=
  (vfsStep s.vfs op).map fun v =>
    let born := fun i => if (s.vfs.inodes i).used then s.born i else s.clock + 1
    ⟨v, s.clock + 1, born,
      fun fd => if (s.vfs.fds fd).used then s.opened fd else born (v.fds fd).inode⟩

/-- The inode is in use, and is the one that was taken in step `n`. -/
def Traced.Denotes (s : Traced) (i n : ℕ) : Prop := (s.vfs.inodes i).used = true ∧ s.born i = n

/-- The step in which an inode was taken identifies it, and a description that is in use reads and changes only
the file it was opened on. -/
structure Traced.Faithful (s : Traced) : Prop where
  unique : ∀ i j n, s.Denotes i n → s.Denotes j n → i = j
  read : ∀ fd count elsewhere r bytes v, (s.vfs.fds fd).used = true →
    vfsRead s.vfs fd count elsewhere = some ((r, bytes), v) → v.inodes = s.vfs.inodes ∧
      (bytes ≠ [] → ∃ i, s.Denotes i (s.opened fd) ∧
        bytes = slice (s.vfs.inodes i).bytes (s.vfs.fds fd).offset count)
  write : ∀ fd bytes env r v, (s.vfs.fds fd).used = true →
    (s.vfs.fds fd).offset + bytes.length < 2 ^ 31 → vfsWrite s.vfs fd bytes env = some (r, v) →
      ∀ i, v.inodes i ≠ s.vfs.inodes i → s.Denotes i (s.opened fd)

/-- The call fits, and no description in use has the number of the inode that it takes. -/
def HandleOk (s : Traced) (op : VfsOp) : Prop :=
  op.Fits s.vfs ∧ ∀ fd, (s.vfs.fds fd).used = true → op.takes s.vfs ≠ some (s.vfs.fds fd).inode

instance (s : Traced) (op : VfsOp) : Decidable (HandleOk s op) :=
  inferInstanceAs (Decidable (_ ∧ ∀ _ : Fd, _))

/-- The invariant of a run. -/
structure Traced.Inv (s : Traced) : Prop where
  files : s.vfs.FilesOk
  past : ∀ i, (s.vfs.inodes i).used = true → s.born i ≤ s.clock
  unique : ∀ i j, (s.vfs.inodes i).used = true → (s.vfs.inodes j).used = true → s.born i = s.born j → i = j
  handle : ∀ fd, (s.vfs.fds fd).used = true → (s.vfs.inodes (s.vfs.fds fd).inode).used = true →
    s.born (s.vfs.fds fd).inode = s.opened fd

/-- After `vfs_init` the root directory is the only inode. -/
theorem Traced.init_inv (mount : Option (List UInt8)) : (Traced.init mount).Inv := by
  have hused : ∀ i, ((Traced.init mount).vfs.inodes i).used = true → i = 0 := by
    intro i hi
    by_contra hne
    have hfree : ramfsInit i = Inode.zero := by rw [ramfsInit, Function.update_of_ne hne]
    have hi : (ramfsInit i).used = true := hi
    rw [hfree] at hi
    cases hi
  exact ⟨vfsInit_filesOk mount, fun _ _ => Nat.le_refl 0, fun i j hi hj _ => (hused i hi).trans (hused j hj).symm,
    fun _ hfd => by cases hfd⟩

/-- Step: an inode that is taken gets the number of the step, and no description in use has it. -/
theorem tracedStep_inv {s : Traced} (h : s.Inv) {op : VfsOp} (hok : HandleOk s op) :
    ∃ s', tracedStep s op = some s' ∧ s'.Inv := by
  obtain ⟨v, hv, hfiles, hkept, hinodes⟩ := vfsStep_spec h.files hok.1
  refine ⟨_, by rw [tracedStep, hv]; rfl, hfiles, fun i hi => ?_, fun i j hi hj hborn => ?_,
    fun fd hfd hi => ?_⟩
  · dsimp only
    split_ifs with hold
    · exact Nat.le_succ_of_le (h.past i hold)
    · exact Nat.le_refl _
  · dsimp only at hborn
    by_cases hio : (s.vfs.inodes i).used = true
    · have hpast := h.past i hio
      by_cases hjo : (s.vfs.inodes j).used = true
      · rw [if_pos hio, if_pos hjo] at hborn
        exact h.unique i j hio hjo hborn
      · rw [if_pos hio, if_neg hjo] at hborn
        omega
    · by_cases hjo : (s.vfs.inodes j).used = true
      · have hpast := h.past j hjo
        rw [if_neg hio, if_pos hjo] at hborn
        omega
      · -- Both are new, and a step takes one inode only.
        have hi' := (hinodes i hi).resolve_left hio
        have hj' := (hinodes j hj).resolve_left hjo
        rw [hi', Option.some_inj] at hj'
        exact hj'
  · dsimp only at hfd hi ⊢
    by_cases hold : (s.vfs.fds fd).used = true
    · rw [hkept fd hold hfd] at hi ⊢
      rw [if_pos hold]
      -- The inode of an open description is not taken.
      have hio := (hinodes _ hi).resolve_right (hok.2 fd hold)
      rw [if_pos hio]
      exact h.handle fd hold hio
    · rw [if_neg hold]

/-- What the invariant says about reads and writes through a description. -/
theorem Traced.Inv.faithful {s : Traced} (h : s.Inv) : s.Faithful where
  unique := by
    rintro i j n ⟨hi, rfl⟩ ⟨hj, hborn⟩
    exact h.unique i j hi hj hborn.symm
  read fd count elsewhere r bytes v hused hread := by
    cases hat : s.vfs.fileAt fd with
    | none =>
      rw [vfsRead_of_not (h.files.fat fd) (.inr hat), Option.some_inj] at hread
      obtain ⟨hreply, rfl⟩ := Prod.mk.inj hread
      obtain ⟨-, rfl⟩ := Prod.mk.inj hreply
      exact ⟨rfl, fun hne => absurd rfl hne⟩
    | some node =>
      obtain ⟨-, hget, -⟩ := Vfs.fileAt_eq_some.1 hat
      obtain ⟨⟨-, hnode⟩, rfl⟩ := ramfsGetInode_eq_some.1 hget
      rw [vfsRead_of_fileAt hused hat (h.files.fileAt hat), Option.some_inj] at hread
      -- At the end of the file the read returns no bytes.
      split_ifs at hread
      · obtain ⟨hreply, rfl⟩ := Prod.mk.inj hread
        obtain ⟨-, rfl⟩ := Prod.mk.inj hreply
        exact ⟨rfl, fun hne => absurd rfl hne⟩
      · obtain ⟨hreply, rfl⟩ := Prod.mk.inj hread
        obtain ⟨-, rfl⟩ := Prod.mk.inj hreply
        exact ⟨rfl, fun _ => ⟨_, ⟨hnode, h.handle fd hused hnode⟩, rfl⟩⟩
  write fd bytes env r v hused hfits hwrite i hi := by
    cases hat : s.vfs.fileAt fd with
    | none =>
      rw [vfsWrite_of_not (h.files.fat fd) (.inr hat), Option.some_inj] at hwrite
      obtain ⟨-, rfl⟩ := Prod.mk.inj hwrite
      exact absurd rfl hi
    | some node =>
      obtain ⟨-, hget, -⟩ := Vfs.fileAt_eq_some.1 hat
      obtain ⟨⟨-, hnode⟩, rfl⟩ := ramfsGetInode_eq_some.1 hget
      obtain ⟨-, hfail⟩ | ⟨node', hdone, -⟩ :=
        vfsWrite_of_fileAt hused hat (h.files.fileAt hat) hfits env
      · rw [hfail, Option.some_inj] at hwrite
        obtain ⟨-, rfl⟩ := Prod.mk.inj hwrite
        exact absurd rfl hi
      · rw [hdone, Option.some_inj] at hwrite
        obtain ⟨-, rfl⟩ := Prod.mk.inj hwrite
        -- A write changes the inode of its description only.
        have hii : i = (s.vfs.fds fd).inode := by
          by_contra hne
          exact hi (Vfs.inodes_setInode_of_ne _ hne _)
        exact hii ▸ ⟨hnode, h.handle fd hused hnode⟩

/-- In every run in which no inode is taken while a description has its number, a description reads and changes
only the file it was opened on. -/
theorem handle_keeps_file (mount : Option (List UInt8)) (ops : List VfsOp)
    (hops : AdmitsM tracedStep HandleOk (.init mount) ops) :
    ∃ s, runM tracedStep (.init mount) ops = some s ∧ s.Faithful := by
  obtain ⟨s, hrun, hinv⟩ := runM_invariant (fun _ _ h => tracedStep_inv h) (Traced.init_inv mount) hops
  exact ⟨s, hrun, hinv.faithful⟩

/-- A file that is removed while it is open, and another that is created after it has been closed. -/
theorem handle_keeps_file_removed :
    ∃ s, runM tracedStep (.init none) [.openFile ⟨0, 0⟩ [47, 97] ⟨true, false⟩ ⟨false, true⟩,
      .unlink ⟨0, 0⟩ [47, 97], .read 0 1, .close 0,
      .openFile ⟨0, 0⟩ [47, 98] ⟨true, false⟩ ⟨false, true⟩] = some s ∧ s.Faithful :=
  handle_keeps_file none _ (by decide +kernel)

/-- `/a` is created and removed, and `/b` is created. -/
def reuseOps : List VfsOp :=
  [.openFile ⟨0, 0⟩ [47, 97] ⟨true, false⟩ ⟨false, true⟩, .unlink ⟨0, 0⟩ [47, 97],
    .openFile ⟨0, 0⟩ [47, 98] ⟨true, false⟩ ⟨false, true⟩]

/-- A write through the description of `/a` changes `/b`. -/
theorem unlinked_inode_reused :
    AdmitsM tracedStep (fun s op => op.Fits s.vfs) (.init none) reuseOps ∧
      ∃ s, runM tracedStep (.init none) reuseOps = some s ∧ ¬s.Faithful := by
  refine ⟨by decide +kernel, ?_⟩
  have hstate : (runM tracedStep (.init none) reuseOps).any (fun s => decide ((s.vfs.fds 0).used = true ∧
      (s.vfs.fds 0).offset = 0 ∧ s.born 1 ≠ s.opened 0 ∧
      (vfsWrite s.vfs 0 [1] ⟨some fun _ => 0, -1⟩).any
        (fun r => (r.2.inodes 1).size ≠ (s.vfs.inodes 1).size) = true)) = true := by decide +kernel
  obtain ⟨s, hrun, hs⟩ := (Option.any_eq_true _ _).1 hstate
  obtain ⟨hused, hoffset, hborn, hchanged⟩ := of_decide_eq_true hs
  obtain ⟨⟨r, v⟩, hwrite, hsize⟩ := (Option.any_eq_true _ _).1 hchanged
  refine ⟨s, hrun, fun hfaithful => hborn (hfaithful.write 0 [1] _ r v hused ?_ hwrite 1 fun heq => ?_).2⟩
  · rw [hoffset]
    decide
  · exact of_decide_eq_true hsize (congrArg Inode.size heq)

end PlantOS.Fs
