import PlantOS.Fs.ProcessFiles
import PlantOS.Fs.RamfsFile

/-!
# Using an end of a pipe the wrong way round

`SYS_READ` and `SYS_WRITE` try `pipe_fd_read` and `pipe_fd_write` first, which return -2 for the other end of a
pipe, and the calls then go on with `vfs_read` and `vfs_write`. These use the field `inode` of the open
description, which `alloc_fd` does not set: it is what the description had before it became the end of a pipe.
So a write to the read end of a pipe writes to a file that was open before (`pipe_write_reaches_file`). The call
fails as it should exactly if that inode is no file in use (`pipe_wrong_way`).

Reference: `cpu/syscall.c`, `fs/pipe.c`, `fs/vfs.c`.
-/

namespace PlantOS.Fs

open Run

/-! ## Calls that read and write -/

/-- The calls of the processes, with those that read and write. -/
inductive DescOp
  | proc (op : ProcOp)
  | read (i : Fin 64) (procFd : ℤ) (count : ℕ) (elsewhere : ℤ × List UInt8)
  | write (i : Fin 64) (procFd : ℤ) (bytes : List UInt8) (env : WriteEnv)

/-- The tables after a call. -/
def descStep (s : Files) : DescOp → Option Files
  | .proc op => procStep s op
  | .read i procFd count elsewhere =>
    match s.procs i with
    | none => some s
    | some t => (sysRead s.vfs t procFd count elsewhere).map fun r => s.after i r.2
  | .write i procFd bytes env =>
    match s.procs i with
    | none => some s
    | some t => (sysWrite s.vfs t procFd bytes env).map (s.after i)

/-! ## An end of a pipe is on no FAT volume -/

/-- An open description is not the end of a pipe and on the FAT volume. -/
def Vfs.PipesApart (v : Vfs) : Prop := ∀ fd, (v.fds fd).pipe.isSome → (v.fds fd).fatFd = none

namespace Vfs.PipesApart

variable {v : Vfs}

theorem congr (h : v.PipesApart) {v' : Vfs} (hfds : v'.fds = v.fds) : v'.PipesApart := by
  intro fd
  rw [hfds]
  exact h fd

theorem setFd (h : v.PipesApart) (fd : Fd) {f : VfsFd} (hf : f.pipe.isSome → f.fatFd = none) :
    (v.setFd fd f).PipesApart := by
  intro fd'
  by_cases hfd : fd' = fd
  · rw [hfd, Vfs.fds_setFd_self]
    exact hf
  · rw [Vfs.fds_setFd_of_ne _ hfd]
    exact h fd'

theorem alloc (h : v.PipesApart) {u u' : Vfs} {fd : Fd} (halloc : allocFd u = some (fd, u'))
    (hfds : u.fds = v.fds) :
    u'.PipesApart ∧ (u'.fds fd).pipe = none ∧ (u'.fds fd).fatFd = none := by
  obtain ⟨-, rfl⟩ := allocFd_some halloc
  refine ⟨(h.congr hfds).setFd fd (fun hpipe => by cases hpipe), ?_⟩
  rw [Vfs.fds_setFd_self]
  exact ⟨rfl, rfl⟩

theorem closeFat (h : v.PipesApart) (fd : Fd) : (Fs.closeFat v fd).PipesApart := by
  unfold Fs.closeFat
  split
  · exact h
  · exact (h.congr rfl).setFd fd fun _ => rfl

theorem closePipeEnd (h : v.PipesApart) (fd : Fd) : (Fs.closePipeEnd v fd).PipesApart := by
  unfold Fs.closePipeEnd
  split
  · exact h
  · exact (h.congr rfl).setFd fd fun hpipe => by cases hpipe

/-- A description is released or one reference to it is. -/
theorem release (h : v.PipesApart) (fd : Fd) (refcount : ℕ) (used : Bool) :
    (v.setFd fd { v.fds fd with refcount := refcount, used := used }).PipesApart :=
  h.setFd fd (h fd)

theorem vfsClose (h : v.PipesApart) (fd : Fd) : (Fs.vfsClose v fd).PipesApart := by
  unfold Fs.vfsClose
  split
  · exact h
  · split
    · exact h.release fd _ _
    · exact (h.closeFat fd).release fd _ _

theorem vfsCloseFd (h : v.PipesApart) (fd : Fd) : (Fs.vfsCloseFd v fd).PipesApart := by
  unfold Fs.vfsCloseFd
  split
  · exact h
  · split
    · exact h.release fd _ _
    · exact ((h.closePipeEnd fd).closeFat fd).release fd _ _

theorem pipeFdClose (h : v.PipesApart) (fd : Fd) : (Fs.pipeFdClose v fd).PipesApart := by
  unfold Fs.pipeFdClose
  split
  · exact h
  · split
    · exact h.release fd _ _
    · exact (h.closePipeEnd fd).release fd _ _

theorem vfsFdAddref (h : v.PipesApart) (fd : Fd) : (Fs.vfsFdAddref v fd).PipesApart := by
  unfold Fs.vfsFdAddref
  split
  · exact h.release fd _ _
  · exact h

theorem closeOfd (h : v.PipesApart) (x : Ofd) : (Fs.closeOfd v x).PipesApart := by
  cases x with
  | file fd => exact h.vfsCloseFd fd
  | none | consoleIn | consoleOut => exact h

theorem addrefOfd (h : v.PipesApart) (x : Ofd) : (Fs.addrefOfd v x).PipesApart := by
  cases x with
  | file fd => exact h.vfsFdAddref fd
  | none | consoleIn | consoleOut => exact h

theorem vfsOpenFat (h : v.PipesApart) (env : OpenEnv) : (Fs.vfsOpenFat v env).2.PipesApart := by
  unfold Fs.vfsOpenFat
  split
  · split
    · exact h
    · split
      · exact h
      · rename_i fd v' halloc
        obtain ⟨h', hpipe, -⟩ := h.alloc halloc rfl
        refine h'.setFd fd fun hsome => ?_
        rw [hpipe] at hsome
        cases hsome
  · exact h

theorem vfsOpen (h : v.PipesApart) {cred : Cred} {path : List UInt8} {flags : OpenFlags} {env : OpenEnv}
    {r : Option Fd × Vfs} (hopen : Fs.vfsOpen v cred path flags env = some r) : r.2.PipesApart := by
  unfold Fs.vfsOpen at hopen
  split at hopen
  · rw [← Option.some.inj hopen]
    exact h.vfsOpenFat env
  · obtain ⟨⟨found, t⟩, -, rfl⟩ := Option.map_eq_some_iff.1 hopen
    cases found with
    | none => exact h.congr rfl
    | some ino =>
      dsimp only
      split
      · exact h.congr rfl
      · rename_i fd v' halloc
        obtain ⟨h', -, -⟩ := h.alloc halloc rfl
        have hset : (v'.setFd fd { v'.fds fd with inode := ino }).PipesApart := h'.setFd fd (h' fd)
        split
        · exact hset.congr (vfsTruncate_fds ..)
        · exact hset

theorem pipeCreateFds (h : v.PipesApart) : (Fs.pipeCreateFds v).2.PipesApart := by
  unfold Fs.pipeCreateFds
  split
  · exact h
  · split
    · exact h.congr rfl
    · rename_i p hp _ r v₁ hr
      obtain ⟨h₁, -, hfat₁⟩ := h.alloc hr rfl
      split
      · exact (h₁.congr rfl).setFd r (h₁ r)
      · rename_i w v₂ hw
        obtain ⟨h₂, -, hfat₂⟩ := h₁.alloc hw rfl
        obtain ⟨hfree, rfl⟩ := allocFd_some hw
        have hne : w ≠ r := by
          rintro rfl
          obtain ⟨-, rfl⟩ := allocFd_some hr
          rw [Vfs.fds_setFd_self] at hfree
          cases hfree
        have h₃ := h₂.setFd r (f := { (v₁.setFd w (v₁.fds w).fresh).fds r with
          pipe := some p, pipeMode := .read }) fun _ => by
            rw [Vfs.fds_setFd_of_ne _ hne.symm]
            exact hfat₁
        refine (h₃.setFd w fun _ => ?_).congr rfl
        rw [Vfs.fds_setFd_of_ne _ hne]
        exact hfat₂

theorem sysPipe (h : v.PipesApart) (t : OfdTable) : (Fs.sysPipe v t).vfs.PipesApart := by
  unfold Fs.sysPipe
  dsimp only
  split
  · exact h.pipeCreateFds
  · split
    · exact (h.pipeCreateFds.pipeFdClose _).pipeFdClose _
    · split
      · exact (h.pipeCreateFds.pipeFdClose _).pipeFdClose _
      · exact h.pipeCreateFds

theorem sysOpen (h : v.PipesApart) {t : OfdTable} {cred : Cred} {path : List UInt8} {flags : ℕ} {env : OpenEnv}
    {r : FileCall} (hopen : Fs.sysOpen v t cred path flags env = some r) : r.vfs.PipesApart := by
  obtain ⟨q, hq, rfl⟩ := Option.map_eq_some_iff.1 hopen
  have h' := h.vfsOpen hq
  split
  · exact h'
  · split
    · exact h'.vfsClose _
    · exact h'

theorem sysClose (h : v.PipesApart) (t : OfdTable) (procFd : ℤ) : (Fs.sysClose v t procFd).vfs.PipesApart := by
  unfold Fs.sysClose
  split
  · dsimp only
    split
    · exact h
    · exact h
    · exact h
    · exact h.vfsCloseFd _
  · exact h

theorem sysDup2 (h : v.PipesApart) (t : OfdTable) (oldPfd newPfd : ℤ) :
    (Fs.sysDup2 v t oldPfd newPfd).vfs.PipesApart := by
  unfold Fs.sysDup2
  split
  · dsimp only
    split
    · exact h
    · exact (h.closeOfd _).addrefOfd _
  · exact h

theorem vfsRead (h : v.PipesApart) {fd : Fd} {count : ℕ} {elsewhere : ℤ × List UInt8}
    {r : (ℤ × List UInt8) × Vfs} (hread : Fs.vfsRead v fd count elsewhere = some r) : r.2.PipesApart := by
  unfold Fs.vfsRead at hread
  split at hread
  · rw [← Option.some.inj hread]
    exact h
  · split at hread
    · rw [← Option.some.inj hread]
      exact h
    · split at hread
      · rw [← Option.some.inj hread]
        exact h
      · dsimp only at hread
        split at hread
        · rw [← Option.some.inj hread]
          exact h
        · split at hread
          · rw [← Option.some.inj hread]
            exact h
          · obtain ⟨data, -, rfl⟩ := Option.map_eq_some_iff.1 hread
            exact h.setFd fd (h fd)

theorem storeBytes (h : v.PipesApart) {fd : Fd} {node : Inode} {bytes : List UInt8} {needed : ℕ} {r : ℤ × Vfs}
    (hstore : Fs.storeBytes v fd node bytes needed = some r) : r.2.PipesApart := by
  unfold Fs.storeBytes at hstore
  dsimp only at hstore
  split at hstore
  · rw [← Option.some.inj hstore]
    exact (h.congr rfl).setFd fd (h fd)
  · cases hstore

theorem vfsWrite (h : v.PipesApart) {fd : Fd} {bytes : List UInt8} {env : WriteEnv} {r : ℤ × Vfs}
    (hwrite : Fs.vfsWrite v fd bytes env = some r) : r.2.PipesApart := by
  unfold Fs.vfsWrite at hwrite
  split at hwrite
  · rw [← Option.some.inj hwrite]
    exact h
  · split at hwrite
    · rw [← Option.some.inj hwrite]
      exact h
    · split at hwrite
      · rw [← Option.some.inj hwrite]
        exact h
      · dsimp only at hwrite
        split at hwrite
        · rw [← Option.some.inj hwrite]
          exact h
        · split at hwrite
          · split at hwrite
            · rw [← Option.some.inj hwrite]
              exact h
            · obtain ⟨node, -, hstore⟩ := Option.bind_eq_some_iff.1 hwrite
              exact h.storeBytes hstore
          · exact h.storeBytes hwrite

end Vfs.PipesApart

theorem procStep_pipesApart {s s' : Files} {op : ProcOp} (h : s.vfs.PipesApart)
    (hstep : procStep s op = some s') : s'.vfs.PipesApart := by
  unfold procStep at hstep
  split at hstep
  · rename_i t _
    cases op with
    | create i =>
      rw [← Option.some.inj hstep]
      exact h
    | openFile i cred path flags env =>
      obtain ⟨r, hr, rfl⟩ := Option.map_eq_some_iff.1 hstep
      exact h.sysOpen hr
    | pipe i =>
      rw [← Option.some.inj hstep]
      exact h.sysPipe t
    | dup2 i oldPfd newPfd =>
      rw [← Option.some.inj hstep]
      exact h.sysDup2 t oldPfd newPfd
    | close i procFd =>
      rw [← Option.some.inj hstep]
      exact h.sysClose t procFd
    | fork i child =>
      rw [procCall] at hstep
      split at hstep
      · rw [← Option.some.inj hstep]
        exact List.foldlRecOn (motive := Vfs.PipesApart) _ _ h fun v hv j _ => hv.addrefOfd (t j)
      · rw [← Option.some.inj hstep]
        exact h
    | exit i =>
      rw [← Option.some.inj hstep]
      exact List.foldlRecOn (motive := Vfs.PipesApart) _ _ h fun v hv j _ => hv.closeOfd (t j)
  · split at hstep
    · rw [← Option.some.inj hstep]
      exact h
    · rw [← Option.some.inj hstep]
      exact h

theorem sysRead_pipesApart {v : Vfs} (h : v.PipesApart) {t : OfdTable} {procFd : ℤ} {count : ℕ}
    {elsewhere : ℤ × List UInt8} {r : List UInt8 × FileCall}
    (hread : sysRead v t procFd count elsewhere = some r) : r.2.vfs.PipesApart := by
  unfold sysRead at hread
  split at hread
  · rw [← Option.some.inj hread]
    exact h
  · rw [← Option.some.inj hread]
    exact h
  · rw [← Option.some.inj hread]
    exact h
  · split at hread
    · rw [← Option.some.inj hread]
      exact h
    · obtain ⟨q, hq, rfl⟩ := Option.map_eq_some_iff.1 hread
      exact h.vfsRead hq

theorem sysWrite_pipesApart {v : Vfs} (h : v.PipesApart) {t : OfdTable} {procFd : ℤ} {bytes : List UInt8}
    {env : WriteEnv} {r : FileCall} (hwrite : sysWrite v t procFd bytes env = some r) : r.vfs.PipesApart := by
  unfold sysWrite at hwrite
  split at hwrite
  · rw [← Option.some.inj hwrite]
    exact h
  · rw [← Option.some.inj hwrite]
    exact h
  · rw [← Option.some.inj hwrite]
    exact h
  · split at hwrite
    · rw [← Option.some.inj hwrite]
      exact h
    · obtain ⟨q, hq, rfl⟩ := Option.map_eq_some_iff.1 hwrite
      exact h.vfsWrite hq

/-- Step: no call puts the end of a pipe on the FAT volume. -/
theorem descStep_pipesApart {s s' : Files} {op : DescOp} (h : s.vfs.PipesApart)
    (hstep : descStep s op = some s') : s'.vfs.PipesApart := by
  cases op with
  | proc op => exact procStep_pipesApart h hstep
  | read i procFd count elsewhere =>
    rw [descStep] at hstep
    split at hstep
    · rw [← Option.some.inj hstep]
      exact h
    · obtain ⟨r, hr, rfl⟩ := Option.map_eq_some_iff.1 hstep
      exact sysRead_pipesApart h hr
  | write i procFd bytes env =>
    rw [descStep] at hstep
    split at hstep
    · rw [← Option.some.inj hstep]
      exact h
    · obtain ⟨r, hr, rfl⟩ := Option.map_eq_some_iff.1 hstep
      exact sysWrite_pipesApart h hr

/-! ## The wrong direction -/

/-- The inode of an open description is no file in use. -/
def NoStaleFile (v : Vfs) (fd : Fd) : Prop :=
  ∀ node, ramfsGetInode v.inodes (v.fds fd).inode = some node → node.type ≠ .file

theorem noStaleFile_iff {v : Vfs} {fd : Fd} (hfat : (v.fds fd).fatFd = none) :
    NoStaleFile v fd ↔ v.fileAt fd = none := by
  rw [NoStaleFile, Option.eq_none_iff_forall_ne_some]
  constructor
  · intro h node hat
    obtain ⟨-, hget, htype⟩ := Vfs.fileAt_eq_some.1 hat
    exact h node hget htype
  · intro h node hget htype
    exact h node (Vfs.fileAt_eq_some.2 ⟨hfat, hget, htype⟩)

/-- A read from a file does not fail. -/
theorem vfsRead_ne_fails {v : Vfs} {fd : Fd} {node : Inode} (hused : (v.fds fd).used = true)
    (hat : v.fileAt fd = some node) (count : ℕ) (elsewhere : ℤ × List UInt8) (v' : Vfs) :
    vfsRead v fd count elsewhere ≠ some ((-1, []), v') := by
  intro hread
  obtain ⟨hfat, hget, htype⟩ := Vfs.fileAt_eq_some.1 hat
  rw [vfsRead, if_neg (not_not.2 hused), if_neg (by simp [hfat]), hget] at hread
  dsimp only at hread
  rw [if_neg (not_not.2 htype)] at hread
  split at hread
  · cases hread
  · obtain ⟨data, -, heq⟩ := Option.map_eq_some_iff.1 hread
    obtain ⟨hvalue, hbytes⟩ := Prod.mk.inj (Prod.mk.inj heq).1
    -- Without bytes the result is 0.
    have hzero := congrArg List.length hbytes
    rw [Inode.length_read, List.length_nil] at hzero
    rw [hzero] at hvalue
    revert hvalue
    decide

/-- A write of no bytes to a file, with memory, does not fail. -/
theorem vfsWrite_ne_fails {v : Vfs} {fd : Fd} {node : Inode} (hused : (v.fds fd).used = true)
    (hat : v.fileAt fd = some node) (junk : ℕ → UInt8) (elsewhere : ℤ) (v' : Vfs) :
    vfsWrite v fd [] ⟨some junk, elsewhere⟩ ≠ some (-1, v') := by
  intro hwrite
  obtain ⟨hfat, hget, htype⟩ := Vfs.fileAt_eq_some.1 hat
  have hstore : ∀ node needed, storeBytes v fd node [] needed ≠ some (-1, v') := by
    intro node needed hstore
    rw [storeBytes, if_pos (.inl rfl)] at hstore
    have hvalue := (Prod.mk.inj (Option.some.inj hstore)).1
    revert hvalue
    decide
  rw [vfsWrite, if_neg (not_not.2 hused), if_neg (by simp [hfat]), hget] at hwrite
  dsimp only at hwrite
  rw [if_neg (not_not.2 htype)] at hwrite
  split at hwrite
  · obtain ⟨node', -, hwrite⟩ := Option.bind_eq_some_iff.1 hwrite
    exact hstore _ _ hwrite
  · exact hstore _ _ hwrite

/-- A read fails, returns no bytes and leaves the files as they are. -/
def ReadFails (v : Vfs) (t : OfdTable) (procFd : ℤ) : Prop :=
  ∀ count elsewhere, ∃ v', sysRead v t procFd count elsewhere = some ([], ⟨-1, v', t⟩) ∧ v'.inodes = v.inodes

/-- A write fails and leaves the files as they are. -/
def WriteFails (v : Vfs) (t : OfdTable) (procFd : ℤ) : Prop :=
  ∀ bytes env, ∃ v', sysWrite v t procFd bytes env = some ⟨-1, v', t⟩ ∧ v'.inodes = v.inodes

section

variable {v : Vfs} {t : OfdTable} {procFd : ℤ} {fd : Fd} (h : v.PipesApart)
  (hfd : procToOfd t procFd = .file fd) (hused : (v.fds fd).used = true) (hpipe : (v.fds fd).pipe.isSome)
include h hfd hused hpipe

/-- Reading at the write end fails unless the description still has the inode of a file. -/
theorem readFails_iff (hmode : (v.fds fd).pipeMode = .write) : ReadFails v t procFd ↔ NoStaleFile v fd := by
  have hread : ∀ count elsewhere, sysRead v t procFd count elsewhere =
      (vfsRead v fd count elsewhere).map fun r => (r.1.2, ⟨r.1.1, r.2, t⟩) := by
    intro count elsewhere
    rw [sysRead, hfd]
    exact if_neg (by simp [hmode])
  rw [noStaleFile_iff (h fd hpipe)]
  constructor
  · intro hfails
    by_contra hne
    obtain ⟨node, hat⟩ := Option.ne_none_iff_exists'.1 hne
    obtain ⟨v', hcall, -⟩ := hfails 0 (0, [])
    rw [hread] at hcall
    obtain ⟨⟨⟨r, bytes⟩, v''⟩, hv'', heq⟩ := Option.map_eq_some_iff.1 hcall
    obtain ⟨rfl, hcall⟩ := Prod.mk.inj heq
    obtain ⟨rfl, rfl, -⟩ := FileCall.mk.inj hcall
    exact vfsRead_ne_fails hused hat 0 (0, []) _ hv''
  · intro hat count elsewhere
    rw [hread, vfsRead_of_not (h fd hpipe) (.inr hat)]
    exact ⟨v, rfl, rfl⟩

/-- Writing at the read end, likewise. -/
theorem writeFails_iff (hmode : (v.fds fd).pipeMode = .read) : WriteFails v t procFd ↔ NoStaleFile v fd := by
  have hwrite : ∀ bytes env, sysWrite v t procFd bytes env =
      (vfsWrite v fd bytes env).map fun r => ⟨r.1, r.2, t⟩ := by
    intro bytes env
    rw [sysWrite, hfd]
    exact if_neg (by simp [hmode])
  rw [noStaleFile_iff (h fd hpipe)]
  constructor
  · intro hfails
    by_contra hne
    obtain ⟨node, hat⟩ := Option.ne_none_iff_exists'.1 hne
    obtain ⟨v', hcall, -⟩ := hfails [] ⟨some fun _ => 0, 0⟩
    rw [hwrite] at hcall
    obtain ⟨⟨r, v''⟩, hv'', heq⟩ := Option.map_eq_some_iff.1 hcall
    obtain ⟨rfl, rfl, -⟩ := FileCall.mk.inj heq
    exact vfsWrite_ne_fails hused hat _ _ _ hv''
  · intro hat bytes env
    rw [hwrite, vfsWrite_of_not (h fd hpipe) (.inr hat)]
    exact ⟨v, rfl, rfl⟩

end

/-- After any calls of any processes, every read from the write end of a pipe and every write to the read end
fails and leaves all files as they are exactly if the inode of the open description is no file in use. -/
theorem pipe_wrong_way (mount : Option (List UInt8)) (ops : List DescOp) (s : Files)
    (hrun : runM descStep (Files.init mount) ops = some s) (t : OfdTable) (procFd : ℤ) (fd : Fd)
    (hfd : procToOfd t procFd = .file fd) (hused : (s.vfs.fds fd).used = true)
    (hpipe : (s.vfs.fds fd).pipe.isSome) :
    ((s.vfs.fds fd).pipeMode = .write → (ReadFails s.vfs t procFd ↔ NoStaleFile s.vfs fd)) ∧
      ((s.vfs.fds fd).pipeMode = .read → (WriteFails s.vfs t procFd ↔ NoStaleFile s.vfs fd)) := by
  have hinv : ∀ s₀ : Files, s₀.vfs.PipesApart → runM descStep s₀ ops = some s → s.vfs.PipesApart := by
    clear hrun
    induction ops with
    | nil =>
      intro s₀ h₀ hrun
      rwa [← Option.some.inj hrun]
    | cons op ops ih =>
      intro s₀ h₀ hrun
      obtain ⟨s₁, hstep, hrun⟩ := Option.bind_eq_some_iff.1 hrun
      exact ih s₁ (descStep_pipesApart h₀ hstep) hrun
  have h := hinv (Files.init mount) (fun _ hsome => by cases hsome) hrun
  exact ⟨readFails_iff h hfd hused hpipe, writeFails_iff h hfd hused hpipe⟩

/-- The ends of a pipe whose descriptions were never used before. -/
theorem pipe_wrong_way_fresh :
    ∃ s, runM descStep (Files.init none) [.proc (.create 0), .proc (.pipe 0)] = some s ∧
      ∃ t, s.procs 0 = some t ∧ ReadFails s.vfs t 4 ∧ WriteFails s.vfs t 3 := by
  have hstate : (runM descStep (Files.init none) [.proc (.create 0), .proc (.pipe 0)]).any (fun s =>
      (s.procs 0).any fun t => decide ((procToOfd t 3 = .file 0 ∧ procToOfd t 4 = .file 1) ∧
        ((s.vfs.fds 0).used = true ∧ (s.vfs.fds 0).pipe.isSome ∧ (s.vfs.fds 0).pipeMode = .read) ∧
        ((s.vfs.fds 1).used = true ∧ (s.vfs.fds 1).pipe.isSome ∧ (s.vfs.fds 1).pipeMode = .write) ∧
        (ramfsGetInode s.vfs.inodes (s.vfs.fds 0).inode).all (·.type ≠ .file) ∧
        (ramfsGetInode s.vfs.inodes (s.vfs.fds 1).inode).all (·.type ≠ .file))) = true := by
    decide +kernel
  obtain ⟨s, hrun, hs⟩ := (Option.any_eq_true _ _).1 hstate
  obtain ⟨t, ht, hs⟩ := (Option.any_eq_true _ _).1 hs
  obtain ⟨⟨h3, h4⟩, ⟨hused, hpipe, hread⟩, ⟨hused', hpipe', hwrite⟩, hstale, hstale'⟩ := of_decide_eq_true hs
  refine ⟨s, hrun, t, ht, ?_, ?_⟩
  · refine ((pipe_wrong_way none _ s hrun t 4 1 h4 hused' hpipe').1 hwrite).2 fun node hget => ?_
    rw [hget] at hstale'
    exact of_decide_eq_true hstale'
  · refine ((pipe_wrong_way none _ s hrun t 3 0 h3 hused hpipe).2 hread).2 fun node hget => ?_
    rw [hget] at hstale
    exact of_decide_eq_true hstale

/-- A process creates the file `/a`, closes it and makes a pipe. -/
def reopenOps (i : Fin 64) : List DescOp :=
  [.proc (.create i), .proc (.openFile i ⟨0, 0⟩ [47, 97] 0x40 ⟨false, true⟩), .proc (.close i 3),
    .proc (.pipe i)]

/-- A write to the read end of the pipe is stored in `/a`. -/
theorem pipe_write_reaches_file :
    ∃ s, runM descStep (Files.init none) (reopenOps 0) = some s ∧ ∃ t, s.procs 0 = some t ∧
      (procToOfd t 3 = .file 0 ∧ (s.vfs.fds 0).used = true ∧ (s.vfs.fds 0).pipe.isSome ∧
        (s.vfs.fds 0).pipeMode = .read) ∧ ramfsResolvePath s.vfs.inodes [47, 97] = some 1 ∧
      ∃ r, sysWrite s.vfs t 3 [88] ⟨some fun _ => 0, -1⟩ = some r ∧ r.rax = 1 ∧
        (s.vfs.inodes 1).bytes = [] ∧ (r.vfs.inodes 1).bytes = [88] := by
  have hstate : (runM descStep (Files.init none) (reopenOps 0)).any (fun s =>
      (s.procs 0).any fun t => decide ((procToOfd t 3 = .file 0 ∧ (s.vfs.fds 0).used = true ∧
        (s.vfs.fds 0).pipe.isSome ∧ (s.vfs.fds 0).pipeMode = .read) ∧
        ramfsResolvePath s.vfs.inodes [47, 97] = some 1 ∧
        (sysWrite s.vfs t 3 [88] ⟨some fun _ => 0, -1⟩).any (fun r => decide (r.rax = 1 ∧
          (s.vfs.inodes 1).bytes = [] ∧ (r.vfs.inodes 1).bytes = [88])))) = true := by
    decide +kernel
  obtain ⟨s, hrun, hs⟩ := (Option.any_eq_true _ _).1 hstate
  obtain ⟨t, ht, hs⟩ := (Option.any_eq_true _ _).1 hs
  obtain ⟨hend, hpath, hcall⟩ := of_decide_eq_true hs
  obtain ⟨r, hr, hres⟩ := (Option.any_eq_true _ _).1 hcall
  exact ⟨s, hrun, t, ht, hend, hpath, r, hr, of_decide_eq_true hres⟩

end PlantOS.Fs
