import PlantOS.Fs.Vfs
import PlantOS.Task.RunList

/-!
# The credentials of a task and of the tasks it creates

A task that is not root, and the tasks created from it, make calls of `SYS_SETUID`, `SYS_FORK` and `SYS_EXEC`
in any order. `CredSys` is the task table with the set of these tasks; the results of the allocations and of
the loader are inputs, and a call of a task in block `i` is one that it makes while it is running.

Access is widened exactly if the credentials of one of the tasks differ from those at the start
(`widens_iff`): the permission bits of an owner, a group and the others are independent. `SYS_FORK` copies the
credentials. `SYS_EXEC` leaves those of `alloc_task`, which are root's, and the check of `SYS_SETUID` looks at
the uid but not at the gid.

Reference: `cpu/syscall.c`, `task/task.c`, `fs/vfs.c`.
-/

namespace PlantOS.Task

open PlantOS.Fs Word

/-- The credentials of a task. -/
def Tcb.cred (t : Tcb) : Cred := ⟨t.uid, t.gid⟩

/-- `SYS_SETUID`. The arguments are cut to 16 bits. -/
def sysSetuid (s : TaskSys) (arg0 arg1 : ℕ) : TaskSys :=
  match s.current with
  | none => s
  | some cur =>
    let newUid := wrap 16 arg0
    let newGid := wrap 16 arg1
    if (s.tasks cur).uid = 0 ∨ newUid = (s.tasks cur).uid then
      s.modify cur fun t => { t with uid := newUid, gid := newGid }
    else s

/-- What `SYS_EXEC` gets from the loader and the allocators: the address space with the program, the stack
page and the kernel stack. -/
structure ExecLoad where
  entry : ℕ
  base : ℕ
  npages : ℕ
  cr3 : ℕ
  ustack : ℕ
  kstack : ℕ

/-- The task table in `SYS_EXEC`; there is no address space or the program is not loaded if `load` is
`none`. -/
def sysExecTcb (s : TaskSys) (load : Option ExecLoad) : Created :=
  match load with
  | none => (none, s)
  | some l => taskCreateElfTcb s l.entry l.base l.npages l.cr3 [] l.ustack l.kstack

/-- The task table, with the blocks of the first task and of those created from it. -/
structure CredSys where
  task : TaskSys
  family : Finset Slot

/-- The calls, each with the block of its caller. -/
inductive CredOp
  | setuid (i : Slot) (arg0 arg1 : ℕ)
  | fork (i : Slot) (regs : Frame) (cr3 kstack : ℕ)
  | exec (i : Slot) (load : Option ExecLoad)

/-- The caller. -/
def CredOp.caller : CredOp → Slot
  | .setuid i _ _ | .fork i _ _ _ | .exec i _ => i

/-- The state after the creation of a task. -/
def CredSys.enter (s : CredSys) (r : Created) : CredSys :=
  match r.1 with
  | none => { s with task := r.2 }
  | some j => ⟨r.2, insert j s.family⟩

/-- The task table while the task in block `i` is running. -/
def CredSys.running (s : CredSys) (i : Slot) : TaskSys := { s.task with current := some i }

/-- One call of a task of the family. -/
def credStep (s : CredSys) (op : CredOp) : CredSys :=
  if op.caller ∈ s.family then
    match op with
    | .setuid i arg0 arg1 => { s with task := sysSetuid (s.running i) arg0 arg1 }
    | .fork i regs cr3 kstack => s.enter (taskForkTcb (s.running i) regs cr3 kstack)
    | .exec i load => s.enter (sysExecTcb (s.running i) load)
  else s

/-- What `vfs_check_perm` denies to `c₀` it denies to every task of the family. -/
def CredSys.Confined (c₀ : Cred) (s : CredSys) : Prop :=
  ∀ i ∈ s.family, ∀ (node : Inode) (want : ℕ),
    vfsCheckPerm c₀ node want = false → vfsCheckPerm (s.task.tasks i).cred node want = false

/-- `SYS_EXEC` creates a task: there is a program, a free block, a stack page and a kernel stack. -/
def Executes (s : TaskSys) (load : Option ExecLoad) : Prop :=
  ∃ l, load = some l ∧ (allocTask s).isSome ∧ l.ustack ≠ 0 ∧ l.kstack ≠ 0

/-- The condition on a call of a task of the family: a `SYS_SETUID` that names the caller's uid names its gid
too, and no `SYS_EXEC` creates a task. -/
def CredOp.Confines (s : CredSys) (op : CredOp) : Prop :=
  op.caller ∈ s.family →
    match op with
    | .setuid i arg0 arg1 => wrap 16 arg0 = (s.task.tasks i).uid → wrap 16 arg1 = (s.task.tasks i).gid
    | .fork _ _ _ _ => True
    | .exec i load => ¬Executes (s.running i) load

/-! ## What the permission check distinguishes -/

/-- The permission bits of the owner, the group and the others are independent, so that other credentials
than `c₀` are allowed something that `c₀` is not. -/
theorem widens_iff {c₀ c : Cred} (h₀ : c₀.uid ≠ 0) :
    (∀ (node : Inode) (want : ℕ), vfsCheckPerm c₀ node want = false → vfsCheckPerm c node want = false) ↔
      c = c₀ := by
  refine ⟨fun h => ?_, fun h node want => h ▸ id⟩
  by_cases huid : c.uid = c₀.uid
  · by_cases hgid : c.gid = c₀.gid
    · cases c
      cases c₀
      simp_all
    · -- a file of another user, for the group of `c` only
      have hdeny := h { Inode.zero with uid := c₀.uid + 1, gid := c.gid, mode := 0o070 } 7
      simp [vfsCheckPerm, h₀, huid, Ne.symm hgid] at hdeny
  · -- a file of `c`, for its owner only
    have hdeny := h { Inode.zero with uid := c.uid, gid := c.gid, mode := 0o700 } 7
    by_cases hgid : c₀.gid = c.gid
    · simp [vfsCheckPerm, h₀, Ne.symm huid, hgid] at hdeny
    · simp [vfsCheckPerm, h₀, Ne.symm huid, hgid] at hdeny

/-- Confinement to a user other than root is that all tasks of the family have the same credentials. -/
theorem CredSys.confined_iff {c₀ : Cred} (h₀ : c₀.uid ≠ 0) {s : CredSys} :
    s.Confined c₀ ↔ ∀ i ∈ s.family, (s.task.tasks i).cred = c₀ :=
  forall₂_congr fun _ _ => widens_iff h₀

/-! ## The credentials of a new task -/

section Creation

variable {s s' : TaskSys} {i : Slot}

/-- Who a task is for the permission check, and whether its block is in use. -/
def Tcb.ident (t : Tcb) : Cred × Bool := (t.cred, t.state != .unused)

theorem ident_modify {k : Slot} {f : Tcb → Tcb} (hf : ∀ t, (f t).ident = t.ident) (j : Slot) :
    ((s.modify k f).tasks j).ident = (s.tasks j).ident := by
  by_cases hj : j = k
  · rw [hj, tasks_modify_self, hf]
  · rw [tasks_modify_ne hj]

theorem ident_startTask (s : TaskSys) (i : Slot) (top : ℕ) (f : Frame) (j : Slot) :
    ((startTask s i top f).2.tasks j).ident = (s.tasks j).ident := by
  simp only [startTask, taskInsert]
  split
  · refine (ident_modify ?_ j).trans (ident_modify ?_ j) <;> simp [Tcb.ident, Tcb.cred]
  · refine (ident_modify ?_ j).trans ((ident_modify ?_ j).trans (ident_modify ?_ j)) <;>
      simp [Tcb.ident, Tcb.cred]

/-- The free block `i` has been filled in for a task with the credentials `c`. -/
structure FilledAs (s s' : TaskSys) (i : Slot) (c : Cred) : Prop where
  others : ∀ j, j ≠ i → (s'.tasks j).ident = (s.tasks j).ident
  new : (s'.tasks i).ident = (c, true)
  free : (s.tasks i).state = .unused

namespace FilledAs

variable {c c' : Cred}

theorem modify (h : FilledAs s s' i c) {f : Tcb → Tcb}
    (hf : ∀ t, t.ident = (c, true) → (f t).ident = (c', true)) : FilledAs s (s'.modify i f) i c' where
  others j hj := (congrArg Tcb.ident (tasks_modify_ne hj f)).trans (h.others j hj)
  new := by
    rw [tasks_modify_self]
    exact hf _ h.new
  free := h.free

/-- A change that leaves the credentials as they are. -/
theorem keep (h : FilledAs s s' i c) {f : Tcb → Tcb} (hf : ∀ t, (f t).ident = t.ident) :
    FilledAs s (s'.modify i f) i c :=
  h.modify fun t ht => (hf t).trans ht

theorem giveKstack (h : FilledAs s s' i c) (kstack : ℕ) : FilledAs s (giveKstack s' i kstack) i c := by
  have hmem : FilledAs s { s' with mem := clearStack s'.mem kstack } i c := ⟨h.others, h.new, h.free⟩
  refine hmem.keep ?_
  simp [Tcb.ident, Tcb.cred]

end FilledAs

/-- The block that `alloc_task` fills in belongs to root. -/
theorem allocTask_filled (h : allocTask s = some (i, s')) : FilledAs s s' i ⟨0, 0⟩ := by
  simp only [allocTask, Option.map_eq_some_iff, Prod.mk.injEq] at h
  obtain ⟨j, hj, rfl, rfl⟩ := h
  refine ⟨fun k hk => by rw [tasks_modify_ne hk], ?_, by simpa using List.find?_some hj⟩
  rw [tasks_modify_self]
  rfl

/-- What a function that creates a task with the credentials `c` has done, if `ok` says whether it
succeeds. -/
structure CreatesAs (s : TaskSys) (r : Created) (ok : Prop) (c : Cred) : Prop where
  isSome : r.1.isSome ↔ ok
  fails : r.1 = none → ∀ j, (s.tasks j).state ≠ .unused → (r.2.tasks j).ident = (s.tasks j).ident
  filled : ∀ i, r.1 = some i → FilledAs s r.2 i c

namespace CreatesAs

variable {ok : Prop} {c : Cred}

theorem nothing (hok : ¬ok) : CreatesAs s (.none, s) ok c := ⟨by simp [hok], fun _ _ _ => rfl, nofun⟩

theorem failed (hok : ¬ok) (h : FilledAs s s' i c) : CreatesAs s (createFails s' i) ok c where
  isSome := by simp [createFails, hok]
  fails _ j hj := by
    have hne : j ≠ i := fun hji => hj (hji ▸ h.free)
    rw [createFails, tasks_modify_ne hne]
    exact h.others j hne
  filled := nofun

theorem started (hok : ok) (h : FilledAs s s' i c) (top : ℕ) (f : Frame) :
    CreatesAs s (startTask s' i top f) ok c where
  isSome := by simp [startTask, hok]
  fails := nofun
  filled j hj := by
    obtain rfl : i = j := Option.some.inj hj
    exact ⟨fun k hk => (ident_startTask s' i top f k).trans (h.others k hk),
      (ident_startTask s' i top f i).trans h.new, h.free⟩

end CreatesAs

/-- A program started by `SYS_EXEC` runs as root. -/
theorem sysExecTcb_creates (s : TaskSys) (load : Option ExecLoad) :
    CreatesAs s (sysExecTcb s load) (Executes s load) ⟨0, 0⟩ := by
  cases load with
  | none => exact .nothing fun ⟨l, hl, _⟩ => by cases hl
  | some l =>
    have hexec : Executes s (some l) ↔ (allocTask s).isSome ∧ l.ustack ≠ 0 ∧ l.kstack ≠ 0 := by
      simp [Executes]
    rw [hexec, sysExecTcb, taskCreateElfTcb]
    cases halloc : allocTask s with
    | none => exact .nothing (by simp)
    | some r =>
      have hfilled := allocTask_filled halloc
      by_cases hfail : l.ustack = 0 ∨ l.kstack = 0
      · simp only [if_pos hfail]
        refine .failed (by simp only [Option.isSome_some]; omega) (.keep hfilled ?_)
        simp [Tcb.ident, Tcb.cred]
      · simp only [if_neg hfail]
        refine .started ⟨rfl, by omega⟩ (.keep (.giveKstack (.keep hfilled ?_) _) ?_) _ _ <;>
          simp [Tcb.ident, Tcb.cred]

/-- A child has the credentials of its parent. -/
theorem taskForkTcb_creates {cur : Slot} (hcur : s.current = some cur)
    (hused : (s.tasks cur).state ≠ .unused) (regs : Frame) (cr3 kstack : ℕ) :
    ∃ ok, CreatesAs s (taskForkTcb s regs cr3 kstack) ok (s.tasks cur).cred := by
  simp only [taskForkTcb, hcur]
  split
  · exact ⟨False, .nothing id⟩
  · cases halloc : allocTask s with
    | none => exact ⟨False, .nothing id⟩
    | some r =>
      have hroot := allocTask_filled halloc
      have hne : cur ≠ r.1 := fun h => hused (h ▸ hroot.free)
      have hparent : (r.2.tasks cur).cred = (s.tasks cur).cred := congrArg Prod.fst (hroot.others cur hne)
      -- the child's block, with the fields copied before the address space is cloned
      have hfilled := @FilledAs.modify _ _ _ _ (s.tasks cur).cred hroot
        (fun t => { t with
          isUser := true, ppid := (r.2.tasks cur).pid, pgid := (r.2.tasks cur).pgid,
          uid := (r.2.tasks cur).uid, gid := (r.2.tasks cur).gid, cr3 := cr3 })
        fun t ht => Prod.ext hparent (by simpa [Tcb.ident] using congrArg Prod.snd ht)
      dsimp only
      split
      · exact ⟨False, .failed id hfilled⟩
      · split
        · refine ⟨False, .failed id (.keep hfilled ?_)⟩
          simp [Tcb.ident, Tcb.cred]
        · refine ⟨True, .started trivial (.giveKstack (.keep hfilled ?_) kstack) _ _⟩
          simp [Tcb.ident, Tcb.cred]

end Creation

/-! ## The run -/

/-- Every task of the family has the credentials `c₀`, and its block is in use. -/
def CredSys.Inv (c₀ : Cred) (s : CredSys) : Prop := ∀ i ∈ s.family, (s.task.tasks i).ident = (c₀, true)

section

variable {c₀ : Cred} {s : CredSys}

theorem CredSys.Inv.cred (hs : s.Inv c₀) {i : Slot} (hi : i ∈ s.family) : (s.task.tasks i).cred = c₀ :=
  congrArg Prod.fst (hs i hi)

theorem CredSys.Inv.inUse (hs : s.Inv c₀) {i : Slot} (hi : i ∈ s.family) :
    (s.task.tasks i).state ≠ .unused := by
  have h : ((s.task.tasks i).state != .unused) = true := congrArg Prod.snd (hs i hi)
  simpa using h

/-- A new task with the same credentials joins the family. -/
theorem CredSys.Inv.enter (hs : s.Inv c₀) {i : Slot} {r : Created} {ok : Prop} {c : Cred}
    (hr : CreatesAs (s.running i) r ok c) (hc : ok → c = c₀) : (s.enter r).Inv c₀ := by
  rw [CredSys.enter]
  split
  · rename_i hnone
    exact fun j hj => (hr.fails hnone j (hs.inUse hj)).trans (hs j hj)
  · rename_i k hsome
    have hck : c = c₀ := hc (hr.isSome.mp (by rw [hsome]; rfl))
    intro j hj
    by_cases hjk : j = k
    · rw [hjk, (hr.filled k hsome).new, hck]
    · exact ((hr.filled k hsome).others j hjk).trans (hs j ((Finset.mem_insert.mp hj).resolve_left hjk))

/-- What a `SYS_SETUID` of a task that is not root does to the caller. -/
theorem sysSetuid_cred {t : TaskSys} {i : Slot} (hi : t.current = some i) (hroot : (t.tasks i).uid ≠ 0)
    (arg0 arg1 : ℕ) :
    (wrap 16 arg0 = (t.tasks i).uid ∧
      sysSetuid t arg0 arg1 = t.modify i fun t => { t with gid := wrap 16 arg1 }) ∨
    (wrap 16 arg0 ≠ (t.tasks i).uid ∧ sysSetuid t arg0 arg1 = t) := by
  by_cases huid : wrap 16 arg0 = (t.tasks i).uid
  · refine .inl ⟨huid, ?_⟩
    simp [sysSetuid, hi, huid, TaskSys.modify]
  · exact .inr ⟨huid, by simp [sysSetuid, hi, hroot, huid]⟩

/-- Step: the tasks of the family keep their credentials and pass them on. -/
theorem CredSys.Inv.step (h₀ : c₀.uid ≠ 0) (hs : s.Inv c₀) {op : CredOp} (hok : op.Confines s) :
    (credStep s op).Inv c₀ := by
  by_cases hi : op.caller ∈ s.family
  · have hcred := hs.cred hi
    cases op with
    | setuid i arg0 arg1 =>
      have hroot : ((s.running i).tasks i).uid ≠ 0 := by
        rw [← hcred] at h₀
        exact h₀
      simp only [credStep, if_pos hi]
      rcases sysSetuid_cred (rfl : (s.running i).current = some i) hroot arg0 arg1 with ⟨huid, heq⟩ | ⟨-, heq⟩
      · have hgid : wrap 16 arg1 = (s.task.tasks i).gid := hok hi huid
        intro j hj
        refine Eq.trans ?_ (hs j hj)
        dsimp only
        rw [heq]
        by_cases hji : j = i
        · rw [hji, tasks_modify_self, hgid]
          rfl
        · rw [tasks_modify_ne hji]
          rfl
      · rw [heq]
        exact hs
    | fork i regs cr3 kstack =>
      obtain ⟨ok, hr⟩ := taskForkTcb_creates (rfl : (s.running i).current = some i) (hs.inUse hi) regs cr3
        kstack
      simp only [credStep, if_pos hi]
      exact hs.enter hr fun _ => hcred
    | exec i load =>
      simp only [credStep, if_pos hi]
      exact hs.enter (sysExecTcb_creates _ load) fun hexec => absurd hexec (hok hi)
  · simp only [credStep, if_neg hi]
    exact hs

/-- A call that does not meet the condition gives a task other credentials. -/
theorem CredSys.Inv.not_confined (h₀ : c₀.uid ≠ 0) (hs : s.Inv c₀) {op : CredOp} (hok : ¬op.Confines s) :
    ¬(credStep s op).Confined c₀ := by
  rw [CredSys.confined_iff h₀]
  intro hconf
  obtain ⟨hi, hbad⟩ := Classical.not_imp.mp hok
  simp only [credStep, if_pos hi] at hconf
  have hcred := hs.cred hi
  cases op with
  | setuid i arg0 arg1 =>
    obtain ⟨huid, hgid⟩ := Classical.not_imp.mp hbad
    have hroot : ((s.running i).tasks i).uid ≠ 0 := by
      rw [← hcred] at h₀
      exact h₀
    rcases sysSetuid_cred (rfl : (s.running i).current = some i) hroot arg0 arg1 with ⟨-, heq⟩ | ⟨hne, -⟩
    · have hnew := hconf i hi
      dsimp only at hnew
      rw [heq, tasks_modify_self, ← hcred] at hnew
      exact hgid (congrArg Cred.gid hnew)
    · exact hne huid
  | fork i regs cr3 kstack => exact hbad trivial
  | exec i load =>
    have hr := sysExecTcb_creates (s.running i) load
    obtain ⟨j, hj⟩ := Option.isSome_iff_exists.mp (hr.isSome.mpr (Classical.not_not.mp hbad))
    have hnew := (hr.filled j hj).new
    dsimp only at hconf
    rw [CredSys.enter, hj] at hconf
    have hcj := hconf j (Finset.mem_insert_self j s.family)
    rw [← hcj] at h₀
    exact h₀ (congrArg (fun p : Cred × Bool => p.1.uid) hnew)

end

/-- A task that is not root and the tasks created from it keep to the access of the first exactly if every
call meets `CredOp.Confines`. -/
theorem cred_confined_iff (s : TaskSys) (i : Slot) (hused : (s.tasks i).state ≠ .unused)
    (hroot : (s.tasks i).uid ≠ 0) (ops : List CredOp) :
    Run.Admits credStep (fun s op => op.Confines s) ⟨s, {i}⟩ ops ↔
      ∀ pre post, ops = pre ++ post →
        CredSys.Confined (s.tasks i).cred (Run.run credStep ⟨s, {i}⟩ pre) := by
  refine Run.admits_iff_safe (CredSys.Inv (s.tasks i).cred) (fun t ht => ?_)
    (fun t op ht hok => ht.step hroot hok) (fun t op ht hok => ht.not_confined hroot hok) fun j hj => ?_
  · exact (CredSys.confined_iff hroot).mpr fun j hj => ht.cred hj
  · rw [Finset.mem_singleton.mp hj]
    simpa [Tcb.ident] using hused

/-- A task table with the user task of uid 1000 in block `i`. -/
def unprivileged (i : Slot) : TaskSys :=
  (TaskSys.boot 0).modify i fun t =>
    { t with pid := 1, uid := 1000, gid := 1000, state := .running, isUser := true, cr3 := 4096 }

theorem cred_confined_iff_forked :
    Run.Admits credStep (fun s op => op.Confines s) ⟨unprivileged 1, {1}⟩
        [.fork 1 (fun _ => 0) 8192 12288, .setuid 1 1001 0] ↔
      ∀ pre post, [CredOp.fork 1 (fun _ => 0) 8192 12288, .setuid 1 1001 0] = pre ++ post →
        CredSys.Confined ((unprivileged 1).tasks 1).cred (Run.run credStep ⟨unprivileged 1, {1}⟩ pre) :=
  cred_confined_iff (unprivileged 1) 1 (by decide +kernel) (by decide +kernel) _

/-- The program that the task starts runs as root; and by `SYS_SETUID` with its own uid the task joins the
group of root. -/
theorem cred_widened :
    ¬CredSys.Confined ((unprivileged 1).tasks 1).cred
        (credStep ⟨unprivileged 1, {1}⟩ (.exec 1 (some ⟨0x400000, 0x400000, 1, 8192, 12288, 16384⟩))) ∧
      ¬CredSys.Confined ((unprivileged 1).tasks 1).cred
        (credStep ⟨unprivileged 1, {1}⟩ (.setuid 1 1000 0)) := by
  rw [CredSys.confined_iff (by decide +kernel), CredSys.confined_iff (by decide +kernel)]
  refine ⟨fun h => ?_, fun h => ?_⟩
  · have huid := congrArg Cred.uid (h 0 (by decide +kernel))
    revert huid
    decide +kernel
  · have hgid := congrArg Cred.gid (h 1 (by decide +kernel))
    revert hgid
    decide +kernel

end PlantOS.Task
