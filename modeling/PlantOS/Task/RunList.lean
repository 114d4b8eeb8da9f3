import PlantOS.Common.Run
import PlantOS.Task.Table

/-!
# The run list

The `next` pointers lead from the running task through all blocks of the pool that are in use and back to
it. Every call other than a scheduling step keeps this; the scheduling steps are in `Schedule`.

The calls other than a scheduling step come in a few kinds. Most of them change the state and the signals of
tasks only (`Quiet`). A task is created in a block that is not on the list (`NewBlock`) and linked in behind
the running task; a task that is not running is unlinked and its block given back.
-/

namespace PlantOS.Task

open TaskSys LinkRing

variable {bootCr3 : ℕ} {s s' s'' : TaskSys} {h i j : Slot} {l : List Slot}

/-! ## The invariant -/

/-- The links lead from the running task `h` through the tasks `l` and back, and these are the blocks in
use. -/
structure RunList (s : TaskSys) (h : Slot) (l : List Slot) : Prop where
  current : s.current = some h
  ring : IsRing s.links h l
  mem : ∀ i, i ∈ h :: l ↔ (s.tasks i).state ≠ .unused

/-- The run list without the block `i`, which is not on it. -/
structure AllBut (s : TaskSys) (i h : Slot) (l : List Slot) : Prop where
  current : s.current = some h
  ring : IsRing s.links h l
  not_mem : i ∉ h :: l
  mem : ∀ j, j ≠ i → (j ∈ h :: l ↔ (s.tasks j).state ≠ .unused)

/-- There is a run list, and the processor is in the address space of the running task. -/
structure TaskInv (bootCr3 : ℕ) (s : TaskSys) : Prop where
  ring : ∃ h l, RunList s h l
  space : ∀ cur, s.current = some cur → s.cr3 = (s.tasks cur).space bootCr3

theorem length_lt_of_nodup (hnd : (h :: l).Nodup) : l.length < 64 := by
  have hcard := hnd.length_le_card
  rw [Fintype.card_fin, List.length_cons] at hcard
  omega

theorem RunList.length_lt (hr : RunList s h l) : l.length < 64 := length_lt_of_nodup hr.ring.nodup

theorem RunList.current_ne_unused (hr : RunList s h l) : (s.tasks h).state ≠ .unused :=
  (hr.mem h).1 List.mem_cons_self

/-! ## Calls that change the state and the signals of tasks only -/

/-- What a task is resumed with, its place on the run list and its address space are the same, and a task that
has ended has still ended. -/
structure SameContext (t t' : Tcb) : Prop where
  next : t'.next = t.next
  rsp : t'.rsp = t.rsp
  cr3 : t'.cr3 = t.cr3
  fpuState : t'.fpuState = t.fpuState
  fpuUsed : t'.fpuUsed = t.fpuUsed
  unused : t'.state = .unused ↔ t.state = .unused
  zombie : t.state = .zombie → t'.state = .zombie

theorem SameContext.refl (t : Tcb) : SameContext t t := ⟨rfl, rfl, rfl, rfl, rfl, Iff.rfl, id⟩

theorem SameContext.trans {t t' t'' : Tcb} (h : SameContext t t') (h' : SameContext t' t'') :
    SameContext t t'' where
  next := h'.next.trans h.next
  rsp := h'.rsp.trans h.rsp
  cr3 := h'.cr3.trans h.cr3
  fpuState := h'.fpuState.trans h.fpuState
  fpuUsed := h'.fpuUsed.trans h.fpuUsed
  unused := h'.unused.trans h.unused
  zombie hz := h'.zombie (h.zombie hz)

/-- The same task runs in the same address space with the same FPU registers, and the contexts of all tasks
are the same. -/
structure Quiet (s s' : TaskSys) : Prop where
  current : s'.current = s.current
  cr3 : s'.cr3 = s.cr3
  fpu : s'.fpu = s.fpu
  task : ∀ i, SameContext (s.tasks i) (s'.tasks i)

/-- The same task runs, no task that is in use loses what it is resumed with, and a task that has ended does
not come back. -/
structure Kept (s s' : TaskSys) : Prop where
  current : s'.current = s.current
  rsp : ∀ i, (s.tasks i).state ≠ .unused → (s'.tasks i).rsp = (s.tasks i).rsp
  fpuState : ∀ i, (s.tasks i).state ≠ .unused → (s'.tasks i).fpuState = (s.tasks i).fpuState
  fpuUsed : ∀ i, (s.tasks i).state ≠ .unused → (s'.tasks i).fpuUsed = (s.tasks i).fpuUsed
  zombie : ∀ i, (s.tasks i).state = .zombie →
    (s'.tasks i).state = .zombie ∨ (s'.tasks i).state = .unused

/-- The tasks in use keep what they are resumed with, and their state unless their block is given back. -/
theorem Kept.of_same (hcur : s'.current = s.current)
    (hsame : ∀ i, (s.tasks i).state ≠ .unused → (s'.tasks i).rsp = (s.tasks i).rsp ∧
      (s'.tasks i).fpuState = (s.tasks i).fpuState ∧ (s'.tasks i).fpuUsed = (s.tasks i).fpuUsed ∧
      ((s'.tasks i).state = (s.tasks i).state ∨ (s'.tasks i).state = .unused)) : Kept s s' where
  current := hcur
  rsp i hi := (hsame i hi).1
  fpuState i hi := (hsame i hi).2.1
  fpuUsed i hi := (hsame i hi).2.2.1
  zombie i hz := by
    rw [← hz]
    exact (hsame i (by rw [hz]; decide)).2.2.2

namespace Quiet

theorem refl (s : TaskSys) : Quiet s s := ⟨rfl, rfl, rfl, fun _ => .refl _⟩

theorem trans (h : Quiet s s') (h' : Quiet s' s'') : Quiet s s'' where
  current := h'.current.trans h.current
  cr3 := h'.cr3.trans h.cr3
  fpu := h'.fpu.trans h.fpu
  task i := (h.task i).trans (h'.task i)

theorem kept (h : Quiet s s') : Kept s s' where
  current := h.current
  rsp i _ := (h.task i).rsp
  fpuState i _ := (h.task i).fpuState
  fpuUsed i _ := (h.task i).fpuUsed
  zombie i hz := .inl ((h.task i).zombie hz)

theorem links_eq (h : Quiet s s') : s'.links = s.links := funext fun i => (h.task i).next

theorem runList (hq : Quiet s s') (hr : RunList s h l) : RunList s' h l where
  current := hq.current.trans hr.current
  ring := by
    rw [hq.links_eq]
    exact hr.ring
  mem i := (hr.mem i).trans (not_congr (hq.task i).unused).symm

theorem space_eq (hq : Quiet s s') (i : Slot) :
    (s'.tasks i).space bootCr3 = (s.tasks i).space bootCr3 := by
  rw [Tcb.space, Tcb.space, (hq.task i).cr3]

/-- A quiet step changes nothing that the invariant speaks about. -/
theorem taskInv (hq : Quiet s s') (hs : TaskInv bootCr3 s) : TaskInv bootCr3 s' where
  ring := by
    obtain ⟨h, l, hr⟩ := hs.ring
    exact ⟨h, l, hq.runList hr⟩
  space cur hcur := by
    rw [hq.cr3, hq.space_eq]
    exact hs.space cur (hq.current ▸ hcur)

end Quiet

theorem links_modify (f : Tcb → Tcb) :
    (s.modify i f).links = Function.update s.links i (f (s.tasks i)).next := by
  funext j
  by_cases hj : j = i
  · subst hj
    simp [links]
  · simp [links, hj]

theorem quiet_modify {f : Tcb → Tcb} (hf : SameContext (s.tasks i) (f (s.tasks i))) :
    Quiet s (s.modify i f) where
  current := rfl
  cr3 := rfl
  fpu := rfl
  task j := by
    by_cases hj : j = i
    · subst hj
      rw [tasks_modify_self]
      exact hf
    · rw [tasks_modify_ne hj]
      exact .refl _

/-- A change of the state of a task in use. -/
theorem SameContext.of_inUse {t t' : Tcb} (hu : t.state ≠ .unused) (hu' : t'.state ≠ .unused)
    (hnext : t'.next = t.next) (hrsp : t'.rsp = t.rsp) (hcr3 : t'.cr3 = t.cr3)
    (hfpu : t'.fpuState = t.fpuState) (hused : t'.fpuUsed = t.fpuUsed)
    (hz : t.state = .zombie → t'.state = .zombie) : SameContext t t' :=
  ⟨hnext, hrsp, hcr3, hfpu, hused, iff_of_false hu' hu, hz⟩

theorem Tcb.BlockedOn.inUse {t : Tcb} {channel : Channel} (hb : t.BlockedOn channel) :
    t.state ≠ .unused := by
  rw [hb.1]
  decide

theorem sameContext_wake {t : Tcb} (hb : t.state = .blocked) : SameContext t t.wake :=
  .of_inUse (by rw [hb]; decide) (by simp [Tcb.wake]) rfl rfl rfl rfl rfl (by simp [hb])

/-- `task_wake_all` wakes all tasks that are blocked on the channel. -/
theorem taskWakeAll_spec (hr : RunList s h l) (channel : Channel) :
    ∃ s', taskWakeAll s channel = some s' ∧ Quiet s s' ∧
      ∀ i, s'.tasks i = if (s.tasks i).BlockedOn channel then (s.tasks i).wake else s.tasks i := by
  have htask : ∀ i, (if i ∈ h :: l ∧ (s.tasks i).BlockedOn channel then (s.tasks i).wake
      else s.tasks i) = if (s.tasks i).BlockedOn channel then (s.tasks i).wake else s.tasks i := by
    intro i
    by_cases hb : (s.tasks i).BlockedOn channel
    · rw [if_pos ⟨(hr.mem i).2 hb.inUse, hb⟩, if_pos hb]
    · rw [if_neg (fun hand => hb hand.2), if_neg hb]
  have hwake : taskWakeAll s channel = some { s with
      tasks := fun i =>
        if i ∈ h :: l ∧ (s.tasks i).BlockedOn channel then (s.tasks i).wake else s.tasks i } := by
    rw [taskWakeAll, hr.current]
    dsimp only
    rw [hr.ring.nodes_eq hr.length_lt, Option.map_some]
  refine ⟨_, hwake, ⟨rfl, rfl, rfl, fun i => ?_⟩, htask⟩
  dsimp only
  rw [htask]
  split_ifs with hb
  · exact sameContext_wake hb.1
  · exact .refl _

/-- The walk of `task_wake_one` ends, and the step is quiet. -/
theorem taskWakeOne_spec (hr : RunList s h l) (channel : Channel) :
    ∃ s', taskWakeOne s channel = some s' ∧ Quiet s s' := by
  rw [taskWakeOne, hr.current]
  dsimp only
  rw [hr.ring.seek_eq hr.length_lt, Option.map_some]
  refine ⟨_, rfl, ?_⟩
  split_ifs with hb
  · exact quiet_modify (sameContext_wake hb.1)
  · exact .refl s

/-- The running task is not a zombie. -/
theorem ne_current_of_zombie (hruns : s.currentRuns) (hz : (s.tasks i).state = .zombie) :
    s.current ≠ some i := by
  intro hcur
  simp [currentRuns, currentTask, hcur, hz] at hruns

theorem quiet_taskBlock (hr : RunList s h l) (hruns : s.currentRuns) (channel : Channel) :
    Quiet s (taskBlock s channel) := by
  rw [taskBlock, hr.current]
  exact quiet_modify (.of_inUse hr.current_ne_unused (by simp) rfl rfl rfl rfl rfl
    fun hz => absurd hr.current (ne_current_of_zombie hruns hz))

theorem taskStop_spec (hr : RunList s h l) (i : Slot) : ∃ s', taskStop s i = some s' ∧ Quiet s s' := by
  rw [taskStop]
  split_ifs with hstate
  · exact ⟨s, rfl, .refl s⟩
  · have hstop : Quiet s (s.modify i fun t => { t with state := .stopped, blockChannel := none }) :=
      quiet_modify (.of_inUse (fun hu => hstate (.inl hu)) (by simp) rfl rfl rfl rfl rfl
        fun hz => absurd (.inr hz) hstate)
    obtain ⟨s', hs', hq, -⟩ := taskWakeAll_spec (hstop.runList hr) (.task i)
    exact ⟨s', hs', hstop.trans hq⟩

theorem quiet_taskContinue (s : TaskSys) (i : Slot) : Quiet s (taskContinue s i) := by
  rw [taskContinue]
  split_ifs with hstate
  · exact .refl s
  · have hstate := not_not.1 hstate
    exact quiet_modify (.of_inUse (by rw [hstate]; decide) (by simp) rfl rfl rfl rfl rfl
      (by simp [hstate]))

theorem sameContext_pend (t : Tcb) (sig : ℕ) : SameContext t (t.pend sig) := by
  rw [Tcb.pend]
  dsimp only
  split_ifs with hb
  · exact .of_inUse (by rw [hb]; decide) (by simp [Tcb.wake]) rfl rfl rfl rfl rfl
      fun hz => absurd (hz.symm.trans hb) (by decide)
  · exact ⟨rfl, rfl, rfl, rfl, rfl, Iff.rfl, id⟩

theorem signalSend_spec (hr : RunList s h l) (pid : ℕ) (signum : ℤ) :
    ∃ s', signalSend s pid signum = some s' ∧ Quiet s s' := by
  rw [signalSend]
  split_ifs with hnum
  · exact ⟨s, rfl, .refl s⟩
  cases taskFind s pid with
  | none => exact ⟨s, rfl, .refl s⟩
  | some i =>
    dsimp only
    have hclear : Quiet s (s.modify i fun t =>
        { t with pendingSignals := t.pendingSignals &&& ~~~(sigBit sigtstp ||| sigBit sigstop) }) :=
      quiet_modify (by exact ⟨rfl, rfl, rfl, rfl, rfl, Iff.rfl, id⟩)
    by_cases huser : (s.tasks i).isUser = true
    · rw [if_neg (not_not.2 huser)]
      split_ifs
      · exact ⟨_, rfl, hclear.trans (quiet_taskContinue _ i)⟩
      · exact ⟨_, rfl, hclear⟩
      · exact taskStop_spec hr i
      · exact ⟨_, rfl, quiet_modify (sameContext_pend _ _)⟩
    · rw [if_pos huser]
      exact ⟨s, rfl, .refl s⟩

theorem quiet_signalRegister (s : TaskSys) (signum : ℤ) (handler : ℕ) :
    Quiet s (signalRegister s signum handler) := by
  rw [signalRegister]
  split_ifs
  · exact .refl s
  · cases s.current with
    | none => exact .refl s
    | some cur => exact quiet_modify ⟨rfl, rfl, rfl, rfl, rfl, Iff.rfl, id⟩
  · exact .refl s

theorem quiet_sysYield (hr : RunList s h l) : Quiet s (sysYield s) := by
  rw [sysYield, hr.current]
  dsimp only
  split_ifs with hrun
  · exact quiet_modify (.of_inUse hr.current_ne_unused (by simp) rfl rfl rfl rfl rfl (by simp [hrun]))
  · exact .refl s

theorem quiet_setExitCode (s : TaskSys) (code : ℤ) : Quiet s (setExitCode s code) := by
  rw [setExitCode]
  cases s.current with
  | none => exact .refl s
  | some cur => exact quiet_modify ⟨rfl, rfl, rfl, rfl, rfl, Iff.rfl, id⟩

/-! ## Creation of a task -/

/-- `s'` is `s` with a block `i` that was not in use, and that is not yet linked in. -/
structure NewBlock (s s' : TaskSys) (i : Slot) : Prop where
  unused : (s.tasks i).state = .unused
  current : s'.current = s.current
  cr3 : s'.cr3 = s.cr3
  others : ∀ j, j ≠ i → s'.tasks j = s.tasks j

/-- A call that returns `s'` keeps the run list and the contexts. -/
structure Keeps (bootCr3 : ℕ) (s s' : TaskSys) : Prop where
  inv : TaskInv bootCr3 s'
  kept : Kept s s'

namespace NewBlock

theorem modify (hn : NewBlock s s' i) (f : Tcb → Tcb) : NewBlock s (s'.modify i f) i where
  unused := hn.unused
  current := hn.current
  cr3 := hn.cr3
  others j hj := (tasks_modify_ne hj f).trans (hn.others j hj)

theorem setMem (hn : NewBlock s s' i) (mem : ℕ → UInt8) : NewBlock s { s' with mem := mem } i :=
  ⟨hn.unused, hn.current, hn.cr3, hn.others⟩

theorem allBut (hn : NewBlock s s' i) (hr : RunList s h l) : AllBut s' i h l := by
  have hi : i ∉ h :: l := fun hmem => (hr.mem i).1 hmem hn.unused
  have hne : ∀ j ∈ h :: l, j ≠ i := by
    rintro j hj rfl
    exact hi hj
  refine ⟨hn.current.trans hr.current, hr.ring.congr fun j hj => ?_, hi, fun j hj => ?_⟩
  · rw [links, links, hn.others j (hne j hj)]
  · rw [hn.others j hj]
    exact hr.mem j

theorem ne_of_inUse (hn : NewBlock s s' i) (hj : (s.tasks j).state ≠ .unused) : j ≠ i := by
  rintro rfl
  exact hj hn.unused

/-- The block is given back, and the run list is the same. -/
theorem runList_createFails (hn : NewBlock s s' i) (hr : RunList s h l) :
    RunList (createFails s' i).2 h l := by
  have hab := (hn.modify fun t => { t with state := .unused }).allBut hr
  refine ⟨hab.current, hab.ring, fun j => ?_⟩
  by_cases hj : j = i
  · subst hj
    simp [createFails, hab.not_mem]
  · exact hab.mem j hj

/-- A creation that fails gives the block back. -/
theorem keeps_createFails (hn : NewBlock s s' i) (hs : TaskInv bootCr3 s) :
    Keeps bootCr3 s (createFails s' i).2 := by
  obtain ⟨h, l, hr⟩ := hs.ring
  have hsame : ∀ j, (s.tasks j).state ≠ .unused → (createFails s' i).2.tasks j = s.tasks j := by
    intro j hj
    have hji := hn.ne_of_inUse hj
    rw [createFails, tasks_modify_ne hji, hn.others j hji]
  refine ⟨⟨⟨h, l, hn.runList_createFails hr⟩, fun cur hcur => ?_⟩, .of_same hn.current ?_⟩
  · have hcur : s.current = some cur := hn.current.symm.trans hcur
    obtain rfl : h = cur := Option.some.inj (hr.current.symm.trans hcur)
    rw [hsame h hr.current_ne_unused]
    exact hn.cr3.trans (hs.space h hcur)
  · intro j hj
    rw [hsame j hj]
    exact ⟨rfl, rfl, rfl, .inl rfl⟩

/-- The block is linked in behind the running task. -/
theorem keeps_taskInsert (hn : NewBlock s s' i) (hs : TaskInv bootCr3 s)
    (hu : (s'.tasks i).state ≠ .unused) : Keeps bootCr3 s (taskInsert s' i) := by
  obtain ⟨h, l, hr⟩ := hs.ring
  have hab := hn.allBut hr
  have hhi : h ≠ i := hn.ne_of_inUse hr.current_ne_unused
  have hins : taskInsert s' i = (s'.modify i fun t => { t with next := (s'.tasks h).next }).modify h
      fun t => { t with next := some i } := by
    rw [taskInsert, hab.current]
  -- only the links of `h` and `i` change
  have hlinks : (taskInsert s' i).links =
      Function.update (Function.update s'.links i (s'.links h)) h (some i) := by
    rw [hins, links_modify, links_modify]
    rfl
  have htask : ∀ j, ∃ next, (taskInsert s' i).tasks j = { s'.tasks j with next := next } := by
    intro j
    rw [hins]
    by_cases hjh : j = h
    · subst hjh
      rw [tasks_modify_self, tasks_modify_ne hhi]
      exact ⟨_, rfl⟩
    · rw [tasks_modify_ne hjh]
      by_cases hji : j = i
      · subst hji
        rw [tasks_modify_self]
        exact ⟨_, rfl⟩
      · rw [tasks_modify_ne hji]
        exact ⟨_, rfl⟩
  have hold : ∀ j, (s.tasks j).state ≠ .unused →
      ∃ next, (taskInsert s' i).tasks j = { s.tasks j with next := next } := by
    intro j hj
    obtain ⟨next, htask⟩ := htask j
    rw [hn.others j (hn.ne_of_inUse hj)] at htask
    exact ⟨next, htask⟩
  have hcur : (taskInsert s' i).current = s'.current := by rw [hins]; rfl
  have hcr3 : (taskInsert s' i).cr3 = s'.cr3 := by rw [hins]; rfl
  refine ⟨⟨⟨h, i :: l, hcur.trans hab.current, ?_, fun j => ?_⟩, fun cur hc => ?_⟩,
    .of_same (hcur.trans hn.current) ?_⟩
  · rw [hlinks]
    exact hab.ring.insert hab.not_mem
  · obtain ⟨next, htask⟩ := htask j
    rw [htask]
    by_cases hji : j = i
    · subst hji
      simp [hu]
    · rw [← hab.mem j hji]
      simp [hji]
  · have hc : s.current = some cur := hn.current.symm.trans (hcur.symm.trans hc)
    obtain rfl : h = cur := Option.some.inj (hr.current.symm.trans hc)
    obtain ⟨next, htask⟩ := hold h hr.current_ne_unused
    rw [hcr3, hn.cr3, htask]
    exact hs.space h hc
  · intro j hj
    obtain ⟨next, htask⟩ := hold j hj
    rw [htask]
    exact ⟨rfl, rfl, rfl, .inl rfl⟩

/-- The last part of a creation puts the block into the list. -/
theorem keeps_startTask (hn : NewBlock s s' i) (hs : TaskInv bootCr3 s)
    (hu : (s'.tasks i).state ≠ .unused) (top : ℕ) (f : Frame) :
    Keeps bootCr3 s (startTask s' i top f).2 := by
  refine keeps_taskInsert ((hn.setMem _).modify _) hs ?_
  rw [tasks_modify_self]
  exact hu

end NewBlock

/-- `alloc_task` finds a block that is not in use, or there is none. -/
theorem allocTask_spec (s : TaskSys) :
    allocTask s = none ∨ ∃ i s', allocTask s = some (i, s') ∧ NewBlock s s' i ∧
      (s'.tasks i).state = .ready := by
  rw [allocTask]
  cases hfind : (List.finRange 64).find? fun i => (s.tasks i).state == .unused with
  | none => exact .inl rfl
  | some i =>
    have hu : (s.tasks i).state = .unused := by simpa using List.find?_some hfind
    refine .inr ⟨i, _, rfl, ⟨hu, rfl, rfl, fun j hj => tasks_modify_ne hj _⟩, ?_⟩
    rw [tasks_modify_self]

theorem keeps_refl (hs : TaskInv bootCr3 s) : Keeps bootCr3 s s := ⟨hs, (Quiet.refl s).kept⟩

section

variable (hs : TaskInv bootCr3 s)
include hs

/-- Step: `task_create`, in each of its outcomes. -/
theorem keeps_taskCreate (entry : Option ℕ) (stack : ℕ) :
    Keeps bootCr3 s (taskCreate s entry stack).2 := by
  rw [taskCreate]
  obtain hnone | ⟨i, s', halloc, hn, hready⟩ := allocTask_spec s
  · rw [hnone]
    exact keeps_refl hs
  rw [halloc]
  have hu : (s'.tasks i).state ≠ .unused := by rw [hready]; decide
  cases entry with
  | none => exact hn.keeps_taskInsert hs hu
  | some entry =>
    dsimp only
    split_ifs
    · exact hn.keeps_createFails hs
    · refine NewBlock.keeps_startTask ((hn.setMem _).modify _) hs ?_ _ _
      rw [tasks_modify_self]
      exact hu

theorem keeps_kthreadCreate (trampoline fn arg stack : ℕ) :
    Keeps bootCr3 s (kthreadCreate s trampoline fn arg stack).2 := by
  rw [kthreadCreate]
  obtain hnone | ⟨i, s', halloc, hn, hready⟩ := allocTask_spec s
  · rw [hnone]
    exact keeps_refl hs
  rw [halloc]
  dsimp only
  split_ifs
  · exact hn.keeps_createFails hs
  · refine NewBlock.keeps_startTask ((hn.setMem _).modify _) hs ?_ _ _
    rw [tasks_modify_self]
    dsimp only
    rw [hready]
    decide

theorem keeps_taskCreateUser (entry cr3 ustack kstack : ℕ) :
    Keeps bootCr3 s (taskCreateUserTcb s entry cr3 ustack kstack).2 := by
  rw [taskCreateUserTcb]
  obtain hnone | ⟨i, s', halloc, hn, hready⟩ := allocTask_spec s
  · rw [hnone]
    exact keeps_refl hs
  rw [halloc]
  dsimp only
  split_ifs
  · exact (hn.modify _).keeps_createFails hs
  · refine NewBlock.keeps_startTask ((((hn.modify _).setMem _).modify _).modify _) hs ?_ _ _
    simp [hready]

theorem keeps_taskCreateElf (entry base npages cr3 : ℕ) (argv : List (List UInt8))
    (ustack kstack : ℕ) :
    Keeps bootCr3 s (taskCreateElfTcb s entry base npages cr3 argv ustack kstack).2 := by
  rw [taskCreateElfTcb]
  obtain hnone | ⟨i, s', halloc, hn, hready⟩ := allocTask_spec s
  · rw [hnone]
    exact keeps_refl hs
  rw [halloc]
  dsimp only
  split_ifs
  · exact (hn.modify _).keeps_createFails hs
  · refine NewBlock.keeps_startTask ((((hn.modify _).setMem _).modify _).modify _) hs ?_ _ _
    simp [hready]

theorem keeps_taskFork (regs : Frame) (cr3 kstack : ℕ) :
    Keeps bootCr3 s (taskForkTcb s regs cr3 kstack).2 := by
  rw [taskForkTcb]
  cases s.current with
  | none => exact keeps_refl hs
  | some cur =>
    dsimp only
    by_cases hparent : ¬(s.tasks cur).isUser ∨ (s.tasks cur).cr3 = 0
    · rw [if_pos hparent]
      exact keeps_refl hs
    rw [if_neg hparent]
    obtain hnone | ⟨i, s', halloc, hn, hready⟩ := allocTask_spec s
    · rw [hnone]
      exact keeps_refl hs
    rw [halloc]
    dsimp only
    split_ifs
    · exact (hn.modify _).keeps_createFails hs
    · exact ((hn.modify _).modify _).keeps_createFails hs
    · refine NewBlock.keeps_startTask ((((hn.modify _).modify _).setMem _).modify _) hs ?_ _ _
      simp [hready]

end

/-! ## The end of a task -/

/-- A task that is not running is unlinked and its block given back. -/
theorem unlink_spec (hs : TaskInv bootCr3 s) (hcur : s.current ≠ some i)
    (hu : (s.tasks i).state ≠ .unused) {f : Tcb → Tcb}
    (hf : ∀ t, (f t).state = .unused ∧ (f t).rsp = t.rsp ∧ (f t).fpuState = t.fpuState ∧
      (f t).fpuUsed = t.fpuUsed) :
    ∃ s', taskUnlink s i = some s' ∧ Keeps bootCr3 s (s'.modify i f) := by
  obtain ⟨h, l, hr⟩ := hs.ring
  have hhi : h ≠ i := by
    rintro rfl
    exact hcur hr.current
  have hil : i ∈ l := (List.mem_cons.1 ((hr.mem i).2 hu)).resolve_left (Ne.symm hhi)
  obtain ⟨prev, l', hprev, hpi, hring, hmem⟩ := hr.ring.unlink_prevOf hil hr.length_lt
  have hself : (s.tasks i).next ≠ some i := by
    intro hself
    -- the search would have ended at once
    have hself : s.links i = some i := hself
    rw [prevOf, if_pos hself] at hprev
    exact hpi (Option.some.inj hprev).symm
  have hsame : ∀ j, j ≠ i → ∃ next,
      ((s.modify prev fun t => { t with next := (s.tasks i).next }).modify i f).tasks j =
        { s.tasks j with next := next } := by
    intro j hj
    rw [tasks_modify_ne hj]
    by_cases hjp : j = prev
    · subst hjp
      rw [tasks_modify_self]
      exact ⟨_, rfl⟩
    · rw [tasks_modify_ne hjp]
      exact ⟨_, rfl⟩
  have hi : ((s.modify prev fun t => { t with next := (s.tasks i).next }).modify i f).tasks i =
      f (s.tasks i) := by
    rw [tasks_modify_self, tasks_modify_ne (Ne.symm hpi)]
  have hunlink : taskUnlink s i = some (s.modify prev fun t => { t with next := (s.tasks i).next }) := by
    rw [taskUnlink, if_neg hself, hprev, Option.map_some]
  refine ⟨_, hunlink, ⟨⟨h, l', hr.current, ?_, ?_⟩, ?_⟩, .of_same rfl ?_⟩
  · rw [links_modify, links_modify]
    exact hring.congr fun j hj => Function.update_of_ne ((hmem j).1 hj).2 _ _
  · intro j
    rw [hmem j, hr.mem j]
    by_cases hj : j = i
    · subst hj
      simp [(hf _).1]
    · obtain ⟨next, htask⟩ := hsame j hj
      rw [htask]
      exact and_iff_left hj
  · intro cur hc
    obtain rfl : h = cur := Option.some.inj (hr.current.symm.trans hc)
    obtain ⟨next, htask⟩ := hsame h hhi
    rw [htask]
    exact hs.space h hc
  · intro j _
    by_cases hj : j = i
    · subst hj
      rw [hi]
      exact ⟨(hf _).2.1, (hf _).2.2.1, (hf _).2.2.2, .inr (hf _).1⟩
    · obtain ⟨next, htask⟩ := hsame j hj
      rw [htask]
      exact ⟨rfl, rfl, rfl, .inl rfl⟩

theorem reap_spec (hs : TaskInv bootCr3 s) (hcur : s.current ≠ some i)
    (hu : (s.tasks i).state ≠ .unused) : ∃ s', reap s i = some s' ∧ Keeps bootCr3 s s' := by
  obtain ⟨s', hs', hk⟩ := unlink_spec hs hcur hu
    (f := fun t => { t with kstackBase := 0, state := .unused }) fun _ => ⟨rfl, rfl, rfl, rfl⟩
  exact ⟨_, by rw [reap, hs', Option.map_some], hk⟩

theorem taskFind_some {pid : ℕ} (hfind : taskFind s pid = some i) :
    (s.tasks i).pid = pid ∧ (s.tasks i).state ≠ .unused := by
  have h := List.find?_some hfind
  simpa using h

theorem Keeps.of_quiet (hs : TaskInv bootCr3 s) (hq : Quiet s s') : Keeps bootCr3 s s' :=
  ⟨hq.taskInv hs, hq.kept⟩

theorem Keeps.trans (hk : Keeps bootCr3 s s') (hk' : Keeps bootCr3 s' s'')
    (hu : ∀ j, (s.tasks j).state ≠ .unused → (s'.tasks j).state ≠ .unused) :
    Keeps bootCr3 s s'' where
  inv := hk'.inv
  kept := {
    current := hk'.kept.current.trans hk.kept.current
    rsp j hj := (hk'.kept.rsp j (hu j hj)).trans (hk.kept.rsp j hj)
    fpuState j hj := (hk'.kept.fpuState j (hu j hj)).trans (hk.kept.fpuState j hj)
    fpuUsed j hj := (hk'.kept.fpuUsed j (hu j hj)).trans (hk.kept.fpuUsed j hj)
    zombie j hz := by
      have hinUse : (s'.tasks j).state ≠ .unused := hu j (by rw [hz]; decide)
      exact hk'.kept.zombie j ((hk.kept.zombie j hz).resolve_right hinUse) }

theorem Quiet.keeps_trans (hq : Quiet s s') (hs : TaskInv bootCr3 s) (hk : Keeps bootCr3 s' s'') :
    Keeps bootCr3 s s'' :=
  (Keeps.of_quiet hs hq).trans hk fun j hj => (not_congr (hq.task j).unused).2 hj

/-- A task leaves its address space; if it is the running one, the processor does so too. -/
theorem keeps_leaveSpace (hs : TaskInv bootCr3 s) (i : Slot) {cr3 : ℕ}
    (hrun : s.current = some i → cr3 = bootCr3) (hother : s.current ≠ some i → cr3 = s.cr3) :
    Keeps bootCr3 s ({ s with cr3 := cr3 }.modify i fun t => { t with cr3 := 0 }) := by
  obtain ⟨h, l, hr⟩ := hs.ring
  have htask : ∀ j, ∃ c, ({ s with cr3 := cr3 }.modify i fun t => { t with cr3 := 0 }).tasks j =
      { s.tasks j with cr3 := c } := by
    intro j
    by_cases hj : j = i
    · subst hj
      rw [tasks_modify_self]
      exact ⟨_, rfl⟩
    · rw [tasks_modify_ne hj]
      exact ⟨_, rfl⟩
  have hlinks : ({ s with cr3 := cr3 }.modify i fun t => { t with cr3 := 0 }).links = s.links := by
    funext j
    obtain ⟨c, htask⟩ := htask j
    rw [links, htask]
    rfl
  refine ⟨⟨⟨h, l, hr.current, by rw [hlinks]; exact hr.ring, fun j => ?_⟩, fun cur hcur => ?_⟩,
    .of_same rfl fun j _ => ?_⟩
  · obtain ⟨c, htask⟩ := htask j
    rw [htask]
    exact hr.mem j
  · have hcur : s.current = some cur := hcur
    by_cases hci : cur = i
    · subst hci
      rw [tasks_modify_self, Tcb.space, if_neg (not_not.2 rfl)]
      exact hrun hcur
    · rw [tasks_modify_ne hci]
      refine (hother ?_).trans (hs.space cur hcur)
      exact fun hi => hci (Option.some.inj (hcur.symm.trans hi))
  · obtain ⟨c, htask⟩ := htask j
    rw [htask]
    exact ⟨rfl, rfl, rfl, .inl rfl⟩

theorem taskWaitpid_spec (hs : TaskInv bootCr3 s) (hruns : s.currentRuns) (pid : ℕ) :
    ∃ s', taskWaitpid s pid = some s' ∧ Keeps bootCr3 s s' := by
  rw [taskWaitpid]
  cases hfind : taskFind s pid with
  | none => exact ⟨s, rfl, keeps_refl hs⟩
  | some i =>
    dsimp only
    split_ifs with hparent hzombie hstopped
    · exact ⟨s, rfl, keeps_refl hs⟩
    · exact reap_spec hs (ne_current_of_zombie hruns hzombie) (taskFind_some hfind).2
    · exact ⟨s, rfl, keeps_refl hs⟩
    · obtain ⟨h, l, hr⟩ := hs.ring
      exact ⟨_, rfl, .of_quiet hs (quiet_taskBlock hr hruns _)⟩

theorem taskWaitpidWoken_spec (hs : TaskInv bootCr3 s) (hruns : s.currentRuns) (pid : ℕ) :
    ∃ s', taskWaitpidWoken s pid = some s' ∧ Keeps bootCr3 s s' := by
  rw [taskWaitpidWoken]
  cases hfind : taskFind s pid with
  | none => exact ⟨s, rfl, keeps_refl hs⟩
  | some i =>
    dsimp only
    split_ifs with hzombie
    · exact reap_spec hs (ne_current_of_zombie hruns hzombie) (taskFind_some hfind).2
    · exact ⟨s, rfl, keeps_refl hs⟩

/-- `task_kill` of another task. -/
theorem taskKill_spec (hs : TaskInv bootCr3 s) (pid : ℕ) :
    ∃ s', taskKillTcb bootCr3 s pid = some s' ∧ Keeps bootCr3 s s' := by
  rw [taskKillTcb]
  cases hfind : taskFind s pid with
  | none => exact ⟨s, rfl, keeps_refl hs⟩
  | some i =>
    dsimp only
    by_cases hcant : s.current = some i ∨ pid = 0
    · rw [if_pos hcant]
      exact ⟨s, rfl, keeps_refl hs⟩
    rw [if_neg hcant]
    obtain ⟨hcur, -⟩ := not_or.1 hcant
    have hu := (taskFind_some hfind).2
    obtain ⟨s₁, hs₁, hk₁, hu₁⟩ : ∃ s₁, (if (s.tasks i).cr3 ≠ 0 ∧ (s.tasks i).cr3 ≠ bootCr3 then
        s.modify i fun t => { t with cr3 := 0 } else s) = s₁ ∧ Keeps bootCr3 s s₁ ∧
        ∀ j, (s.tasks j).state ≠ .unused → (s₁.tasks j).state ≠ .unused := by
      refine ⟨_, rfl, ?_⟩
      split_ifs
      · refine ⟨keeps_leaveSpace hs i (fun hi => absurd hi hcur) fun _ => rfl, fun j hj => ?_⟩
        by_cases hji : j = i
        · subst hji
          rw [tasks_modify_self]
          exact hj
        · rw [tasks_modify_ne hji]
          exact hj
      · exact ⟨keeps_refl hs, fun _ hj => hj⟩
    rw [hs₁]
    obtain ⟨h, l, hr₁⟩ := hk₁.inv.ring
    obtain ⟨s₂, hs₂, hq, -⟩ := taskWakeAll_spec hr₁ (.task i)
    have hu₂ : (s₂.tasks i).state ≠ .unused := (not_congr (hq.task i).unused).2 (hu₁ i hu)
    obtain ⟨s₃, hs₃, hk₃⟩ := unlink_spec (hq.taskInv hk₁.inv)
      (by rw [hq.current, hk₁.kept.current]; exact hcur) hu₂
      (f := fun t => { t with stackBase := 0, kstackBase := 0, state := .unused })
      fun _ => ⟨rfl, rfl, rfl, rfl⟩
    refine ⟨_, by rw [hs₂, Option.bind_some, hs₃, Option.map_some], ?_⟩
    exact hk₁.trans (hq.keeps_trans hk₁.inv hk₃) hu₁

/-- `task_exit`. -/
theorem taskExit_spec (hs : TaskInv bootCr3 s) :
    ∃ s', taskExitTcb bootCr3 s = some s' ∧ Keeps bootCr3 s s' := by
  obtain ⟨h, l, hr⟩ := hs.ring
  rw [taskExitTcb, hr.current, Option.bind_some, exitTask]
  obtain ⟨s₁, hs₁, hk₁, hu₁⟩ : ∃ s₁, (if (s.tasks h).cr3 ≠ 0 ∧ (s.tasks h).cr3 ≠ bootCr3 then
      { s with cr3 := bootCr3 }.modify h fun t => { t with cr3 := 0 } else s) = s₁ ∧
      Keeps bootCr3 s s₁ ∧ ∀ j, (s.tasks j).state ≠ .unused → (s₁.tasks j).state ≠ .unused := by
    refine ⟨_, rfl, ?_⟩
    split_ifs
    · refine ⟨keeps_leaveSpace hs h (fun _ => rfl) fun hne => absurd hr.current hne, fun j hj => ?_⟩
      by_cases hjh : j = h
      · subst hjh
        rw [tasks_modify_self]
        exact hj
      · rw [tasks_modify_ne hjh]
        exact hj
    · exact ⟨keeps_refl hs, fun _ hj => hj⟩
  rw [hs₁]
  have hq₂ : Quiet s₁ (s₁.modify h fun t => { t with state := .zombie }) :=
    quiet_modify (.of_inUse (hu₁ h hr.current_ne_unused) (by simp) rfl rfl rfl rfl rfl fun _ => rfl)
  obtain ⟨h', l', hr₂⟩ := (hq₂.taskInv hk₁.inv).ring
  obtain ⟨s₃, hs₃, hq₃, -⟩ := taskWakeAll_spec hr₂ (.task h)
  exact ⟨s₃, hs₃, hk₁.trans (.of_quiet hk₁.inv (hq₂.trans hq₃)) hu₁⟩

end PlantOS.Task
