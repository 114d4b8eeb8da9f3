import PlantOS.Task.Schedule

/-!
# Tasks that stay the same

A task keeps its number and its address space while other tasks are unlinked and given back.
-/

namespace PlantOS.Task

variable {bootCr3 : ℕ} {s s' s'' : TaskSys} {h i j : Slot} {l : List Slot}

/-- The task has the same number, the same address space, and it has ended or not as before. -/
structure SameTask (t t' : Tcb) : Prop where
  pid : t'.pid = t.pid
  isUser : t'.isUser = t.isUser
  cr3 : t'.cr3 = t.cr3
  unused : t'.state = .unused ↔ t.state = .unused
  zombie : t'.state = .zombie ↔ t.state = .zombie

namespace SameTask

theorem refl (t : Tcb) : SameTask t t := ⟨rfl, rfl, rfl, Iff.rfl, Iff.rfl⟩

theorem trans {t t' t'' : Tcb} (h : SameTask t t') (h' : SameTask t' t'') : SameTask t t'' where
  pid := h'.pid.trans h.pid
  isUser := h'.isUser.trans h.isUser
  cr3 := h'.cr3.trans h.cr3
  unused := h'.unused.trans h.unused
  zombie := h'.zombie.trans h.zombie

end SameTask

/-- All tasks but those in `P` are the same, and the next number does not go down. -/
structure SameBut (P : Slot → Prop) (s s' : TaskSys) : Prop where
  nextPid : s.nextPid ≤ s'.nextPid
  task : ∀ i, ¬P i → SameTask (s.tasks i) (s'.tasks i)

/-- All tasks are the same. -/
abbrev SameTasks : TaskSys → TaskSys → Prop := SameBut fun _ => False

theorem SameBut.refl (P : Slot → Prop) (s : TaskSys) : SameBut P s s := ⟨le_rfl, fun _ _ => .refl _⟩

theorem SameBut.trans {P : Slot → Prop} (hs : SameBut P s s') (hs' : SameBut P s' s'') : SameBut P s s'' :=
  ⟨hs.nextPid.trans hs'.nextPid, fun i hi => (hs.task i hi).trans (hs'.task i hi)⟩

theorem SameBut.mono {P Q : Slot → Prop} (hs : SameBut P s s') (hPQ : ∀ i, P i → Q i) : SameBut Q s s' :=
  ⟨hs.nextPid, fun i hi => hs.task i fun hP => hi (hPQ i hP)⟩

theorem sameBut_modify (s : TaskSys) (i : Slot) (f : Tcb → Tcb) : SameBut (· = i) s (s.modify i f) where
  nextPid := le_rfl
  task j hj := by
    rw [tasks_modify_ne hj]
    exact .refl _

theorem sameTasks_modify {f : Tcb → Tcb} (hf : SameTask (s.tasks i) (f (s.tasks i))) :
    SameTasks s (s.modify i f) where
  nextPid := le_rfl
  task j _ := by
    rcases eq_or_ne j i with rfl | hj
    · rw [tasks_modify_self]
      exact hf
    · rw [tasks_modify_ne hj]
      exact .refl _

/-! ## The end of a task -/

theorem sameTasks_taskUnlink (hw : taskUnlink s i = some s') : SameTasks s s' := by
  rw [taskUnlink] at hw
  split_ifs at hw
  · cases hw
    exact .refl _ s
  · obtain ⟨prev, -, rfl⟩ := Option.map_eq_some_iff.1 hw
    exact sameTasks_modify ⟨rfl, rfl, rfl, Iff.rfl, Iff.rfl⟩

/-- The block of a task that has ended is given back. -/
theorem sameBut_reap (hw : reap s i = some s') :
    SameBut (· = i) s s' ∧ (s'.tasks i).state = .unused := by
  obtain ⟨s₁, hs₁, rfl⟩ := Option.map_eq_some_iff.1 hw
  refine ⟨((sameTasks_taskUnlink hs₁).mono fun _ => False.elim).trans (sameBut_modify s₁ i _), ?_⟩
  rw [tasks_modify_self]

end PlantOS.Task
