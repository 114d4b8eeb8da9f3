import PlantOS.Task.Schedule

/-!
# The contexts of the tasks

A task that is switched out is resumed with the stack pointer and the FPU state that it was interrupted with.
`Contexts` records these at every switch; the record of a task is dropped when it is resumed and when its
block gets a new task. What `schedule_from_irq` has saved agrees with the record, as long as the task that it
switches away from is not stopped: `cur_alive` leaves out TASK_STOPPED, so the context of a task that is
stopped while it runs is not saved.
-/

namespace PlantOS.Task

open TaskSys

variable {bootCr3 : ℕ}

/-- The tasks, and what each of them was interrupted with when it was switched out. -/
structure Contexts where
  sys : TaskSys
  saved : Slot → Option (ℕ × FpuState)

/-- The record after a call that has left `s'`. -/
def Contexts.record (c : Contexts) (s' : TaskSys) (op : TaskOp) (i : Slot) : Option (ℕ × FpuState) :=
  match op with
  | .schedule oldRsp fpu =>
    if s'.current = c.sys.current then c.saved i
    else if c.sys.current = some i then some (oldRsp, fpu)
    else if s'.current = some i then none
    else c.saved i
  | _ => if (c.sys.tasks i).state = .unused then none else c.saved i

/-- One call. -/
def contextStep (bootCr3 : ℕ) (c : Contexts) (op : TaskOp) : Option Contexts :=
  (taskStep bootCr3 c.sys op).map fun s' => ⟨s', c.record s' op⟩

/-- A scheduling step does not switch away from a stopped task, nor to one that a signal ends. -/
def ContextSaved (c : Contexts) : TaskOp → Prop
  | .schedule oldRsp fpu => SignalsHandled c.sys (.schedule oldRsp fpu) ∧
    ∀ next cur, chosen c.sys = some next → c.sys.current = some cur → (c.sys.tasks cur).state ≠ .stopped
  | _ => True

instance (c : Contexts) : DecidablePred (ContextSaved c)
  | .schedule oldRsp fpu =>
    decidable_of_iff (SignalsHandled c.sys (.schedule oldRsp fpu) ∧
      ((chosen c.sys).all fun _ => c.sys.currentTask.all fun t => t.state != .stopped) = true) (by
        rw [ContextSaved, currentTask]
        cases chosen c.sys <;> cases c.sys.current <;> simp)
  | .create _ _ | .kthread _ _ _ _ | .createUser _ _ _ _ | .createElf _ _ _ _ _ _ _ | .fork _ _ _
  | .exit _ | .waitpid _ | .waitpidWoken _ | .kill _ | .block _ | .wakeOne _ | .wakeAll _ | .stop _
  | .resume _ | .signal _ _ | .register _ _ | .yield => isTrue trivial

/-- What is saved of the tasks that are not running agrees with the record. -/
structure ContextInv (bootCr3 : ℕ) (c : Contexts) : Prop where
  inv : TaskInv bootCr3 c.sys
  running : ∀ cur, c.sys.current = some cur → c.saved cur = none
  saved : ∀ i p, c.saved i = some p → (c.sys.tasks i).state ≠ .unused →
    (c.sys.tasks i).state ≠ .zombie →
      (c.sys.tasks i).rsp = p.1 ∧ ((c.sys.tasks i).fpuUsed → (c.sys.tasks i).fpuState = p.2)

/-! ## Calls other than scheduling steps -/

/-- Calls that keep the tasks keep what is saved for them. -/
theorem ContextInv.of_kept {c : Contexts} {s' : TaskSys} (hc : ContextInv bootCr3 c)
    (hk : Keeps bootCr3 c.sys s') :
    ContextInv bootCr3 ⟨s', fun i => if (c.sys.tasks i).state = .unused then none else c.saved i⟩ where
  inv := hk.inv
  running cur hcur := by
    dsimp only
    rw [hc.running cur (hk.kept.current.symm.trans hcur), ite_self]
  saved i p hp hu hz := by
    dsimp only at hp hu hz ⊢
    split_ifs at hp with hunused
    have hzombie : (c.sys.tasks i).state ≠ .zombie :=
      fun hz' => (hk.kept.zombie i hz').elim hz hu
    rw [hk.kept.rsp i hunused, hk.kept.fpuState i hunused, hk.kept.fpuUsed i hunused]
    exact hc.saved i p hp hunused hzombie

/-- Step: every call but a switch. -/
theorem ContextInv.call {c : Contexts} {op : TaskOp} (hc : ContextInv bootCr3 c)
    (hop : ∀ oldRsp fpu, op ≠ .schedule oldRsp fpu) :
    ∃ c', contextStep bootCr3 c op = some c' ∧ ContextInv bootCr3 c' := by
  have hrecord : ∀ s', c.record s' op =
      fun i => if (c.sys.tasks i).state = .unused then none else c.saved i := by
    intro s'
    cases op with
    | schedule oldRsp fpu => exact absurd rfl (hop oldRsp fpu)
    | _ => rfl
  have hstep : ∃ s', taskStep bootCr3 c.sys op = some s' ∧ Keeps bootCr3 c.sys s' := by
    rw [taskStep]
    split_ifs with hruns
    · exact taskCall_spec hc.inv hruns hop
    · exact ⟨c.sys, rfl, keeps_refl hc.inv⟩
  obtain ⟨s', hs', hk⟩ := hstep
  refine ⟨⟨s', c.record s' op⟩, by rw [contextStep, hs', Option.map_some], ?_⟩
  rw [hrecord]
  exact hc.of_kept hk

/-! ## Scheduling steps -/

section

variable {s s' : TaskSys} {cur next i : Slot} {oldRsp : ℕ}

/-- The tasks other than the two that are switched are the same. -/
theorem tasks_switch_other (bootCr3 oldRsp : ℕ) (hic : i ≠ cur) (hin : i ≠ next) :
    ∃ ticks, (switchTo bootCr3 (saveRsp s cur oldRsp) cur next).tasks i = { s.tasks i with ticks := ticks } := by
  obtain ⟨ticks, hsave⟩ := tasks_saveRsp s cur oldRsp i
  rw [if_neg fun hand => hic hand.1] at hsave
  rw [tasks_switchTo, if_neg hic, if_neg hin]
  exact ⟨ticks, hsave⟩

/-- A task that is alive when it is switched out has its context saved. -/
theorem tasks_switch_out (hne : cur ≠ next) (halive : (s.tasks cur).state.alive = true) :
    let t := (switchTo bootCr3 (saveRsp s cur oldRsp) cur next).tasks cur
    t.rsp = oldRsp ∧ (t.fpuUsed → t.fpuState = s.fpu) := by
  obtain ⟨ticks, hsave⟩ := tasks_saveRsp s cur oldRsp cur
  rw [if_pos ⟨rfl, halive⟩] at hsave
  rw [tasks_switchTo, if_pos rfl, if_neg hne, hsave, Tcb.switchOut, fpu_saveRsp]
  dsimp only
  rw [if_pos halive]
  exact ⟨rfl, fun hused => if_pos hused⟩

/-- A task that has ended is not changed when it is switched out. -/
theorem tasks_switch_out_zombie (hne : cur ≠ next) (hz : (s.tasks cur).state = .zombie) :
    ((switchTo bootCr3 (saveRsp s cur oldRsp) cur next).tasks cur).state = .zombie := by
  have hdead : ¬(s.tasks cur).state.alive = true := by
    rw [hz]
    decide
  rw [tasks_switchTo, if_pos rfl, if_neg hne, saveRsp, if_neg hdead, Tcb.switchOut, if_neg hdead, hz]

/-- The task that is switched to keeps its context. -/
theorem tasks_switch_in (bootCr3 oldRsp : ℕ) (hne : next ≠ cur) :
    ∃ ticks, (switchTo bootCr3 (saveRsp s cur oldRsp) cur next).tasks next =
      { s.tasks next with state := .running, ticks := ticks } := by
  obtain ⟨ticks, hsave⟩ := tasks_saveRsp s cur oldRsp next
  rw [if_neg fun hand => hne hand.1] at hsave
  rw [tasks_switchTo, if_neg hne, if_pos rfl, hsave]
  exact ⟨ticks, rfl⟩

end

section

variable {c : Contexts} {s' : TaskSys} {cur next i : Slot} {oldRsp : ℕ} {fpu : FpuState}

/-- A task with a record is not the running one. -/
theorem ContextInv.ne_current (hc : ContextInv bootCr3 c) (hcur : c.sys.current = some cur)
    {p : ℕ × FpuState} (hp : c.saved i = some p) : i ≠ cur := by
  rintro rfl
  rw [hc.running i hcur] at hp
  exact absurd hp (by simp)

/-- The record after a step that stays with the running task. -/
theorem ContextInv.stay (hc : ContextInv bootCr3 c) (hcur : c.sys.current = some cur)
    (hinv : TaskInv bootCr3 s') (hsame : s'.current = some cur)
    (hother : ∀ i, i ≠ cur → SameContext (c.sys.tasks i) (s'.tasks i)) :
    ContextInv bootCr3 ⟨s', c.record s' (.schedule oldRsp fpu)⟩ := by
  have hrecord : c.record s' (.schedule oldRsp fpu) = c.saved :=
    funext fun i => if_pos (hsame.trans hcur.symm)
  rw [hrecord]
  refine ⟨hinv, fun cur' hcur' => ?_, fun i p hp hu hz => ?_⟩
  · obtain rfl : cur' = cur := Option.some.inj (hcur'.symm.trans hsame)
    exact hc.running cur' hcur
  · have hi := hother i (hc.ne_current hcur hp)
    dsimp only at hp hu hz ⊢
    rw [hi.rsp, hi.fpuUsed, hi.fpuState]
    exact hc.saved i p hp ((not_congr hi.unused).1 hu) fun hz' => hz (hi.zombie hz')

/-- The record after a switch from `cur` to `next`. -/
theorem ContextInv.switch (hc : ContextInv bootCr3 c) (hcur : c.sys.current = some cur)
    (hne : next ≠ cur) (hstop : (c.sys.tasks cur).state ≠ .stopped)
    (hu : (c.sys.tasks next).state ≠ .unused) (hinv : TaskInv bootCr3 s')
    (hq : Quiet (switchTo bootCr3 (saveRsp { c.sys with fpu := fpu } cur oldRsp) cur next) s') :
    ContextInv bootCr3 ⟨s', c.record s' (.schedule oldRsp fpu)⟩ := by
  have hnext : s'.current = some next := hq.current
  have hchange : s'.current ≠ c.sys.current := by
    rw [hnext, hcur]
    exact fun heq => hne (Option.some.inj heq)
  refine ⟨hinv, fun cur' hcur' => ?_, fun i p hp hu' hz => ?_⟩
  · obtain rfl : cur' = next := Option.some.inj (hcur'.symm.trans hnext)
    have hcur' : ¬c.sys.current = some cur' := by
      rw [hcur]
      exact fun h => hne (Option.some.inj h).symm
    dsimp only [Contexts.record]
    rw [if_neg hchange, if_neg hcur', if_pos hnext]
  · dsimp only at hp hu' hz ⊢
    have hi := hq.task i
    dsimp only [Contexts.record] at hp
    rw [if_neg hchange, hcur, hnext] at hp
    rw [hi.rsp, hi.fpuUsed, hi.fpuState]
    split_ifs at hp with h₁ h₂
    · -- the task that is switched out: it is in use, not a zombie and not stopped, so it is alive
      obtain rfl : cur = i := Option.some.inj h₁
      obtain rfl := Option.some.inj hp
      have halive : (c.sys.tasks cur).state.alive = true := by
        have hold : (c.sys.tasks cur).state ≠ .unused := by
          obtain ⟨h, l, hr⟩ := hc.inv.ring
          obtain rfl : h = cur := Option.some.inj (hr.current.symm.trans hcur)
          exact hr.current_ne_unused
        have hzombie : (c.sys.tasks cur).state ≠ .zombie := by
          intro hz'
          exact hz (hi.zombie (tasks_switch_out_zombie (Ne.symm hne) hz'))
        cases hstate : (c.sys.tasks cur).state <;> simp_all [TaskState.alive]
      exact tasks_switch_out (Ne.symm hne) halive
    · -- a task that does not take part keeps what was saved for it
      have h₁ : i ≠ cur := fun h => h₁ (congrArg some h.symm)
      have h₂ : i ≠ next := fun h => h₂ (congrArg some h.symm)
      obtain ⟨ticks, htask⟩ :=
        tasks_switch_other (s := { c.sys with fpu := fpu }) bootCr3 oldRsp h₁ h₂
      rw [htask] at hi ⊢
      exact hc.saved i p hp ((not_congr hi.unused).1 hu') fun hz' => hz (hi.zombie hz')

/-- Step: the switch saves the context of the task it leaves, and restores what it had saved for the next.
-/
theorem ContextInv.schedule (hc : ContextInv bootCr3 c) (hok : ContextSaved c (.schedule oldRsp fpu)) :
    ∃ c', contextStep bootCr3 c (.schedule oldRsp fpu) = some c' ∧ ContextInv bootCr3 c' := by
  obtain ⟨hd, hstop⟩ := hok
  obtain ⟨cur, r, s', hcur, hs', hinv, hcase⟩ := scheduleFromIrq_spec (setFpu_inv hc.inv fpu) hd oldRsp
  have hcur : c.sys.current = some cur := hcur
  refine ⟨⟨s', c.record s' (.schedule oldRsp fpu)⟩, ?_, ?_⟩
  · rw [contextStep, taskStep, if_pos (by simp [TaskOp.fromIrq]), taskCall, hs']
    rfl
  have hchosen : chosen { c.sys with fpu := fpu } = chosen c.sys := rfl
  rw [hchosen] at hcase
  cases hc' : chosen c.sys with
  | none =>
    rw [hc'] at hcase
    obtain ⟨-, rfl⟩ := hcase
    refine hc.stay hcur hinv (current_saveRsp.trans hcur) fun i hi => ?_
    obtain ⟨ticks, htask⟩ := tasks_saveRsp { c.sys with fpu := fpu } cur oldRsp i
    rw [if_neg fun hand => hi hand.1] at htask
    rw [htask]
    exact ⟨rfl, rfl, rfl, rfl, rfl, Iff.rfl, id⟩
  | some next =>
    rw [hc'] at hcase
    obtain ⟨-, hq⟩ := hcase
    have hready := chosen_ready hc'
    by_cases hne : next = cur
    · subst hne
      refine hc.stay hcur hinv hq.current fun i hi => ?_
      obtain ⟨ticks, htask⟩ :=
        tasks_switch_other (s := { c.sys with fpu := fpu }) bootCr3 oldRsp hi hi
      have hi := hq.task i
      rw [htask] at hi
      exact ⟨hi.next, hi.rsp, hi.cr3, hi.fpuState, hi.fpuUsed, hi.unused, hi.zombie⟩
    · exact hc.switch hcur hne (hstop next cur hc' hcur) (by rw [hready]; decide) hinv hq

/-- Step: a switch stores the context of the task it leaves and loads that of the next one; other calls
switch no task. -/
theorem ContextInv.step (hc : ContextInv bootCr3 c) (op : TaskOp) (hok : ContextSaved c op) :
    ∃ c', contextStep bootCr3 c op = some c' ∧ ContextInv bootCr3 c' := by
  by_cases hop : ∃ oldRsp fpu, op = .schedule oldRsp fpu
  · obtain ⟨oldRsp, fpu, rfl⟩ := hop
    exact hc.schedule hok
  · exact hc.call fun oldRsp fpu heq => hop ⟨oldRsp, fpu, heq⟩

/-- A task that is resumed is resumed with its record. -/
theorem ContextInv.resumes (hc : ContextInv bootCr3 c) (hd : SignalsHandled c.sys (.schedule oldRsp fpu))
    {r : ℕ} (hret : scheduleFromIrq bootCr3 { c.sys with fpu := fpu } oldRsp = some (r, s'))
    (hi : s'.current = some i) (hne : c.sys.current ≠ some i) {p : ℕ × FpuState}
    (hp : c.saved i = some p) :
    r = p.1 ∧ ((s'.tasks i).fpuUsed → (s'.tasks i).fpuState = p.2 ∧ s'.fpu = p.2) := by
  obtain ⟨cur, r', s'', hcur, hs'', -, hcase⟩ := scheduleFromIrq_spec (setFpu_inv hc.inv fpu) hd oldRsp
  obtain ⟨rfl, rfl⟩ := Prod.mk.inj (Option.some.inj (hret.symm.trans hs''))
  have hcur : c.sys.current = some cur := hcur
  have hchosen : chosen { c.sys with fpu := fpu } = chosen c.sys := rfl
  rw [hchosen] at hcase
  cases hc' : chosen c.sys with
  | none =>
    rw [hc'] at hcase
    obtain ⟨-, rfl⟩ := hcase
    exact absurd (current_saveRsp.symm.trans hi) hne
  | some next =>
    rw [hc'] at hcase
    obtain ⟨hr, hq⟩ := hcase
    obtain rfl : next = i := Option.some.inj (hq.current.symm.trans hi)
    have hne : next ≠ cur := fun heq => hne (heq ▸ hcur)
    have hready := chosen_ready hc'
    obtain ⟨hrsp, hfpu⟩ := hc.saved next p hp (by rw [hready]; decide) (by rw [hready]; decide)
    obtain ⟨ticks, htask⟩ := tasks_switch_in (s := { c.sys with fpu := fpu }) bootCr3 oldRsp hne
    have hload : (switchTo bootCr3 (saveRsp { c.sys with fpu := fpu } cur oldRsp) cur next).fpu =
        let t := (switchTo bootCr3 (saveRsp { c.sys with fpu := fpu } cur oldRsp) cur next).tasks next
        if t.fpuUsed then t.fpuState else (saveRsp { c.sys with fpu := fpu } cur oldRsp).fpu := rfl
    have hn := hq.task next
    rw [htask] at hn hload
    rw [hr, hn.rsp, hn.fpuUsed, hn.fpuState, hq.fpu, hload]
    exact ⟨hrsp, fun hused => ⟨hfpu hused, (if_pos hused).trans (hfpu hused)⟩⟩

end

/-! ## Runs -/

/-- After `sched_init` no task has been switched out. -/
def Contexts.init (bootCr3 idleEntry idleStack : ℕ) : Contexts :=
  ⟨schedInit bootCr3 idleEntry idleStack, fun _ => none⟩

/-- The state after `task_init`. -/
theorem contextInv_init (bootCr3 idleEntry idleStack : ℕ) :
    ContextInv bootCr3 (.init bootCr3 idleEntry idleStack) where
  inv := taskInv_schedInit bootCr3 idleEntry idleStack
  running _ _ := rfl
  saved i p hp := absurd hp (by simp [Contexts.init])

/-- In every run in which no stopped task is switched out and no signal ends a task that is switched to, a
task that is resumed is resumed with the stack pointer that it was interrupted with when it was switched out,
and if it uses the FPU with the FPU state it had then. -/
theorem context_kept_of_admits {idleEntry idleStack : ℕ} {ops : List TaskOp}
    (hops : Run.AdmitsM (contextStep bootCr3) ContextSaved (.init bootCr3 idleEntry idleStack) ops) :
    ∃ c, Run.runM (contextStep bootCr3) (.init bootCr3 idleEntry idleStack) ops = some c ∧
      ∀ oldRsp fpu r s' i p, ContextSaved c (.schedule oldRsp fpu) →
        scheduleFromIrq bootCr3 { c.sys with fpu := fpu } oldRsp = some (r, s') →
        s'.current = some i → c.sys.current ≠ some i → c.saved i = some p →
        r = p.1 ∧ ((s'.tasks i).fpuUsed → (s'.tasks i).fpuState = p.2 ∧ s'.fpu = p.2) := by
  obtain ⟨c, hrun, hc⟩ := Run.runM_invariant (fun _ op hinv hok => hinv.step op hok)
    (contextInv_init bootCr3 idleEntry idleStack) hops
  refine ⟨c, hrun, ?_⟩
  intro oldRsp fpu r s' i p hok hret hi hne hp
  exact hc.resumes hok.1 hret hi hne hp

/-- A process is switched out by the timer, then the idle task and the kernel task run. -/
def preemptedRun : List TaskOp :=
  [.createUser 0x400000 0x9000 0x8000 0x50000, .schedule 0x7000 5, .schedule 0x50E00 6,
    .schedule 0x71000 7]

theorem context_kept_preempted :
    ∃ c r s', Run.runM (contextStep 4096) (.init 4096 0x200000 0x70000) preemptedRun = some c ∧
      scheduleFromIrq 4096 { c.sys with fpu := 8 } 0x7100 = some (r, s') ∧ s'.current = some 2 ∧
      r = 0x50E00 ∧ (s'.tasks 2).fpuState = 6 := by
  obtain ⟨c, hrun, hkept⟩ :=
    @context_kept_of_admits 4096 0x200000 0x70000 preemptedRun (by decide +kernel)
  have heval : ((Run.runM (contextStep 4096) (.init 4096 0x200000 0x70000) preemptedRun).bind fun c =>
      (scheduleFromIrq 4096 { c.sys with fpu := 8 } 0x7100).map fun q =>
        (c.saved 2, c.sys.current, q.2.current, (q.2.tasks 2).fpuUsed,
          decide (ContextSaved c (.schedule 0x7100 8)))) =
        some (some (0x50E00, 6), some 0, some 2, true, true) := by decide +kernel
  rw [hrun, Option.bind_some] at heval
  obtain ⟨⟨r, s'⟩, hret, heq⟩ := Option.map_eq_some_iff.1 heval
  simp only [Prod.mk.injEq, decide_eq_true_eq] at heq
  obtain ⟨hsaved, hcur, hnext, hused, hok⟩ := heq
  obtain ⟨hr, hfpu⟩ := hkept 0x7100 8 r s' 2 _ hok hret hnext (by rw [hcur]; decide) hsaved
  exact ⟨c, r, s', hrun, hret, hnext, hr, (hfpu hused).1⟩

/-- A process is stopped while it runs and interrupted at 0x50E00; then it is continued. -/
def stoppedRun : List TaskOp :=
  [.createUser 0x400000 0x9000 0x8000 0x50000, .schedule 0x7000 5, .signal 2 7, .schedule 0x50E00 6,
    .signal 2 9, .schedule 0x71000 7]

/-- The process is resumed with the stack pointer of its first frame. -/
theorem stopped_context_lost :
    ∃ c r s', Run.runM (contextStep 4096) (.init 4096 0x200000 0x70000) stoppedRun = some c ∧
      c.saved 2 = some (0x50E00, 6) ∧ c.sys.current = some 0 ∧
      scheduleFromIrq 4096 { c.sys with fpu := 8 } 0x7100 = some (r, s') ∧ s'.current = some 2 ∧
      r = 0x50F50 ∧ (s'.tasks 2).fpuState = fpuInitState := by
  have heval : ((Run.runM (contextStep 4096) (.init 4096 0x200000 0x70000) stoppedRun).bind fun c =>
      (scheduleFromIrq 4096 { c.sys with fpu := 8 } 0x7100).map fun q =>
        (c.saved 2, c.sys.current, q.2.current, q.1, (q.2.tasks 2).fpuState)) =
        some (some (0x50E00, 6), some 0, some 2, 0x50F50, fpuInitState) := by decide +kernel
  obtain ⟨c, hrun, heval⟩ := Option.bind_eq_some_iff.1 heval
  obtain ⟨⟨r, s'⟩, hret, heq⟩ := Option.map_eq_some_iff.1 heval
  simp only [Prod.mk.injEq] at heq
  obtain ⟨hsaved, hcur, hnext, hr, hfpu⟩ := heq
  exact ⟨c, r, s', hrun, hsaved, hcur, hret, hnext, hr, hfpu⟩

end PlantOS.Task
