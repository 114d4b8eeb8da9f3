import PlantOS.Task.RunList

/-!
# Scheduling

A scheduling step saves the stack pointer of the running task, and if another task is ready it switches to
the first one on the run list. It keeps the run list, except if `signal_deliver` ends the task that has just
become the running one: then the running task is not in use and not on the list.
-/

namespace PlantOS.Task

open TaskSys LinkRing

variable {bootCr3 : ℕ} {s s' s'' : TaskSys} {h i j : Slot} {l : List Slot} {op : TaskOp}

/-! ## Scheduling -/

/-- The lowest pending signal of the task ends it: it is SIGKILL, or it has no handler. -/
def Tcb.doomed (t : Tcb) : Bool :=
  t.isUser && match t.nextSignal with
    | none => false
    | some sig => t.isFatal sig

/-- The task that `schedule_from_irq` switches to: the first one behind the running task that is ready. -/
def chosen (s : TaskSys) : Option Slot :=
  s.current.bind fun cur => (s.tasks cur).next.bind fun start =>
    (seek s.links (fun i => (s.tasks i).state == .ready) start 64 start).bind fun i =>
      if (s.tasks i).state = .ready then some i else none

theorem chosen_ready (hc : chosen s = some i) : (s.tasks i).state = .ready := by
  simp only [chosen, Option.bind_eq_some_iff] at hc
  obtain ⟨cur, -, start, -, j, -, hj⟩ := hc
  split_ifs at hj with hready
  obtain rfl : j = i := Option.some.inj hj
  exact hready

section

variable {cur next : Slot} {oldRsp : ℕ}

/-- Saving the stack pointer changes it, for a task that is alive. -/
theorem tasks_saveRsp (s : TaskSys) (cur : Slot) (oldRsp : ℕ) (j : Slot) :
    ∃ ticks, (saveRsp s cur oldRsp).tasks j = { s.tasks j with
      rsp := if j = cur ∧ (s.tasks cur).state.alive then oldRsp else (s.tasks j).rsp
      ticks := ticks } := by
  rw [saveRsp]
  by_cases halive : (s.tasks cur).state.alive = true
  · rw [if_pos halive]
    by_cases hj : j = cur
    · subst hj
      rw [tasks_modify_self, if_pos ⟨rfl, halive⟩]
      exact ⟨_, rfl⟩
    · rw [tasks_modify_ne hj, if_neg fun hand => hj hand.1]
      exact ⟨_, rfl⟩
  · rw [if_neg halive, if_neg fun hand => halive hand.2]
    exact ⟨_, rfl⟩

@[simp] theorem state_saveRsp (j : Slot) :
    ((saveRsp s cur oldRsp).tasks j).state = (s.tasks j).state := by
  obtain ⟨ticks, h⟩ := tasks_saveRsp s cur oldRsp j
  rw [h]

@[simp] theorem links_saveRsp : (saveRsp s cur oldRsp).links = s.links := by
  funext j
  obtain ⟨ticks, h⟩ := tasks_saveRsp s cur oldRsp j
  rw [links, h]
  rfl

@[simp] theorem current_saveRsp : (saveRsp s cur oldRsp).current = s.current := by
  rw [saveRsp]
  split_ifs <;> rfl

@[simp] theorem cr3_saveRsp : (saveRsp s cur oldRsp).cr3 = s.cr3 := by
  rw [saveRsp]
  split_ifs <;> rfl

@[simp] theorem fpu_saveRsp : (saveRsp s cur oldRsp).fpu = s.fpu := by
  rw [saveRsp]
  split_ifs <;> rfl

/-- Saving the stack pointer changes neither the list nor the states. -/
theorem taskInv_saveRsp (hs : TaskInv bootCr3 s) : TaskInv bootCr3 (saveRsp s cur oldRsp) where
  ring := by
    obtain ⟨h, l, hr⟩ := hs.ring
    refine ⟨h, l, current_saveRsp.trans hr.current, by rw [links_saveRsp]; exact hr.ring, fun j => ?_⟩
    rw [state_saveRsp]
    exact hr.mem j
  space c hc := by
    obtain ⟨ticks, h⟩ := tasks_saveRsp s cur oldRsp c
    rw [cr3_saveRsp, h]
    exact hs.space c (current_saveRsp.symm.trans hc)

/-- `schedule_from_irq` goes on with the running task if no task is ready, and switches to the first one that
is ready otherwise. -/
theorem scheduleFromIrq_eq (hs : TaskInv bootCr3 s) (oldRsp : ℕ) :
    ∃ cur, s.current = some cur ∧ (s.tasks cur).state ≠ .unused ∧
      scheduleFromIrq bootCr3 s oldRsp = match chosen s with
        | none => some (oldRsp, saveRsp s cur oldRsp)
        | some next => resumeNext (switchTo bootCr3 (saveRsp s cur oldRsp) cur next) next oldRsp := by
  obtain ⟨h, l, hr⟩ := hs.ring
  obtain ⟨start, hstart, hnext⟩ := hr.ring.exists_next
  obtain ⟨l', hring, -⟩ := hr.ring.exists_rotate hstart
  have hnext : (s.tasks h).next = some start := hnext
  -- the search is the same before and after the stack pointer is saved
  have hseek : ∀ p, seek s.links p start 64 start = some (((start :: l').find? p).getD start) :=
    fun p => hring.seek_eq (length_lt_of_nodup hring.nodup) p
  refine ⟨h, hr.current, hr.current_ne_unused, ?_⟩
  rw [scheduleFromIrq, chosen, hr.current, Option.bind_some, hnext, Option.bind_some]
  simp only [hnext, links_saveRsp, state_saveRsp, hseek, Option.bind_some]
  generalize ((start :: l').find? fun i => (s.tasks i).state == .ready).getD start = i
  by_cases hready : (s.tasks i).state = .ready
  · rw [if_neg (not_not.2 hready), if_pos hready]
  · rw [if_pos hready, if_neg hready]

/-- The task that is switched to runs, and the other one is switched out. -/
theorem tasks_switchTo (j : Slot) :
    (switchTo bootCr3 s cur next).tasks j =
      let t := if j = cur then (s.tasks j).switchOut s.fpu else s.tasks j
      if j = next then { t with state := .running } else t := by
  rw [switchTo]
  dsimp only
  by_cases hn : j = next
  · subst hn
    rw [tasks_modify_self, if_pos rfl]
    by_cases hc : j = cur
    · subst hc
      rw [tasks_modify_self, if_pos rfl]
    · rw [tasks_modify_ne hc, if_neg hc]
  · rw [tasks_modify_ne hn, if_neg hn]
    by_cases hc : j = cur
    · subst hc
      rw [tasks_modify_self, if_pos rfl]
    · rw [tasks_modify_ne hc, if_neg hc]

/-- Apart from the state and the FPU state a task that is switched out is the same. -/
theorem switchOut_eq (t : Tcb) (fpu : FpuState) :
    ∃ state fpuState, t.switchOut fpu = { t with state := state, fpuState := fpuState } ∧
      (state = .unused ↔ t.state = .unused) := by
  rw [Tcb.switchOut]
  by_cases halive : t.state.alive = true
  · rw [if_pos halive]
    refine ⟨_, _, rfl, ?_⟩
    cases hstate : t.state <;> simp_all [TaskState.alive]
  · rw [if_neg halive]
    exact ⟨_, _, rfl, Iff.rfl⟩

theorem tasks_switchTo_eq (bootCr3 : ℕ) (cur : Slot) (hu : (s.tasks next).state ≠ .unused) (j : Slot) :
    ∃ state fpuState, (switchTo bootCr3 s cur next).tasks j =
      { s.tasks j with state := state, fpuState := fpuState } ∧
        (state = .unused ↔ (s.tasks j).state = .unused) := by
  rw [tasks_switchTo]
  obtain ⟨state, fpuState, hout, hstate⟩ := switchOut_eq (s.tasks j) s.fpu
  by_cases hn : j = next
  · subst hn
    rw [if_pos rfl]
    by_cases hc : j = cur
    · rw [if_pos hc, hout]
      exact ⟨_, _, rfl, by simp [hu]⟩
    · rw [if_neg hc]
      exact ⟨_, _, rfl, by simp [hu]⟩
  · rw [if_neg hn]
    by_cases hc : j = cur
    · rw [if_pos hc, hout]
      exact ⟨_, _, rfl, hstate⟩
    · rw [if_neg hc]
      exact ⟨_, _, rfl, Iff.rfl⟩

theorem links_switchTo (hu : (s.tasks next).state ≠ .unused) :
    (switchTo bootCr3 s cur next).links = s.links := by
  funext j
  obtain ⟨state, fpuState, htask, -⟩ := tasks_switchTo_eq bootCr3 cur hu j
  rw [links, htask]
  rfl

theorem space_switchTo (bootCr3 : ℕ) (cur : Slot) (hu : (s.tasks next).state ≠ .unused) (j : Slot) :
    ((switchTo bootCr3 s cur next).tasks j).space bootCr3 = (s.tasks j).space bootCr3 := by
  obtain ⟨state, fpuState, htask, -⟩ := tasks_switchTo_eq bootCr3 cur hu j
  rw [htask]
  rfl

/-- The context switch enters the address space of the task that it switches to. -/
theorem cr3_switchTo (hu : (s.tasks next).state ≠ .unused)
    (hcr3 : s.cr3 = (s.tasks cur).space bootCr3) :
    (switchTo bootCr3 s cur next).cr3 = (s.tasks next).space bootCr3 := by
  have hc := space_switchTo bootCr3 cur hu cur
  have hn := space_switchTo bootCr3 cur hu next
  have heq : (switchTo bootCr3 s cur next).cr3 =
      if ((switchTo bootCr3 s cur next).tasks next).space bootCr3 ≠
        ((switchTo bootCr3 s cur next).tasks cur).space bootCr3
      then ((switchTo bootCr3 s cur next).tasks next).space bootCr3 else s.cr3 := rfl
  rw [heq, hc, hn]
  split_ifs with hne
  · rfl
  · rw [hcr3]
    exact (not_not.1 hne).symm

/-- The switch to a task in use. -/
theorem taskInv_switchTo (hs : TaskInv bootCr3 s) (hcur : s.current = some cur)
    (hu : (s.tasks next).state ≠ .unused) : TaskInv bootCr3 (switchTo bootCr3 s cur next) where
  ring := by
    obtain ⟨h, l, hr⟩ := hs.ring
    obtain ⟨l', hring, hmem⟩ := hr.ring.exists_rotate ((hr.mem next).2 hu)
    refine ⟨next, l', rfl, by rw [links_switchTo hu]; exact hring, fun j => ?_⟩
    obtain ⟨state, fpuState, htask, hstate⟩ := tasks_switchTo_eq bootCr3 cur hu j
    rw [hmem j, hr.mem j, htask]
    exact (not_congr hstate).symm
  space c hc := by
    obtain rfl : next = c := Option.some.inj hc
    rw [cr3_switchTo hu (hs.space cur hcur), space_switchTo bootCr3 cur hu]

theorem Tcb.doomed_iff {t : Tcb} :
    t.doomed = true ↔ t.isUser = true ∧ ∃ sig, t.nextSignal = some sig ∧ t.isFatal sig = true := by
  rw [Tcb.doomed, Bool.and_eq_true]
  cases t.nextSignal <;> simp

/-- Delivering a signal that has a handler changes the saved frame and the pending signals. -/
theorem signalDeliver_of_not_doomed (hpending : (s.tasks i).pendingSignals ≠ 0)
    (huser : (s.tasks i).isUser = true) (hd : (s.tasks i).doomed = false) :
    ∃ s', signalDeliver s i = some s' ∧ Quiet s s' := by
  rw [signalDeliver, if_neg (not_or.2 ⟨hpending, not_not.2 huser⟩)]
  cases hsig : (s.tasks i).nextSignal with
  | none => exact ⟨s, rfl, .refl s⟩
  | some sig =>
    have hfatal : ¬(s.tasks i).isFatal sig = true := by
      intro hfatal
      rw [Tcb.doomed_iff.2 ⟨huser, sig, hsig, hfatal⟩] at hd
      exact absurd hd (by decide)
    dsimp only
    rw [tasks_modify_self, if_neg (by exact hfatal)]
    have hq : Quiet s (s.modify i fun t =>
        { t with pendingSignals := t.pendingSignals &&& ~~~(sigBit sig) }) :=
      quiet_modify (by exact ⟨rfl, rfl, rfl, rfl, rfl, Iff.rfl, id⟩)
    exact ⟨_, rfl, hq.current, hq.cr3, hq.fpu, hq.task⟩

/-- A task that is not ended by a signal is resumed with its stack pointer. -/
theorem resumeNext_of_not_doomed (hu : (s.tasks next).state ≠ .unused)
    (hd : (s.tasks next).doomed = false) (oldRsp : ℕ) :
    ∃ s', resumeNext s next oldRsp = some ((s'.tasks next).rsp, s') ∧ Quiet s s' := by
  rw [resumeNext]
  by_cases hpending : (s.tasks next).pendingSignals ≠ 0 ∧ (s.tasks next).isUser
  · obtain ⟨s', hs', hq⟩ := signalDeliver_of_not_doomed hpending.1 hpending.2 hd
    rw [if_pos hpending, hs', Option.map_some, if_neg ((not_congr (hq.task next).unused).2 hu)]
    exact ⟨s', rfl, hq⟩
  · rw [if_neg hpending]
    exact ⟨s, rfl, .refl s⟩

/-- A task that is ended by a signal is the running one, and its block is given back. -/
theorem resumeNext_of_doomed (hd : (s.tasks next).doomed = true) {r : ℕ}
    (hr : resumeNext s next oldRsp = some (r, s')) :
    s'.current = s.current ∧ (s'.tasks next).state = .unused := by
  obtain ⟨huser, sig, hsig, hfatal⟩ := Tcb.doomed_iff.1 hd
  have hpending : (s.tasks next).pendingSignals ≠ 0 := by
    intro hzero
    simp [Tcb.nextSignal, hzero] at hsig
  rw [resumeNext, if_pos ⟨hpending, huser⟩, signalDeliver,
    if_neg (not_or.2 ⟨hpending, not_not.2 huser⟩), hsig] at hr
  dsimp only at hr
  rw [tasks_modify_self, if_pos (by exact hfatal), signalTerminate, Option.map_map,
    Option.map_eq_some_iff] at hr
  obtain ⟨prev, -, hr⟩ := hr
  dsimp only [Function.comp] at hr
  rw [tasks_modify_self, if_pos rfl] at hr
  obtain ⟨-, rfl⟩ := Prod.mk.inj hr
  refine ⟨?_, by rw [tasks_modify_self]⟩
  split_ifs <;> rfl

theorem doomed_switchTo (hu : (s.tasks next).state ≠ .unused) (j : Slot) :
    ((switchTo bootCr3 s cur next).tasks j).doomed = (s.tasks j).doomed := by
  obtain ⟨state, fpuState, htask, -⟩ := tasks_switchTo_eq bootCr3 cur hu j
  rw [htask]
  rfl

theorem doomed_saveRsp (j : Slot) :
    ((saveRsp s cur oldRsp).tasks j).doomed = (s.tasks j).doomed := by
  obtain ⟨ticks, htask⟩ := tasks_saveRsp s cur oldRsp j
  rw [htask]
  rfl

/-- The task that is switched to is not ended by a signal. -/
def SignalsHandled (s : TaskSys) : TaskOp → Prop
  | .schedule _ _ => ∀ i, chosen s = some i → (s.tasks i).doomed = false
  | _ => True

instance (s : TaskSys) : DecidablePred (SignalsHandled s)
  | .schedule _ _ =>
    decidable_of_iff ((chosen s).all fun i => !(s.tasks i).doomed) (by
      rw [SignalsHandled]
      cases chosen s <;> simp)
  | .create _ _ | .kthread _ _ _ _ | .createUser _ _ _ _ | .createElf _ _ _ _ _ _ _ | .fork _ _ _
  | .exit _ | .waitpid _ | .waitpidWoken _ | .kill _ | .block _ | .wakeOne _ | .wakeAll _ | .stop _
  | .resume _ | .signal _ _ | .register _ _ | .yield => isTrue trivial

/-- A scheduling step that does not end the task it switches to. -/
theorem scheduleFromIrq_spec (hs : TaskInv bootCr3 s)
    (hd : ∀ i, chosen s = some i → (s.tasks i).doomed = false) (oldRsp : ℕ) :
    ∃ cur r s', s.current = some cur ∧ scheduleFromIrq bootCr3 s oldRsp = some (r, s') ∧
      TaskInv bootCr3 s' ∧ match chosen s with
        | none => r = oldRsp ∧ s' = saveRsp s cur oldRsp
        | some next => r = (s'.tasks next).rsp ∧
          Quiet (switchTo bootCr3 (saveRsp s cur oldRsp) cur next) s' := by
  obtain ⟨cur, hcur, -, heq⟩ := scheduleFromIrq_eq hs oldRsp
  rw [heq]
  cases hc : chosen s with
  | none => exact ⟨cur, oldRsp, _, hcur, rfl, taskInv_saveRsp hs, rfl, rfl⟩
  | some next =>
    have hu : ((saveRsp s cur oldRsp).tasks next).state ≠ .unused := by
      rw [state_saveRsp, chosen_ready hc]
      decide
    have hinv := taskInv_switchTo (taskInv_saveRsp hs) (current_saveRsp.trans hcur) hu
    have hrun : ((switchTo bootCr3 (saveRsp s cur oldRsp) cur next).tasks next).state ≠ .unused := by
      obtain ⟨h, l, hr⟩ := hinv.ring
      obtain rfl : next = h := Option.some.inj hr.current
      exact hr.current_ne_unused
    obtain ⟨s', hs', hq⟩ := resumeNext_of_not_doomed hrun
      (by rw [doomed_switchTo hu, doomed_saveRsp]; exact hd next hc) oldRsp
    exact ⟨cur, _, s', hcur, hs', hq.taskInv hinv, rfl, hq⟩

end

/-! ## All calls -/

/-- What a call keeps that is not a scheduling step. -/
theorem taskCall_spec (hs : TaskInv bootCr3 s) (hruns : s.currentRuns || op.fromIrq)
    (hop : ∀ oldRsp fpu, op ≠ .schedule oldRsp fpu) :
    ∃ s', taskCall bootCr3 s op = some s' ∧ Keeps bootCr3 s s' := by
  obtain ⟨h, l, hr⟩ := hs.ring
  have quiet : ∀ {r : Option TaskSys}, (∃ s', r = some s' ∧ Quiet s s') →
      ∃ s', r = some s' ∧ Keeps bootCr3 s s' := by
    rintro r ⟨s', hs', hq⟩
    exact ⟨s', hs', .of_quiet hs hq⟩
  cases op with
  | create entry stack => exact ⟨_, rfl, keeps_taskCreate hs entry stack⟩
  | kthread trampoline fn arg stack => exact ⟨_, rfl, keeps_kthreadCreate hs trampoline fn arg stack⟩
  | createUser entry cr3 ustack kstack =>
    exact ⟨_, rfl, keeps_taskCreateUser hs entry cr3 ustack kstack⟩
  | createElf entry base npages cr3 argv ustack kstack =>
    exact ⟨_, rfl, keeps_taskCreateElf hs entry base npages cr3 argv ustack kstack⟩
  | fork regs cr3 kstack => exact ⟨_, rfl, keeps_taskFork hs regs cr3 kstack⟩
  | exit code =>
    cases code with
    | none => exact taskExit_spec hs
    | some code =>
      have hq := quiet_setExitCode s code
      obtain ⟨s', hs', hk⟩ := taskExit_spec (hq.taskInv hs)
      exact ⟨s', hs', hq.keeps_trans hs hk⟩
  | waitpid pid => exact taskWaitpid_spec hs (by simpa [TaskOp.fromIrq] using hruns) pid
  | waitpidWoken pid => exact taskWaitpidWoken_spec hs (by simpa [TaskOp.fromIrq] using hruns) pid
  | kill pid => exact taskKill_spec hs pid
  | block channel => exact quiet ⟨_, rfl, quiet_taskBlock hr (by simpa [TaskOp.fromIrq] using hruns) channel⟩
  | wakeOne channel => exact quiet (taskWakeOne_spec hr channel)
  | wakeAll channel =>
    obtain ⟨s', hs', hq, -⟩ := taskWakeAll_spec hr channel
    exact quiet ⟨s', hs', hq⟩
  | stop i => exact quiet (taskStop_spec hr i)
  | resume i => exact quiet ⟨_, rfl, quiet_taskContinue s i⟩
  | signal pid signum => exact quiet (signalSend_spec hr pid signum)
  | register signum handler => exact quiet ⟨_, rfl, quiet_signalRegister s signum handler⟩
  | yield => exact quiet ⟨_, rfl, quiet_sysYield hr⟩
  | schedule oldRsp fpu => exact absurd rfl (hop oldRsp fpu)

/-- The FPU is not in the task table. -/
theorem setFpu_inv (hs : TaskInv bootCr3 s) (fpu : FpuState) : TaskInv bootCr3 { s with fpu := fpu } where
  ring := by
    obtain ⟨h, l, hr⟩ := hs.ring
    exact ⟨h, l, hr.current, hr.ring, hr.mem⟩
  space := hs.space

/-- One step keeps the run list, unless a signal ends the task that it switches to. -/
theorem taskStep_spec (hs : TaskInv bootCr3 s) (op : TaskOp) (hok : SignalsHandled s op) :
    ∃ s', taskStep bootCr3 s op = some s' ∧ TaskInv bootCr3 s' := by
  rw [taskStep]
  split_ifs with hruns
  · by_cases hop : ∃ oldRsp fpu, op = .schedule oldRsp fpu
    · obtain ⟨oldRsp, fpu, rfl⟩ := hop
      obtain ⟨cur, r, s', -, hs', hinv, -⟩ := scheduleFromIrq_spec (setFpu_inv hs fpu) hok oldRsp
      exact ⟨s', by rw [taskCall, hs', Option.map_some], hinv⟩
    · obtain ⟨s', hs', hk⟩ := taskCall_spec hs hruns fun oldRsp fpu heq => hop ⟨oldRsp, fpu, heq⟩
      exact ⟨s', hs', hk.inv⟩
  · exact ⟨s, rfl, hs⟩

/-! ## The walks -/

/-- `signal_deliver` finds the predecessor of the task that it ends. -/
theorem signalTerminate_isSome (hr : RunList s h l) (hu : (s.tasks i).state ≠ .unused) :
    (signalTerminate s i).isSome := by
  obtain ⟨l', hring, -⟩ := hr.ring.exists_rotate ((hr.mem i).2 hu)
  have hlinks : (s.modify i fun t =>
      { t with elfLoadBase := if t.elfNumPages > 0 then 0 else t.elfLoadBase
               elfNumPages := 0, stackBase := 0, kstackBase := 0 }).links = s.links := by
    rw [links_modify]
    exact Function.update_eq_self i s.links
  rw [signalTerminate, hlinks, hring.prevOf_eq (length_lt_of_nodup hring.nodup)]
  rfl

theorem signalDeliver_isSome (hr : RunList s h l) (hu : (s.tasks i).state ≠ .unused) :
    (signalDeliver s i).isSome := by
  rw [signalDeliver]
  split_ifs
  · rfl
  cases (s.tasks i).nextSignal with
  | none => rfl
  | some sig =>
    have hq : Quiet s (s.modify i fun t =>
        { t with pendingSignals := t.pendingSignals &&& ~~~(sigBit sig) }) :=
      quiet_modify (by exact ⟨rfl, rfl, rfl, rfl, rfl, Iff.rfl, id⟩)
    dsimp only
    split_ifs
    · exact signalTerminate_isSome (hq.runList hr) ((not_congr (hq.task i).unused).2 hu)
    · rfl

/-- A scheduling step comes to its end, also if it ends a task. -/
theorem scheduleFromIrq_isSome (hs : TaskInv bootCr3 s) (oldRsp : ℕ) :
    (scheduleFromIrq bootCr3 s oldRsp).isSome := by
  obtain ⟨cur, hcur, -, heq⟩ := scheduleFromIrq_eq hs oldRsp
  rw [heq]
  cases hc : chosen s with
  | none => rfl
  | some next =>
    have hu : ((saveRsp s cur oldRsp).tasks next).state ≠ .unused := by
      rw [state_saveRsp, chosen_ready hc]
      decide
    have hinv := taskInv_switchTo (taskInv_saveRsp hs) (current_saveRsp.trans hcur) hu
    obtain ⟨h, l, hr⟩ := hinv.ring
    obtain rfl : next = h := Option.some.inj hr.current
    dsimp only
    rw [resumeNext]
    split_ifs
    · rw [Option.isSome_map]
      exact signalDeliver_isSome hr hr.current_ne_unused
    · rfl

theorem taskYield_isSome (hr : RunList s h l) (oldRsp : ℕ) : (taskYield s oldRsp).isSome := by
  obtain ⟨start, hstart, hnext⟩ := hr.ring.exists_next
  obtain ⟨l', hring, -⟩ := hr.ring.exists_rotate hstart
  have hnext : (s.tasks h).next = some start := hnext
  rw [taskYield, hr.current]
  dsimp only
  rw [hnext]
  dsimp only
  rw [hring.seek_eq (length_lt_of_nodup hring.nodup)]
  rfl

/-- The walks over the run list come to their end. -/
structure WalksEnd (bootCr3 : ℕ) (s : TaskSys) : Prop where
  wakeOne : ∀ channel, (taskWakeOne s channel).isSome
  wakeAll : ∀ channel, (taskWakeAll s channel).isSome
  yield : ∀ oldRsp, (taskYield s oldRsp).isSome
  schedule : ∀ oldRsp, (scheduleFromIrq bootCr3 s oldRsp).isSome

/-- The run list is a ring, so the walks over it end. -/
theorem TaskInv.walksEnd (hs : TaskInv bootCr3 s) : WalksEnd bootCr3 s := by
  obtain ⟨h, l, hr⟩ := hs.ring
  refine ⟨fun channel => ?_, fun channel => ?_, taskYield_isSome hr, scheduleFromIrq_isSome hs⟩
  · obtain ⟨s', hs', -⟩ := taskWakeOne_spec hr channel
    rw [hs']
    rfl
  · obtain ⟨s', hs', -⟩ := taskWakeAll_spec hr channel
    rw [hs']
    rfl

/-! ## Runs -/

/-- The kernel task is the first block of the table. -/
theorem taskCreate_boot (bootCr3 : ℕ) :
    (taskCreate (.boot bootCr3) none 0).2 =
      ({ TaskSys.boot bootCr3 with nextPid := 1 }.modify 0 fun _ =>
        { Tcb.zero with state := .ready }).modify 0 fun t => { t with next := some 0 } := rfl

/-- The state in which `sched_init` creates the idle task: the kernel task runs and is alone on the list. -/
theorem taskInv_kernelTask (bootCr3 : ℕ) :
    TaskInv bootCr3 { (taskCreate (.boot bootCr3) none 0).2.modify 0 fun t =>
      { t with state := .running } with current := some 0 } := by
  rw [taskCreate_boot]
  refine ⟨⟨0, [], rfl, ⟨rfl, by simp⟩, fun i => ?_⟩, ?_⟩
  · by_cases hi : i = 0
    · subst hi
      simp
    · simp [hi, TaskSys.boot, Tcb.zero]
  · rintro cur ⟨⟩
    rfl

/-- After `sched_init` the kernel task runs, and the idle task is behind it on the list. -/
theorem taskInv_schedInit (bootCr3 idleEntry idleStack : ℕ) :
    TaskInv bootCr3 (schedInit bootCr3 idleEntry idleStack) :=
  (keeps_taskCreate (taskInv_kernelTask bootCr3) (some idleEntry) idleStack).inv

/-- Run: the invariant after any calls. -/
theorem taskInv_run {s₀ : TaskSys} {ops : List TaskOp} (hs : TaskInv bootCr3 s₀)
    (hops : Run.AdmitsM (taskStep bootCr3) SignalsHandled s₀ ops) :
    ∃ s, Run.runM (taskStep bootCr3) s₀ ops = some s ∧ TaskInv bootCr3 s :=
  Run.runM_invariant (fun _ op hinv hok => taskStep_spec hinv op hok) hs hops

/-- In every run in which no signal ends the task that is switched to, the calls return, the `next` pointers
lead from the running task through exactly the blocks in use and back, and all walks come to their end. -/
theorem run_list_of_admits {idleEntry idleStack : ℕ} {ops : List TaskOp}
    (hops : Run.AdmitsM (taskStep bootCr3) SignalsHandled (schedInit bootCr3 idleEntry idleStack) ops) :
    ∃ s, Run.runM (taskStep bootCr3) (schedInit bootCr3 idleEntry idleStack) ops = some s ∧
      (∃ h l, RunList s h l) ∧ WalksEnd bootCr3 s := by
  obtain ⟨s, hs, hinv⟩ := taskInv_run (taskInv_schedInit bootCr3 idleEntry idleStack) hops
  exact ⟨s, hs, hinv.ring, hinv.walksEnd⟩

/-- A process with a handler is forked, signalled and resumed; its child is killed. -/
def handledRun : List TaskOp :=
  [.createUser 0x400000 0x9000 0x8000 0x50000, .schedule 0x7000 0, .register 3 0x401000,
    .fork (fun _ => 0) 0xA000 0x60000, .signal 2 3, .schedule 0x50F00 0, .schedule 0x60F00 0,
    .schedule 0x71000 0, .schedule 0x7000 0, .kill 3]

theorem run_list_handled :
    ∃ s, Run.runM (taskStep 4096) (schedInit 4096 0x200000 0x70000) handledRun = some s ∧
      (∃ h l, RunList s h l) ∧ WalksEnd 4096 s :=
  run_list_of_admits (by decide +kernel)

/-- A process is created and gets SIGKILL, and the timer interrupts the kernel task: the process becomes the
running task, and its block is given back. -/
def killedRun : List TaskOp :=
  [.createUser 0x400000 0x9000 0x8000 0x50000, .signal 2 1]

theorem run_list_broken :
    ∃ s, Run.runM (taskStep 4096) (schedInit 4096 0x200000 0x70000) (killedRun ++ [.schedule 0x7000 0]) =
      some s ∧ ¬∃ h l, RunList s h l := by
  have hrun : (Run.runM (taskStep 4096) (schedInit 4096 0x200000 0x70000)
      (killedRun ++ [.schedule 0x7000 0])).map (fun s => (s.current, (s.tasks 2).state)) =
        some (some 2, .unused) := by decide +kernel
  obtain ⟨s, hs, heq⟩ := Option.map_eq_some_iff.1 hrun
  obtain ⟨hcur, hstate⟩ := Prod.mk.inj heq
  refine ⟨s, hs, ?_⟩
  rintro ⟨h, l, hr⟩
  obtain rfl : h = 2 := Option.some.inj (hr.current.symm.trans hcur)
  exact hr.current_ne_unused hstate

/-! ## What a scheduling step leaves -/

/-- `schedule_from_irq` has returned `r` and left `s'`: `r` is the stack pointer of the task that runs now, or
the interrupted one if it goes on, this task is in use and on the run list, and the processor is in its
address space. -/
def Agrees (bootCr3 : ℕ) (s : TaskSys) (oldRsp r : ℕ) (s' : TaskSys) : Prop :=
  ∃ cur, s'.current = some cur ∧ (r = (s'.tasks cur).rsp ∨ (s'.current = s.current ∧ r = oldRsp)) ∧
    (s'.tasks cur).state ≠ .unused ∧ (∃ l, RunList s' cur l) ∧ s'.cr3 = (s'.tasks cur).space bootCr3

/-- The rest of what `schedule_from_irq` promises comes from the invariant. -/
theorem TaskInv.agrees (hs : TaskInv bootCr3 s') {cur : Slot} (hcur : s'.current = some cur)
    {oldRsp r : ℕ} (hr : r = (s'.tasks cur).rsp ∨ (s'.current = s.current ∧ r = oldRsp)) :
    Agrees bootCr3 s oldRsp r s' := by
  obtain ⟨h, l, hl⟩ := hs.ring
  obtain rfl : h = cur := Option.some.inj (hl.current.symm.trans hcur)
  exact ⟨h, hcur, hr, hl.current_ne_unused, ⟨l, hl⟩, hs.space h hcur⟩

/-- `schedule_from_irq` returns the stack pointer of the task that runs now. -/
theorem scheduleFromIrq_agrees (hs : TaskInv bootCr3 s)
    (hd : ∀ i, chosen s = some i → (s.tasks i).doomed = false) (oldRsp : ℕ) :
    ∃ r s', scheduleFromIrq bootCr3 s oldRsp = some (r, s') ∧ Agrees bootCr3 s oldRsp r s' := by
  obtain ⟨cur, r, s', hcur, hs', hinv, hcase⟩ := scheduleFromIrq_spec hs hd oldRsp
  refine ⟨r, s', hs', ?_⟩
  cases hc : chosen s with
  | none =>
    rw [hc] at hcase
    obtain ⟨rfl, rfl⟩ := hcase
    exact hinv.agrees (current_saveRsp.trans hcur) (.inr ⟨current_saveRsp, rfl⟩)
  | some next =>
    rw [hc] at hcase
    obtain ⟨hr, hq⟩ := hcase
    exact hinv.agrees hq.current (.inl hr)

/-- If a signal ends the task that is switched to, the running task is not in use. -/
theorem not_agrees_of_doomed (hs : TaskInv bootCr3 s) (hc : chosen s = some i)
    (hd : (s.tasks i).doomed = true) {oldRsp r : ℕ}
    (hret : scheduleFromIrq bootCr3 s oldRsp = some (r, s')) : ¬Agrees bootCr3 s oldRsp r s' := by
  obtain ⟨cur, -, -, heq⟩ := scheduleFromIrq_eq hs oldRsp
  rw [heq, hc] at hret
  have hu : ((saveRsp s cur oldRsp).tasks i).state ≠ .unused := by
    rw [state_saveRsp, chosen_ready hc]
    decide
  obtain ⟨hcur, hstate⟩ := resumeNext_of_doomed
    (by rw [doomed_switchTo hu, doomed_saveRsp]; exact hd) hret
  rintro ⟨c, hc', -, hinUse, -⟩
  obtain rfl : i = c := Option.some.inj (hcur.symm.trans hc')
  exact hinUse hstate

/-- In every run in which no signal has ended a task that was switched to, a scheduling step leaves the
stack pointer, the running task, the run list and the address space in agreement if and only if no signal
ends the task that it switches to. -/
theorem schedule_agrees_iff {idleEntry idleStack : ℕ} {ops : List TaskOp}
    (hops : Run.AdmitsM (taskStep bootCr3) SignalsHandled (schedInit bootCr3 idleEntry idleStack) ops)
    (hs : Run.runM (taskStep bootCr3) (schedInit bootCr3 idleEntry idleStack) ops = some s)
    (oldRsp : ℕ) (fpu : FpuState) :
    (∃ r s', scheduleFromIrq bootCr3 { s with fpu := fpu } oldRsp = some (r, s') ∧
      Agrees bootCr3 s oldRsp r s') ↔ ∀ i, chosen s = some i → (s.tasks i).doomed = false := by
  obtain ⟨s₁, hs₁, hinv⟩ := taskInv_run (taskInv_schedInit bootCr3 idleEntry idleStack) hops
  obtain rfl : s = s₁ := Option.some.inj (hs.symm.trans hs₁)
  constructor
  · rintro ⟨r, s', hret, hagrees⟩ i hc
    by_contra hd
    exact not_agrees_of_doomed (setFpu_inv hinv fpu) hc (by simpa using hd) hret hagrees
  · exact fun hd => scheduleFromIrq_agrees (setFpu_inv hinv fpu) hd oldRsp

/-- An interrupt after `handledRun`. -/
theorem schedule_agrees_handled :
    ∃ s, Run.runM (taskStep 4096) (schedInit 4096 0x200000 0x70000) handledRun = some s ∧
      ((∃ r s', scheduleFromIrq 4096 { s with fpu := 0 } 0x7000 = some (r, s') ∧
        Agrees 4096 s 0x7000 r s') ↔ ∀ i, chosen s = some i → (s.tasks i).doomed = false) := by
  have hrun : (Run.runM (taskStep 4096) (schedInit 4096 0x200000 0x70000) handledRun).isSome := by
    decide +kernel
  obtain ⟨s, hs⟩ := Option.isSome_iff_exists.1 hrun
  exact ⟨s, hs, schedule_agrees_iff (by decide +kernel) hs 0x7000 0⟩

/-- The interrupted kernel task goes on with its stack pointer, in the address space of the process that has
just ended, whose block is the running task. -/
theorem schedule_to_killed :
    ∃ s r s', Run.runM (taskStep 4096) (schedInit 4096 0x200000 0x70000) killedRun = some s ∧
      scheduleFromIrq 4096 s 0x7000 = some (r, s') ∧ r = 0x7000 ∧ s'.current = some 2 ∧
      (s'.tasks 2).state = .unused ∧ s'.cr3 = 0x9000 ∧ ¬Agrees 4096 s 0x7000 r s' := by
  have hrun : ((Run.runM (taskStep 4096) (schedInit 4096 0x200000 0x70000) killedRun).bind fun s =>
      scheduleFromIrq 4096 s 0x7000).map (fun p => (p.1, p.2.current, (p.2.tasks 2).state, p.2.cr3)) =
        some (0x7000, some 2, .unused, 0x9000) := by decide +kernel
  obtain ⟨⟨r, s'⟩, hret, heq⟩ := Option.map_eq_some_iff.1 hrun
  obtain ⟨s, hs, hret⟩ := Option.bind_eq_some_iff.1 hret
  obtain ⟨hr, hcur, hstate, hcr3⟩ : r = 0x7000 ∧ s'.current = some 2 ∧ (s'.tasks 2).state = .unused ∧
      s'.cr3 = 0x9000 := by simpa using heq
  refine ⟨s, r, s', hs, hret, hr, hcur, hstate, hcr3, ?_⟩
  rintro ⟨c, hc, -, hinUse, -⟩
  obtain rfl : c = 2 := Option.some.inj (hc.symm.trans hcur)
  exact hinUse hstate

end PlantOS.Task
