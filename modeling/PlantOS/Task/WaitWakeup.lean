import PlantOS.Task.Lifetime

/-!
# Waiting for a child, step by step

`task_waitpid` and `task_exit` with a preemption possible between any two of their steps: the parent looks
up the child, tests for ZOMBIE, tests for STOPPED, blocks on the child and is resumed; the child releases its
resources, becomes a zombie and wakes its waiters. The child may also be stopped and continued meanwhile.

`Lost` is the state from which nothing wakes the parent: it is blocked on a child that has ended or is
stopped, and the wakeup has been done. The tests and the block are separate steps, so the child can do all of
its own between them. `waitpid_no_lost_wakeup` says that this is the only way: no state of a run is `Lost`
exactly if the parent never blocks after the wakeup.

Reference: `task/task.c`.
-/

namespace PlantOS.Task

open TaskSys

/-! ## The steps -/

/-- Where the parent is in `task_waitpid`. -/
inductive WaitPc
  | idle
  | testZombie (i : Slot)
  | testStopped (i : Slot)
  | block (i : Slot)
  | waiting
deriving DecidableEq

/-- Where the child is in `task_exit`. -/
inductive ExitPc
  | running | released | zombie | woken
deriving DecidableEq

/-- The task table, the positions of parent and child, and whether `task_stop` of the child still has to wake
its waiters. -/
structure WaitSys where
  sys : TaskSys
  waitPc : WaitPc
  exitPc : ExitPc
  stopping : Bool

/-- A step of the parent or of the child; a step of `task_stop` or `task_continue` of the child; or a switch
to the task `next`, whichever the scheduler chooses, with the stack pointer and the FPU registers at that
time. -/
inductive WaitOp
  | wait
  | exit
  | stop
  | stopWake
  | resume
  | preempt (next : Slot) (oldRsp : ℕ) (fpu : FpuState)

section Step

variable (bootCr3 : ℕ) (p c : Slot) (pid : ℕ)

/-- The next step of `task_waitpid(pid)` by the running task `p`. -/
def waitAdvance (s : WaitSys) : WaitSys :=
  match s.waitPc with
  | .idle =>
    match taskFind s.sys pid with
    | none => s
    | some i =>
      if (s.sys.tasks i).ppid ≠ currentPid s.sys then s else { s with waitPc := .testZombie i }
  | .testZombie i =>
    if (s.sys.tasks i).state = .zombie then { s with sys := (reap s.sys i).getD s.sys, waitPc := .idle }
    else { s with waitPc := .testStopped i }
  | .testStopped i =>
    if (s.sys.tasks i).state = .stopped then { s with waitPc := .idle } else { s with waitPc := .block i }
  | .block i => { s with sys := taskBlock s.sys (.task i), waitPc := .waiting }
  | .waiting =>
    if (s.sys.tasks p).state = .blocked then s
    else { s with sys := (taskWaitpidWoken s.sys pid).getD s.sys, waitPc := .idle }

/-- Leave and release the address space, as `task_exit` does first. -/
def leaveSpace (s : TaskSys) (t : Slot) : TaskSys :=
  if (s.tasks t).cr3 ≠ 0 ∧ (s.tasks t).cr3 ≠ bootCr3 then
    { s with cr3 := bootCr3 }.modify t fun t => { t with cr3 := 0 }
  else s

/-- The next step of `task_exit` by the running task `c`. -/
def exitAdvance (s : WaitSys) : WaitSys :=
  match s.exitPc with
  | .running => { s with sys := leaveSpace bootCr3 s.sys c, exitPc := .released }
  | .released => { s with sys := s.sys.modify c fun t => { t with state := .zombie }, exitPc := .zombie }
  | .zombie => { s with sys := (taskWakeAll s.sys (.task c)).getD s.sys, exitPc := .woken }
  | .woken => s

/-- One step. A walk along the run list that did not end would be skipped; there is none. -/
def waitStep (s : WaitSys) : WaitOp → WaitSys
  | .wait => if s.sys.current = some p then waitAdvance p pid s else s
  | .exit => if s.sys.current = some c then exitAdvance bootCr3 c s else s
  | .stop =>
    if (s.sys.tasks c).state = .unused ∨ (s.sys.tasks c).state = .zombie then s
    else { s with sys := s.sys.modify c fun t => { t with state := .stopped, blockChannel := none }
                  stopping := true }
  | .stopWake =>
    if s.stopping then { s with sys := (taskWakeAll s.sys (.task c)).getD s.sys, stopping := false } else s
  | .resume => { s with sys := taskContinue s.sys c }
  | .preempt next oldRsp fpu =>
    match s.sys.current with
    | none => s
    | some cur =>
      if (s.sys.tasks next).state = .ready then
        { s with sys := switchTo bootCr3 (saveRsp { s.sys with fpu } cur oldRsp) cur next }
      else s

end Step

/-- The child has ended or is stopped, and its waiters have been woken. -/
def WaitSys.WakeupDone (c : Slot) (s : WaitSys) : Prop :=
  ((s.sys.tasks c).state = .zombie ∧ s.exitPc = .woken) ∨
    ((s.sys.tasks c).state = .stopped ∧ s.stopping = false)

instance (c : Slot) (s : WaitSys) : Decidable (s.WakeupDone c) := inferInstanceAs (Decidable (_ ∨ _))

/-- The parent is blocked on the child after its wakeup. -/
def WaitSys.Lost (p c : Slot) (s : WaitSys) : Prop :=
  (s.sys.tasks p).BlockedOn (.task c) ∧ s.WakeupDone c

instance (p c : Slot) (s : WaitSys) : Decidable (s.Lost p c) := inferInstanceAs (Decidable (_ ∧ _))

/-- The parent does not block on the child after its wakeup. -/
def WaitSys.BlocksInTime (p c : Slot) (s : WaitSys) : WaitOp → Prop
  | .wait => s.sys.current = some p → s.waitPc = .block c → ¬s.WakeupDone c
  | _ => True

instance (p c : Slot) (s : WaitSys) : ∀ op, Decidable (s.BlocksInTime p c op)
  | .wait => inferInstanceAs (Decidable (_ → _ → ¬_))
  | .exit | .stop | .stopWake | .resume | .preempt _ _ _ => isTrue trivial

/-! ## What a step keeps -/

section

variable {bootCr3 : ℕ} {p c : Slot} {pid : ℕ}

/-- The run list is in order, the parent has not ended, and it is not lost. -/
structure WaitSys.Inv (bootCr3 : ℕ) (p c : Slot) (s : WaitSys) : Prop where
  tasks : TaskInv bootCr3 s.sys
  inUse : (s.sys.tasks p).state ≠ .unused
  alive : (s.sys.tasks p).state ≠ .zombie
  waits : ¬s.Lost p c

/-- Giving a block back changes only the links of the other tasks. -/
theorem tasks_reap_ne {s s' : TaskSys} {i j : Slot} (hw : reap s i = some s') (hj : j ≠ i) :
    ∃ next, s'.tasks j = { s.tasks j with next := next } := by
  obtain ⟨s₁, hs₁, rfl⟩ := Option.map_eq_some_iff.1 hw
  rw [tasks_modify_ne hj]
  rw [taskUnlink] at hs₁
  split_ifs at hs₁
  · cases hs₁
    exact ⟨_, rfl⟩
  · obtain ⟨prev, -, rfl⟩ := Option.map_eq_some_iff.1 hs₁
    by_cases hjp : j = prev
    · subst hjp
      rw [tasks_modify_self]
      exact ⟨_, rfl⟩
    · rw [tasks_modify_ne hjp]
      exact ⟨_, rfl⟩

/-- A state in which a task does not run and is not about to. -/
def TaskState.rests : TaskState → Bool
  | .blocked | .zombie | .stopped | .unused => true
  | .ready | .running => false

/-- Switching a task out changes neither a state in which it rests nor what it is blocked on. -/
theorem rests_switchOut (t : Tcb) (fpu : FpuState) :
    (t.switchOut fpu).blockChannel = t.blockChannel ∧
      ((t.switchOut fpu).state.rests → (t.switchOut fpu).state = t.state) := by
  rw [Tcb.switchOut]
  split
  · refine ⟨rfl, fun h => ?_⟩
    dsimp only at h ⊢
    split_ifs at h ⊢
    · cases h
    · rfl
  · exact ⟨rfl, fun _ => rfl⟩

/-- Switching tasks brings no task to rest. -/
theorem rests_preempt {s : TaskSys} {cur next : Slot} {oldRsp : ℕ} {fpu : FpuState} {j : Slot}
    (h : ((switchTo bootCr3 (saveRsp { s with fpu } cur oldRsp) cur next).tasks j).state.rests) :
    ((switchTo bootCr3 (saveRsp { s with fpu } cur oldRsp) cur next).tasks j).state = (s.tasks j).state ∧
      ((switchTo bootCr3 (saveRsp { s with fpu } cur oldRsp) cur next).tasks j).blockChannel
        = (s.tasks j).blockChannel := by
  obtain ⟨ticks, hsave⟩ := tasks_saveRsp { s with fpu } cur oldRsp j
  rw [tasks_switchTo] at h ⊢
  rw [hsave] at h ⊢
  dsimp only at h ⊢
  by_cases hnext : j = next
  · rw [if_pos hnext] at h
    cases h
  rw [if_neg hnext] at h ⊢
  by_cases hcur : j = cur
  · rw [if_pos hcur] at h ⊢
    obtain ⟨hchannel, hstate⟩ := rests_switchOut { s.tasks j with
      rsp := if j = cur ∧ (s.tasks cur).state.alive = true then oldRsp else (s.tasks j).rsp
      ticks := ticks } (saveRsp { s with fpu } cur oldRsp).fpu
    exact ⟨hstate h, hchannel⟩
  · rw [if_neg hcur]
    exact ⟨rfl, rfl⟩

namespace WaitSys.Inv

variable {s : WaitSys}

/-- A step that leaves the states of parent and child as they are, or brings them out of rest. -/
theorem mono (h : s.Inv bootCr3 p c) {s' : WaitSys} (htasks : TaskInv bootCr3 s'.sys)
    (hparent : (s'.sys.tasks p).state.rests → (s'.sys.tasks p).state = (s.sys.tasks p).state)
    (hlost : s'.Lost p c → s.Lost p c) : s'.Inv bootCr3 p c where
  tasks := htasks
  inUse hu := h.inUse ((hparent (by rw [hu]; rfl)).symm.trans hu)
  alive hz := h.alive ((hparent (by rw [hz]; rfl)).symm.trans hz)
  waits hl := h.waits (hlost hl)

theorem ne_of_zombie (h : s.Inv bootCr3 p c) {i : Slot} (hz : (s.sys.tasks i).state = .zombie) : p ≠ i := by
  rintro rfl
  exact h.alive hz

/-- The parent gives the block of a zombie back. -/
theorem reap (h : s.Inv bootCr3 p c) (hcur : s.sys.current = some p) {i : Slot}
    (hz : (s.sys.tasks i).state = .zombie) (pc : WaitPc) :
    WaitSys.Inv bootCr3 p c { s with sys := (reap s.sys i).getD s.sys, waitPc := pc } := by
  have hpi := h.ne_of_zombie hz
  obtain ⟨s', hs', hk⟩ := reap_spec h.tasks (i := i) (by rw [hcur]; exact fun h => hpi (Option.some.inj h))
    (by rw [hz]; decide)
  rw [hs', Option.getD_some]
  obtain ⟨next, hp⟩ := tasks_reap_ne hs' hpi
  refine h.mono hk.inv (fun _ => by dsimp only; rw [hp]) fun hlost => ⟨?_, ?_⟩
  · have hb := hlost.1
    dsimp only at hb
    rw [hp] at hb
    exact hb
  · by_cases hci : c = i
    · subst hci
      have hu := (sameBut_reap hs').2
      rcases hlost.2 with ⟨hc, -⟩ | ⟨hc, -⟩
      · exact absurd (hu.symm.trans hc) (by decide)
      · exact absurd (hu.symm.trans hc) (by decide)
    · obtain ⟨next', hc⟩ := tasks_reap_ne hs' hci
      have hd := hlost.2
      simp only [WakeupDone] at hd
      rw [hc] at hd
      exact hd

theorem woken (h : s.Inv bootCr3 p c) (hcur : s.sys.current = some p) (pid : ℕ) :
    WaitSys.Inv bootCr3 p c
      { s with sys := (taskWaitpidWoken s.sys pid).getD s.sys, waitPc := .idle } := by
  rw [taskWaitpidWoken]
  cases hfind : taskFind s.sys pid with
  | none => exact h.mono h.tasks (fun _ => rfl) id
  | some i =>
    dsimp only
    split_ifs with hz
    · exact h.reap hcur hz .idle
    · exact h.mono h.tasks (fun _ => rfl) id

theorem block (h : s.Inv bootCr3 p c) (hcur : s.sys.current = some p) {i : Slot}
    (hok : i = c → ¬s.WakeupDone c) (hpc : p ≠ c) :
    WaitSys.Inv bootCr3 p c { s with sys := taskBlock s.sys (.task i), waitPc := .waiting } := by
  obtain ⟨cur, l, hr⟩ := h.tasks.ring
  obtain rfl : cur = p := Option.some.inj (hr.current.symm.trans hcur)
  have hruns : s.sys.currentRuns := by
    simpa [currentRuns, currentTask, hcur] using h.alive
  have hblock : taskBlock s.sys (.task i) = s.sys.modify cur fun t =>
      { t with state := .blocked, blockChannel := some (.task i) } := by
    rw [taskBlock, hcur]
  refine ⟨(quiet_taskBlock hr hruns _).taskInv h.tasks, ?_, ?_, fun hlost => ?_⟩
  · dsimp only
    rw [hblock, tasks_modify_self]
    exact fun h => by cases h
  · dsimp only
    rw [hblock, tasks_modify_self]
    exact fun h => by cases h
  · obtain ⟨⟨-, hchannel⟩, hdone⟩ := hlost
    simp only [WakeupDone] at hdone
    dsimp only at hchannel
    rw [hblock, tasks_modify_self] at hchannel
    rw [hblock, tasks_modify_ne (Ne.symm hpc)] at hdone
    obtain rfl : i = c := by cases hchannel; rfl
    exact hok rfl hdone

/-- The wakeup leaves no waiter behind. -/
theorem wake (h : s.Inv bootCr3 p c) (pc : ExitPc) (stopping : Bool) :
    WaitSys.Inv bootCr3 p c
      ⟨(taskWakeAll s.sys (.task c)).getD s.sys, s.waitPc, pc, stopping⟩ := by
  obtain ⟨cur, l, hr⟩ := h.tasks.ring
  obtain ⟨s', hs', hq, htask⟩ := taskWakeAll_spec hr (.task c)
  rw [hs', Option.getD_some]
  have hp := htask p
  refine ⟨hq.taskInv h.tasks, ?_, ?_, fun hlost => ?_⟩
  · dsimp only
    rw [hp]
    split_ifs
    · exact fun h => by cases h
    · exact h.inUse
  · dsimp only
    rw [hp]
    split_ifs
    · exact fun h => by cases h
    · exact h.alive
  · have hb := hlost.1
    dsimp only at hb
    rw [hp] at hb
    split_ifs at hb with hblocked
    · cases hb.1
    · exact hblocked hb

theorem wait (h : s.Inv bootCr3 p c) (hpc : p ≠ c) (hok : s.BlocksInTime p c .wait) :
    (waitStep bootCr3 p c pid s .wait).Inv bootCr3 p c := by
  rw [waitStep]
  split_ifs with hcur
  swap
  · exact h
  rw [waitAdvance]
  split
  · split
    · exact h
    · split_ifs
      · exact h
      · exact h.mono h.tasks (fun _ => rfl) id
  · split_ifs with hz
    · exact h.reap hcur hz .idle
    · exact h.mono h.tasks (fun _ => rfl) id
  · split_ifs
    · exact h.mono h.tasks (fun _ => rfl) id
    · exact h.mono h.tasks (fun _ => rfl) id
  · rename_i i hblock
    refine h.block hcur (fun hi => ?_) hpc
    subst hi
    exact hok hcur hblock
  · split_ifs
    · exact h
    · exact h.woken hcur pid

theorem leave (h : s.Inv bootCr3 p c) (hcur : s.sys.current = some c) :
    WaitSys.Inv bootCr3 p c { s with sys := leaveSpace bootCr3 s.sys c, exitPc := .released } := by
  have hsame : ∀ j, ((leaveSpace bootCr3 s.sys c).tasks j).state = (s.sys.tasks j).state ∧
      ((leaveSpace bootCr3 s.sys c).tasks j).blockChannel = (s.sys.tasks j).blockChannel := fun j => by
    rw [leaveSpace]
    split_ifs
    · by_cases hj : j = c
      · subst hj
        simp [TaskSys.modify]
      · simp [TaskSys.modify, hj]
    · exact ⟨rfl, rfl⟩
  refine h.mono ?_ (fun _ => (hsame p).1) fun hlost => ⟨?_, ?_⟩
  · dsimp only
    rw [leaveSpace]
    split_ifs
    · exact (keeps_leaveSpace h.tasks c (fun _ => rfl) fun hne => absurd hcur hne).inv
    · exact h.tasks
  · exact ⟨(hsame p).1.symm.trans hlost.1.1, (hsame p).2.symm.trans hlost.1.2⟩
  · rcases hlost.2 with ⟨-, hpc⟩ | ⟨hst, hstop⟩
    · cases hpc
    · exact .inr ⟨(hsame c).1.symm.trans hst, hstop⟩

/-- A new state for the child, which does not leave the waiters to be woken before. -/
theorem setState (h : s.Inv bootCr3 p c) (hpc : p ≠ c) {f : Tcb → Tcb}
    (hq : Quiet s.sys (s.sys.modify c f)) {pc : ExitPc} {stopping : Bool}
    (hpending : ¬WaitSys.WakeupDone c ⟨s.sys.modify c f, s.waitPc, pc, stopping⟩) :
    WaitSys.Inv bootCr3 p c ⟨s.sys.modify c f, s.waitPc, pc, stopping⟩ := by
  refine ⟨hq.taskInv h.tasks, ?_, ?_, fun hlost => hpending hlost.2⟩
  · dsimp only
    rw [tasks_modify_ne hpc]
    exact h.inUse
  · dsimp only
    rw [tasks_modify_ne hpc]
    exact h.alive

theorem exit (h : s.Inv bootCr3 p c) (hpc : p ≠ c) :
    (waitStep bootCr3 p c pid s .exit).Inv bootCr3 p c := by
  rw [waitStep]
  split_ifs with hcur
  swap
  · exact h
  obtain ⟨cur, l, hr⟩ := h.tasks.ring
  obtain rfl : cur = c := Option.some.inj (hr.current.symm.trans hcur)
  rw [exitAdvance]
  split
  · exact h.leave hcur
  · refine h.setState hpc (quiet_modify ?_) ?_
    · exact .of_inUse hr.current_ne_unused (by simp) rfl rfl rfl rfl rfl fun _ => rfl
    · simp [WakeupDone]
  · exact h.wake .woken s.stopping
  · exact h

theorem stop (h : s.Inv bootCr3 p c) (hpc : p ≠ c) :
    (waitStep bootCr3 p c pid s .stop).Inv bootCr3 p c := by
  rw [waitStep]
  split_ifs with hstate
  · exact h
  · obtain ⟨hu, hz⟩ := not_or.mp hstate
    refine h.setState hpc (quiet_modify ?_) ?_
    · exact .of_inUse hu (by simp) rfl rfl rfl rfl rfl fun hz' => absurd hz' hz
    · simp [WakeupDone]

theorem resume (h : s.Inv bootCr3 p c) (hpc : p ≠ c) :
    (waitStep bootCr3 p c pid s .resume).Inv bootCr3 p c := by
  rw [waitStep]
  have hq := quiet_taskContinue s.sys c
  rw [taskContinue] at hq ⊢
  split_ifs at hq ⊢
  · exact h
  · exact h.setState hpc hq (by simp [WakeupDone])

theorem preempt (h : s.Inv bootCr3 p c) {next : Slot} {oldRsp : ℕ} {fpu : FpuState} :
    (waitStep bootCr3 p c pid s (.preempt next oldRsp fpu)).Inv bootCr3 p c := by
  rw [waitStep]
  split
  · exact h
  rename_i cur hcur
  split_ifs with hready
  swap
  · exact h
  have hinv := @taskInv_saveRsp _ _ cur oldRsp (setFpu_inv h.tasks fpu)
  refine h.mono (taskInv_switchTo hinv (current_saveRsp.trans hcur) ?_)
    (fun hp => (rests_preempt hp).1) fun hlost => ?_
  · rw [state_saveRsp]
    dsimp only
    rw [hready]
    decide
  · obtain ⟨⟨hb, hchannel⟩, hdone⟩ := hlost
    obtain ⟨hstate, hch⟩ := rests_preempt (by rw [hb]; rfl)
    refine ⟨⟨hstate.symm.trans hb, hch.symm.trans hchannel⟩, ?_⟩
    rcases hdone with ⟨hc, hexit⟩ | ⟨hc, hstop⟩
    · exact .inl ⟨(rests_preempt (by rw [hc]; rfl)).1.symm.trans hc, hexit⟩
    · exact .inr ⟨(rests_preempt (by rw [hc]; rfl)).1.symm.trans hc, hstop⟩

/-- A step in which the parent does not block too late. -/
theorem step (h : s.Inv bootCr3 p c) (hpc : p ≠ c) {op : WaitOp} (hok : s.BlocksInTime p c op) :
    (waitStep bootCr3 p c pid s op).Inv bootCr3 p c := by
  cases op with
  | wait => exact h.wait hpc hok
  | exit => exact h.exit hpc
  | stop => exact h.stop hpc
  | stopWake =>
    rw [waitStep]
    split_ifs
    · exact h.wake s.exitPc false
    · exact h
  | resume => exact h.resume hpc
  | preempt next oldRsp fpu => exact h.preempt

/-- A parent that blocks after the wakeup is lost. -/
theorem lost_of_late (hpc : p ≠ c) {op : WaitOp} (hlate : ¬s.BlocksInTime p c op) :
    (waitStep bootCr3 p c pid s op).Lost p c := by
  cases op with
  | wait =>
    obtain ⟨hcur, hlate⟩ := Classical.not_imp.mp hlate
    obtain ⟨hblock, hdone⟩ := Classical.not_imp.mp hlate
    have hstep : waitStep bootCr3 p c pid s .wait =
        { s with sys := taskBlock s.sys (.task c), waitPc := .waiting } := by
      rw [waitStep, if_pos hcur, waitAdvance, hblock]
    rw [hstep, taskBlock, hcur]
    refine ⟨⟨?_, ?_⟩, ?_⟩
    · rw [tasks_modify_self]
    · rw [tasks_modify_self]
    · rw [WakeupDone, tasks_modify_ne (Ne.symm hpc)]
      exact not_not.mp hdone
  | exit | stop | stopWake | resume | preempt => exact absurd trivial hlate

end WaitSys.Inv

/-- A parent that is not waiting and a child that has not begun to end. -/
structure WaitStart (bootCr3 : ℕ) (p c : Slot) (s : TaskSys) : Prop where
  tasks : TaskInv bootCr3 s
  ne : p ≠ c
  inUse : (s.tasks p).state ≠ .unused
  alive : (s.tasks p).state ≠ .zombie
  notBlocked : ¬(s.tasks p).BlockedOn (.task c)

/-- In every interleaving of a parent's `task_waitpid` with a child's `task_exit`, with the child stopped and
continued at any time: the parent is never blocked on the child after its wakeup, exactly if it never blocks
when the wakeup has been done. -/
theorem waitpid_no_lost_wakeup {s : TaskSys} (h : WaitStart bootCr3 p c s) (pid : ℕ) (ops : List WaitOp) :
    (∀ pre post, ops = pre ++ post →
      ¬(Run.run (waitStep bootCr3 p c pid) ⟨s, .idle, .running, false⟩ pre).Lost p c) ↔
    Run.Admits (waitStep bootCr3 p c pid) (WaitSys.BlocksInTime p c) ⟨s, .idle, .running, false⟩ ops := by
  refine (Run.admits_iff_safe (WaitSys.Inv bootCr3 p c) (fun _ hs => hs.waits)
    (fun _ _ hs hok => hs.step h.ne hok)
    (fun _ _ _ hlate => not_not.mpr (WaitSys.Inv.lost_of_late h.ne hlate)) ?_).symm
  exact ⟨h.tasks, h.inUse, h.alive, fun hlost => h.notBlocked hlost.1⟩

end

/-! ## The shell and a program it runs -/

/-- The kernel task has started a program, which is in block 2 and has the process number 2. -/
def shellRuns : TaskSys :=
  (taskCreateElfTcb (schedInit 4096 0x200000 0x70000) 0x400000 0x400000 1 0x9000 [] 0x8000 0x50000).2

theorem waitStart_shellRuns : WaitStart 4096 0 2 shellRuns where
  tasks := (keeps_taskCreateElf (taskInv_schedInit 4096 0x200000 0x70000) _ _ _ _ _ _ _).inv
  ne := by decide
  inUse := by decide +kernel
  alive := by decide +kernel
  notBlocked := by decide +kernel

/-- The shell blocks, and the program ends while it waits. -/
def foregroundRun : List WaitOp :=
  [.wait, .wait, .wait, .wait, .preempt 2 0x7000 0, .exit, .exit, .exit, .preempt 1 0x50F00 0,
    .preempt 0 0x71000 0, .wait]

theorem waitpid_no_lost_wakeup_foreground :
    ¬(Run.run (waitStep 4096 0 2 2) ⟨shellRuns, .idle, .running, false⟩ foregroundRun).Lost 0 2 :=
  (waitpid_no_lost_wakeup waitStart_shellRuns 2 foregroundRun).mpr (by decide +kernel) foregroundRun []
    (List.append_nil _).symm

/-- The timer interrupts the shell after its two tests, the program ends, and then the shell blocks. -/
def lostRun : List WaitOp :=
  [.wait, .wait, .wait, .preempt 2 0x7000 0, .exit, .exit, .exit, .preempt 1 0x50F00 0,
    .preempt 0 0x71000 0, .wait]

theorem waitpid_lost_wakeup :
    (Run.run (waitStep 4096 0 2 2) ⟨shellRuns, .idle, .running, false⟩ lostRun).Lost 0 2 := by
  decide +kernel

end PlantOS.Task
