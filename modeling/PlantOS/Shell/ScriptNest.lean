import PlantOS.Shell.Script

/-!
# Scripts that run scripts

Model of `cmd_run` together with the interpreter it calls, and with the way back from a line of a script to
`cmd_run`. There is one `struct script_ctx` for all of them, since it is static: the lines, their number, the
line that is executed next and the break flag of the script that was started last.

So the context of a script that runs another one is lost. When the inner script has come to an end
(`scriptExecute_ended`), the context is that of the inner script. It is the one of before only if both are just
behind a line with `elif`, `else`, `fi` or `done`.

The functions are those of `Shell/Script`, with the lines in the state and with what a line does given by a
machine: which scripts it runs, and what it does besides. The number they are given bounds the depth of the
calls; `none` is the result of a call for which it is not enough. The messages for an `if` or a `while`
without an end are left out.

Reference: `shell/commands.c`, `run_body` to `cmd_run`; `shell_execute_line` in `shell/shell.c`.
-/

namespace PlantOS.Shell.Nest

/-- The text of a script as it is read: at most `SCRIPT_MAX_LINES` lines of fewer than `SCRIPT_LINE_MAX`
characters. -/
structure ScriptFile where
  lines : List Line
  length_le : lines.length ≤ 128
  line_lt : ∀ l ∈ lines, l.length < 256

/-- A part of what a line does: `cmd_run` with or without an argument, or anything else. -/
inductive Action (W : Type) where
  | run (path : Option Line)
  | other (f : W → W)

/-- The shell and the files around the interpreter. -/
structure Machine (W : Type) where
  /-- `last_exit_code`. -/
  exitCode : W → ℤ
  /-- What a line does, in order; the two sides of a pipe can both run a script. -/
  actions : W → Line → List (Action W)
  /-- `run` without an argument. -/
  usage : W → W
  /-- `run` up to the end of the file, or up to the message that it cannot be read. -/
  openScript : W → Line → W × Option ScriptFile

/-- `struct script_ctx`. The rows behind `lineCount` are those of earlier scripts. -/
structure ScriptCtx where
  rows : ℕ → Line
  lineCount : ℕ
  pc : ℕ
  breakFlag : Bool

/-- The lines of the script. -/
def ScriptCtx.lines (c : ScriptCtx) : List Line := (List.range c.lineCount).map c.rows

/-- `script_trim(ctx->lines[i])`. -/
def ScriptCtx.line (c : ScriptCtx) (i : ℕ) : Line := scriptTrim (c.rows i)

/-- The context after the lines of a script have been stored in it. -/
def ScriptCtx.load (c : ScriptCtx) (s : ScriptFile) : ScriptCtx where
  rows := fun i => s.lines.getD i (c.rows i)
  lineCount := s.lines.length
  pc := 0
  breakFlag := false

/-- The context, and everything else. -/
structure NestState (W : Type) where
  ctx : ScriptCtx
  world : W

namespace NestState

variable {W : Type}

def setPc (st : NestState W) (pc : ℕ) : NestState W := { st with ctx := { st.ctx with pc := pc } }

def setBreak (st : NestState W) (flag : Bool) : NestState W :=
  { st with ctx := { st.ctx with breakFlag := flag } }

/-- `ctx->pc++`. -/
def next (st : NestState W) : NestState W := st.setPc (st.ctx.pc + 1)

end NestState

section

variable {W : Type} (m : Machine W)

mutual

/-- `shell_execute_line`. -/
def shellExecuteLine : ℕ → Line → NestState W → Option (NestState W)
  | 0, _, _ => none
  | n + 1, line, st => runActions n (m.actions st.world line) st
termination_by structural n => n

def runActions : ℕ → List (Action W) → NestState W → Option (NestState W)
  | 0, _, _ => none
  | _ + 1, [], st => some st
  | n + 1, .other f :: rest, st => runActions n rest { st with world := f st.world }
  | n + 1, .run path :: rest, st => do
    let st ← cmdRun n path st
    runActions n rest st
termination_by structural n => n

/-- `cmd_run`. -/
def cmdRun : ℕ → Option Line → NestState W → Option (NestState W)
  | 0, _, _ => none
  | _ + 1, none, st => some { st with world := m.usage st.world }
  | n + 1, some path, st =>
    match m.openScript st.world path with
    | (w, none) => some { st with world := w }
    | (w, some s) => scriptExecute n ⟨st.ctx.load s, w⟩
termination_by structural n => n

/-- The loop of `run_body`, with `ctx->pc` set. -/
def runBody : ℕ → ℕ → NestState W → Option (NestState W)
  | 0, _, _ => none
  | n + 1, stop, st =>
    if st.ctx.pc < stop then
      let bl := st.ctx.line st.ctx.pc
      if skipped bl then runBody n stop st.next
      else if startsWithKw bl kwIf || startsWithKw bl kwWhile then do
        let st ← scriptExecute n st
        if st.ctx.breakFlag then pure st else runBody n stop st
      else if closes bl then pure st
      else if bl = kwBreak then pure (st.next.setBreak true)
      else do
        let st ← shellExecuteLine n bl st
        let st := st.next
        if st.ctx.breakFlag then pure st else runBody n stop st
    else pure st
termination_by structural n => n

/-- `script_execute`. -/
def scriptExecute : ℕ → NestState W → Option (NestState W)
  | 0, _ => none
  | n + 1, st =>
    if st.ctx.pc < st.ctx.lineCount then
      let line := st.ctx.line st.ctx.pc
      if skipped line || line = kwFi || line = kwDone then scriptExecute n st.next
      else if line = kwBreak then pure (st.next.setBreak true)
      else if startsWithKw line kwIf then
        match findMatchingFi st.ctx.lines st.ctx.pc with
        | none => pure (st.setPc st.ctx.lineCount)
        | some fiLine => do
          let st ← shellExecuteLine n (extractCondition line kwIf) st
          let st ← ifTail n fiLine st
          let st := st.setPc (fiLine + 1)
          if st.ctx.breakFlag then pure st else scriptExecute n st
      else if startsWithKw line kwWhile then
        match findMatchingDone st.ctx.lines st.ctx.pc with
        | none => pure (st.setPc st.ctx.lineCount)
        | some doneLine => do
          let st ← whileLoop n (extractCondition line kwWhile) st.ctx.pc doneLine st
          scriptExecute n (st.setPc (doneLine + 1))
      else if closes line then pure st.next
      else do
        let st ← shellExecuteLine n line st
        let st := st.next
        if st.ctx.breakFlag then pure st else scriptExecute n st
    else pure st
termination_by structural n => n

/-- The rest of an `if` after its condition, up to the label `if_done`. -/
def ifTail : ℕ → ℕ → NestState W → Option (NestState W)
  | 0, _, _ => none
  | n + 1, fiLine, st =>
    let branch := findNextBranch st.ctx.lines st.ctx.pc
    if m.exitCode st.world = 0 then runBody n (branch.getD fiLine) st.next
    else ifBranches n fiLine branch st
termination_by structural n => n

/-- The loop of `script_execute` over the branches of an `if`. -/
def ifBranches : ℕ → ℕ → Option ℕ → NestState W → Option (NestState W)
  | 0, _, _, _ => none
  | _ + 1, _, none, st => pure st
  | n + 1, fiLine, some b, st =>
    if b < fiLine then
      let bl := st.ctx.line b
      if startsWithKw bl kwElif then do
        let st ← shellExecuteLine n (extractCondition bl kwElif) st
        let branch := findNextBranch st.ctx.lines b
        if m.exitCode st.world = 0 then runBody n (branch.getD fiLine) (st.setPc (b + 1))
        else ifBranches n fiLine branch st
      else if startsWithKw bl kwElse then runBody n fiLine (st.setPc (b + 1))
      else pure st
    else pure st
termination_by structural n => n

/-- The loop of `script_execute` for a `while`. -/
def whileLoop : ℕ → Line → ℕ → ℕ → NestState W → Option (NestState W)
  | 0, _, _, _, _ => none
  | n + 1, cond, whilePc, doneLine, st => do
    let st ← shellExecuteLine n cond st
    if m.exitCode st.world = 0 then
      let st ← runBody n doneLine ((st.setPc (whilePc + 1)).setBreak false)
      if st.ctx.breakFlag then pure (st.setBreak false) else whileLoop n cond whilePc doneLine st
    else pure st
termination_by structural n => n

end

/-! ## The context after a run -/

/-- The command reads a script and starts it. -/
def Starts (path : Option Line) (w : W) : Prop := ∃ p ∈ path, (m.openScript w p).2.isSome

/-- The line before the one that is executed next starts with `elif`, `else`, `fi` or `done`. -/
def ScriptCtx.BehindClose (c : ScriptCtx) : Prop := 0 < c.pc ∧ closes (c.line (c.pc - 1))

/-- Where `script_execute` stops: behind the last line, at a `break` outside of the loops, or behind a line that
closes. -/
def ScriptCtx.Ended (c : ScriptCtx) : Prop := c.lineCount ≤ c.pc ∨ c.breakFlag ∨ c.BehindClose

variable {m}

/-- `run` that does not come to start the script leaves the context alone. -/
theorem cmdRun_of_not_starts {n : ℕ} {path : Option Line} {st st' : NestState W}
    (h : cmdRun m n path st = some st') (hno : ¬Starts m path st.world) : st'.ctx = st.ctx := by
  cases n with
  | zero => cases h
  | succ n =>
    cases path with
    | none =>
      cases h
      rfl
    | some p =>
      rw [cmdRun] at h
      split at h
      · cases h
        rfl
      · rename_i w s hopen
        exact absurd ⟨p, rfl, by rw [hopen]; rfl⟩ hno

/-- A line that is a `run` command. -/
theorem shellExecuteLine_run {n : ℕ} {l : Line} {path : Option Line} {st st' : NestState W}
    (hl : m.actions st.world l = [.run path]) (h : shellExecuteLine m n l st = some st') :
    ∃ k, cmdRun m k path st = some st' := by
  cases n with
  | zero => cases h
  | succ n =>
    rw [shellExecuteLine, hl] at h
    cases n with
    | zero => cases h
    | succ n =>
      rw [runActions] at h
      obtain ⟨st₁, hrun, hrest⟩ := Option.bind_eq_some_iff.1 h
      cases n with
      | zero => cases hrun
      | succ n =>
        cases hrest
        exact ⟨n + 1, hrun⟩

/-- Whatever the lines do, and whichever scripts they run in their turn, `script_execute` stops in one of three
ways only. -/
theorem scriptExecute_ended {n : ℕ} {st st' : NestState W} (h : scriptExecute m n st = some st') :
    st'.ctx.Ended := by
  -- every branch of the loop returns, or goes on with another state
  induction n generalizing st with
  | zero => cases h
  | succ n ih =>
    rw [scriptExecute] at h
    have hbreak {st₁ : NestState W}
        (h : (if st₁.ctx.breakFlag then pure st₁ else scriptExecute m n st₁) = some st') : st'.ctx.Ended := by
      split at h
      · cases h
        exact .inr (.inl ‹_›)
      · exact ih h
    split at h
    swap
    · cases h
      exact .inl (not_lt.1 ‹_›)
    dsimp only at h
    split at h
    · exact ih h
    split at h
    · cases h
      exact .inr (.inl rfl)
    split at h
    · split at h
      · cases h
        exact .inl le_rfl
      · obtain ⟨_, -, h⟩ := Option.bind_eq_some_iff.1 h
        obtain ⟨_, -, h⟩ := Option.bind_eq_some_iff.1 h
        exact hbreak h
    split at h
    · split at h
      · cases h
        exact .inl le_rfl
      · obtain ⟨_, -, h⟩ := Option.bind_eq_some_iff.1 h
        exact ih h
    split at h
    · cases h
      exact .inr (.inr ⟨Nat.succ_pos _, ‹_›⟩)
    · obtain ⟨_, -, h⟩ := Option.bind_eq_some_iff.1 h
      exact hbreak h

/-- The script that was started has come to an end when `cmd_run` returns. -/
theorem cmdRun_ended {n : ℕ} {path : Option Line} {st st' : NestState W}
    (h : cmdRun m n path st = some st') (hstarts : Starts m path st.world) : st'.ctx.Ended := by
  obtain ⟨p, rfl, hopen⟩ := hstarts
  cases n with
  | zero => cases h
  | succ n =>
    rw [cmdRun] at h
    split at h
    · rename_i heq
      rw [heq] at hopen
      cases hopen
    · exact scriptExecute_ended h

/-- A line of a script that runs another one leaves the context as it was if no script is started. If one is
started the context is lost, unless the line before is one that closes. -/
theorem run_keeps_context_iff {W : Type} (m : Machine W) (n : ℕ) (line : Line) (path : Option Line)
    (st st' : NestState W) (hline : m.actions st.world line = [.run path])
    (hactive : st.ctx.pc < st.ctx.lineCount) (hflag : st.ctx.breakFlag = false)
    (hrun : shellExecuteLine m n line st = some st') :
    (¬Starts m path st.world → st'.ctx = st.ctx) ∧
      (¬st.ctx.BehindClose → (st'.ctx = st.ctx ↔ ¬Starts m path st.world)) := by
  obtain ⟨k, hcmd⟩ := shellExecuteLine_run hline hrun
  have hkept := cmdRun_of_not_starts hcmd
  refine ⟨hkept, fun hbehind => ⟨fun hctx hstarts => ?_, hkept⟩⟩
  -- the context of the outer script is not one in which a script has ended
  have hended := cmdRun_ended hcmd hstarts
  rw [hctx] at hended
  obtain hpc | hbreak | hclose := hended
  · omega
  · rw [hflag] at hbreak
    cases hbreak
  · exact hbehind hclose

/-! ## A script that is not continued -/

/-- The script `run b`, `x`. -/
def scriptA : ScriptFile := ⟨[['r', 'u', 'n', ' ', 'b'], ['x']], by decide, by decide⟩

/-- The script `y`. -/
def scriptB : ScriptFile := ⟨[['y']], by decide, by decide⟩

/-- The scripts `a` and `b`; all commands but `run` are only recorded. -/
def twoScripts : Machine (List Line) where
  exitCode := fun _ => 0
  actions := fun _ l => match l with
    | 'r' :: 'u' :: 'n' :: ' ' :: p => [.run (some p)]
    | l => [.other (· ++ [l])]
  usage := id
  openScript := fun w p => (w, if p = ['a'] then some scriptA else if p = ['b'] then some scriptB else none)

/-- The context before the first script. -/
def noScript : ScriptCtx := ⟨fun _ => [], 0, 0, false⟩

/-- The outer script `a` is not continued behind its first line: `x` is never executed. -/
theorem run_loses_outer_script :
    (cmdRun twoScripts 9 (some ['a']) ⟨noScript, []⟩).map NestState.world = some [['y']] := by
  decide

/-- The first line of `a` runs `b`, and the context of `a` is gone. -/
theorem run_keeps_context_iff_started :
    ∃ st', shellExecuteLine twoScripts 12 ['r', 'u', 'n', ' ', 'b'] ⟨noScript.load scriptA, []⟩ = some st' ∧
      st'.ctx ≠ noScript.load scriptA := by
  have hrun : (shellExecuteLine twoScripts 12 ['r', 'u', 'n', ' ', 'b'] ⟨noScript.load scriptA, []⟩).isSome := by
    decide
  obtain ⟨st', hst'⟩ := Option.isSome_iff_exists.1 hrun
  have hkeeps := (run_keeps_context_iff twoScripts 12 _ (some ['b']) _ st' rfl Nat.zero_lt_two rfl hst').2
    fun h => absurd h.1 (lt_irrefl 0)
  exact ⟨st', hst', fun hctx => hkeeps.1 hctx ⟨['b'], rfl, rfl⟩⟩

end

end PlantOS.Shell.Nest
