import PlantOS.Common.Run
import Mathlib.Data.List.GetD

/-!
# The command history

Model of the line editing of the shell: the ring of the last 16 lines, and the keys that go through it. It is
compared with a list of lines that are kept newest first.

The two agree as long as Enter is not pressed on an empty line while the history is being browsed:
`process_command` returns on an empty line before it sets `history_browse` to -1.

Reference: `history_add`, `set_input`, `process_command` and `shell_key_handler` in `shell/shell.c`.
-/

namespace PlantOS.Shell

/-! ## The shell -/

/-- The keys, without tab and those that are ignored. -/
inductive ShellKey where
  | char (c : UInt8)
  | backspace
  | up
  | down
  | enter
  deriving DecidableEq

/-- The variables of the line editor. `input` is `input_buf` up to `input_pos`; `browse` is `history_browse`,
and none for -1. `HISTORY_SIZE` is 16 and `INPUT_MAX` 256. -/
structure ShellInput where
  history : ℕ → List UInt8
  count : ℕ
  write : ℕ
  browse : Option ℕ
  input : List UInt8
  saved : List UInt8

namespace ShellInput

/-- At the start of the shell. -/
def init : ShellInput := ⟨fun _ => [], 0, 0, none, [], []⟩

/-- `history_add`. -/
def historyAdd (s : ShellInput) (line : List UInt8) : ShellInput :=
  if line = [] then s
  else if 0 < s.count ∧ s.history ((s.write + 15) % 16) = line then s
  else
    { s with
      history := Function.update s.history s.write line
      write := (s.write + 1) % 16
      count := if s.count < 16 then s.count + 1 else s.count }

/-- `process_command`. -/
def processCommand (s : ShellInput) : ShellInput :=
  if s.input = [] then s else { s.historyAdd s.input with browse := none, input := [] }

/-- `set_input`. -/
def setInput (s : ShellInput) (line : List UInt8) : ShellInput := { s with input := line.take 255 }

/-- `shell_key_handler`, and `process_command` after Enter. -/
def keyHandler (s : ShellInput) : ShellKey → ShellInput
  | .char c => if s.input.length < 255 then { s with input := s.input ++ [c] } else s
  | .backspace => { s with input := s.input.dropLast }
  | .up =>
    if s.count = 0 then s
    else
      match s.browse with
      | none =>
        let b := (s.write + 15) % 16
        { s with saved := s.input, browse := some b }.setInput (s.history b)
      | some b =>
        if b = (s.write + 16 - s.count) % 16 then s
        else { s with browse := some ((b + 15) % 16) }.setInput (s.history ((b + 15) % 16))
  | .down =>
    match s.browse with
    | none => s
    | some b =>
      if b = (s.write + 15) % 16 then { s with browse := none }.setInput s.saved
      else { s with browse := some ((b + 1) % 16) }.setInput (s.history ((b + 1) % 16))
  | .enter => s.processCommand

end ShellInput

/-! ## The list -/

/-- The entries, newest first, the line that is shown, and while the entries are browsed the number of the one
that was shown last and the line that was being typed. -/
structure LineHistory where
  entries : List (List UInt8)
  browse : Option (ℕ × List UInt8)
  line : List UInt8

namespace LineHistory

def init : LineHistory := ⟨[], none, []⟩

/-- The entries with a new one: no empty line, no repetition, and at most 16. -/
def entered (m : LineHistory) : List (List UInt8) :=
  if m.line = [] ∨ m.entries.head? = some m.line then m.entries else (m.line :: m.entries).take 16

def step (m : LineHistory) : ShellKey → LineHistory
  | .char c => if m.line.length < 255 then { m with line := m.line ++ [c] } else m
  | .backspace => { m with line := m.line.dropLast }
  | .up =>
    match m.browse with
    | none => if m.entries = [] then m else ⟨m.entries, some (0, m.line), m.entries.getD 0 []⟩
    | some (i, typed) =>
      if i + 1 < m.entries.length then ⟨m.entries, some (i + 1, typed), m.entries.getD (i + 1) []⟩ else m
  | .down =>
    match m.browse with
    | none => m
    | some (0, typed) => ⟨m.entries, none, typed⟩
    | some (i + 1, typed) => ⟨m.entries, some (i, typed), m.entries.getD i []⟩
  | .enter => ⟨m.entered, none, []⟩

end LineHistory

/-! ## Simulation -/

/-- The shell browses where the list does. -/
def BrowsesAt (s : ShellInput) (m : LineHistory) : Prop :=
  match m.browse with
  | none => s.browse = none
  | some (i, typed) =>
    i < m.entries.length ∧ s.browse = some ((s.write + 15 - i) % 16) ∧ s.saved = typed ∧ typed.length ≤ 255

/-- The ring holds the entries, and the shell shows the line of the list. -/
structure Follows (s : ShellInput) (m : LineHistory) : Prop where
  write_lt : s.write < 16
  count : s.count = m.entries.length
  entries_le : m.entries.length ≤ 16
  slots : ∀ i l, m.entries[i]? = some l → s.history ((s.write + 15 - i) % 16) = l
  short : ∀ l ∈ m.entries, l.length ≤ 255
  input : s.input = m.line
  input_le : m.line.length ≤ 255
  browse : BrowsesAt s m

/-- Enter is not pressed on an empty line while the history is browsed. -/
def EnterOk (m : LineHistory) (key : ShellKey) : Prop := key = .enter → m.line = [] → m.browse = none

section

variable {s : ShellInput} {m : LineHistory}

theorem Follows.getD (h : Follows s m) {i : ℕ} (hi : i < m.entries.length) :
    s.history ((s.write + 15 - i) % 16) = m.entries.getD i [] ∧ (m.entries.getD i []).length ≤ 255 := by
  rw [List.getD_eq_getElem _ _ hi]
  exact ⟨h.slots i _ (List.getElem?_eq_getElem hi), h.short _ (List.getElem_mem hi)⟩

/-- The entry `i` is shown. -/
theorem Follows.shows_entry (h : Follows s m) {i b : ℕ} {typed : List UInt8} (hi : i < m.entries.length)
    (hb : b = (s.write + 15 - i) % 16) (hlen : typed.length ≤ 255) :
    Follows ({ s with saved := typed, browse := some b }.setInput (s.history b))
      ⟨m.entries, some (i, typed), m.entries.getD i []⟩ := by
  obtain ⟨hslot, hshort⟩ := h.getD hi
  subst hb
  refine { h with input := ?_, input_le := hshort, browse := ⟨hi, rfl, rfl, hlen⟩ }
  rw [ShellInput.setInput, hslot]
  exact List.take_of_length_le hshort

theorem Follows.up (h : Follows s m) : Follows (s.keyHandler .up) (m.step .up) := by
  have hcount := h.count
  have hwrite := h.write_lt
  have hle := h.entries_le
  obtain ⟨entries, browse, line⟩ := m
  dsimp only at hcount hle
  cases browse with
  | none =>
    have hbrowse : s.browse = none := h.browse
    simp only [ShellInput.keyHandler, LineHistory.step, hbrowse]
    by_cases hnil : entries = []
    · rw [if_pos (by rw [hcount, hnil]; rfl), if_pos hnil]
      exact h
    · have hpos := List.length_pos_iff.2 hnil
      rw [if_neg (by omega), if_neg hnil, h.input]
      exact h.shows_entry (i := 0) hpos (by omega) h.input_le
  | some place =>
    obtain ⟨i, typed⟩ := place
    obtain ⟨hi, hbrowse, hsaved, hlen⟩ := h.browse
    dsimp only at hi
    simp only [ShellInput.keyHandler, LineHistory.step, hbrowse]
    rw [if_neg (by omega)]
    by_cases hlast : i + 1 < entries.length
    · rw [if_neg (by omega), if_pos hlast]
      subst hsaved
      exact h.shows_entry (i := i + 1) hlast (by omega) hlen
    · rw [if_pos (by omega), if_neg hlast]
      exact h

theorem Follows.down (h : Follows s m) : Follows (s.keyHandler .down) (m.step .down) := by
  have hwrite := h.write_lt
  have hle := h.entries_le
  obtain ⟨entries, browse, line⟩ := m
  dsimp only at hle
  cases browse with
  | none =>
    have hbrowse : s.browse = none := h.browse
    simp only [ShellInput.keyHandler, LineHistory.step, hbrowse]
    exact h
  | some place =>
    obtain ⟨i, typed⟩ := place
    obtain ⟨hi, hbrowse, hsaved, hlen⟩ := h.browse
    dsimp only at hi
    simp only [ShellInput.keyHandler, hbrowse]
    cases i with
    | zero =>
      rw [if_pos (by omega), hsaved]
      exact { h with input := List.take_of_length_le hlen, input_le := hlen, browse := rfl }
    | succ i =>
      rw [if_neg (by omega)]
      subst hsaved
      exact h.shows_entry (i := i) (by dsimp only; omega) (by omega) hlen

/-- A new entry takes the place of the oldest one. -/
theorem Follows.entered (h : Follows s m) (hne : m.line ≠ []) :
    Follows { s.historyAdd s.input with browse := none, input := [] } ⟨m.entered, none, []⟩ := by
  have hcount := h.count
  have hwrite := h.write_lt
  have hle := h.entries_le
  rw [ShellInput.historyAdd, LineHistory.entered, h.input, if_neg hne]
  -- The line before the write position is the newest entry.
  have hlast : 0 < s.count ∧ s.history ((s.write + 15) % 16) = m.line ↔ m.entries.head? = some m.line := by
    cases hentries : m.entries with
    | nil => simp [hcount, hentries]
    | cons l rest =>
      have hslot := h.slots 0 l (by rw [hentries]; rfl)
      rw [Nat.sub_zero] at hslot
      rw [hslot, hcount, hentries]
      simp
  by_cases hsame : m.entries.head? = some m.line
  · rw [if_pos (hlast.2 hsame), if_pos (.inr hsame)]
    exact { h with input := rfl, input_le := Nat.zero_le _, browse := rfl }
  have hnew : ¬(m.line = [] ∨ m.entries.head? = some m.line) := by
    rintro (hnil | hhead)
    · exact hne hnil
    · exact hsame hhead
  rw [if_neg (mt hlast.1 hsame), if_neg hnew]
  refine ⟨Nat.mod_lt _ (by decide), ?_, ?_, fun i l hi => ?_, fun l hl => ?_, rfl, Nat.zero_le _, rfl⟩
  · dsimp only
    rw [List.length_take, List.length_cons, hcount]
    split <;> omega
  · dsimp only
    rw [List.length_take]
    omega
  · dsimp only at hi ⊢
    rw [List.getElem?_take] at hi
    split at hi
    · -- The new line takes the slot at `write`; the others are one further back.
      cases i with
      | zero =>
        obtain rfl : m.line = l := by simpa using hi
        have hslot : ((s.write + 1) % 16 + 15 - 0) % 16 = s.write := by omega
        rw [hslot, Function.update_self]
      | succ i =>
        rw [List.getElem?_cons_succ] at hi
        have hslot : ((s.write + 1) % 16 + 15 - (i + 1)) % 16 = (s.write + 15 - i) % 16 := by omega
        rw [hslot, Function.update_of_ne (by omega)]
        exact h.slots i l hi
    · cases hi
  · obtain rfl | hl := List.mem_cons.1 (List.mem_of_mem_take hl)
    · exact h.input_le
    · exact h.short l hl

/-- Every key keeps the two together, unless Enter is pressed on an empty line in the history. -/
theorem Follows.step (h : Follows s m) {key : ShellKey} (hok : EnterOk m key) :
    Follows (s.keyHandler key) (m.step key) := by
  cases key with
  | char c =>
    rw [ShellInput.keyHandler, LineHistory.step, h.input]
    split
    · refine { h with input := rfl, input_le := ?_ }
      rw [List.length_append, List.length_singleton]
      omega
    · exact h
  | backspace =>
    rw [ShellInput.keyHandler, LineHistory.step, h.input]
    refine { h with input := rfl, input_le := ?_ }
    have := h.input_le
    rw [List.length_dropLast]
    omega
  | up => exact h.up
  | down => exact h.down
  | enter =>
    rw [ShellInput.keyHandler, LineHistory.step, ShellInput.processCommand]
    by_cases hnil : m.line = []
    · have hbrowse := h.browse
      rw [BrowsesAt, hok rfl hnil] at hbrowse
      rw [if_pos (h.input.trans hnil), LineHistory.entered, if_pos (.inl hnil)]
      exact { h with input := h.input.trans hnil, input_le := Nat.zero_le _, browse := hbrowse }
    · rw [if_neg (by rwa [h.input])]
      exact h.entered hnil

/-- On an empty line in the history, Enter does not end the browsing. -/
theorem Follows.not_step (h : Follows s m) {key : ShellKey} (hbad : ¬EnterOk m key) :
    ¬Follows (s.keyHandler key) (m.step key) := by
  simp only [EnterOk, Classical.not_imp] at hbad
  obtain ⟨rfl, hnil, hbrowse⟩ := hbad
  intro hstep
  have hnone : (s.keyHandler .enter).browse = none := hstep.browse
  rw [ShellInput.keyHandler, ShellInput.processCommand, if_pos (h.input.trans hnil)] at hnone
  have hb := h.browse
  rw [BrowsesAt] at hb
  split at hb
  · exact hbrowse ‹_›
  · rw [hb.2.1] at hnone
    cases hnone

end

/-- The shell and the list, with the same keys. -/
def bothStep (p : ShellInput × LineHistory) (key : ShellKey) : ShellInput × LineHistory :=
  (p.1.keyHandler key, p.2.step key)

/-- The shell follows the list through a sequence of keys exactly if Enter is not pressed on an empty line
while the history is browsed. -/
theorem history_follows_iff (keys : List ShellKey) :
    (∀ pre post, keys = pre ++ post →
        Follows (Run.run ShellInput.keyHandler .init pre) (Run.run LineHistory.step .init pre)) ↔
      Run.Admits LineHistory.step EnterOk .init keys := by
  have hrun : ∀ pre (p : ShellInput × LineHistory), Run.run bothStep p pre =
      (Run.run ShellInput.keyHandler p.1 pre, Run.run LineHistory.step p.2 pre) := by
    intro pre
    induction pre with
    | nil => exact fun p => rfl
    | cons key pre ih => exact fun p => ih (bothStep p key)
  have hadmits : ∀ keys (p : ShellInput × LineHistory), Run.Admits bothStep (fun p => EnterOk p.2) p keys ↔
      Run.Admits LineHistory.step EnterOk p.2 keys := by
    intro keys
    induction keys with
    | nil => exact fun p => Iff.rfl
    | cons key keys ih => exact fun p => and_congr_right fun _ => ih (bothStep p key)
  have hinit : Follows .init .init := by
    refine ⟨by decide, rfl, by decide, fun i l hi => ?_, fun l hl => ?_, rfl, by decide, rfl⟩
    · cases hi
    · cases hl
  have hsafe : Run.Admits bothStep (fun p => EnterOk p.2) (.init, .init) keys ↔
      ∀ pre post, keys = pre ++ post →
        Follows (Run.run bothStep (.init, .init) pre).1 (Run.run bothStep (.init, .init) pre).2 :=
    Run.admits_iff_safe (fun p : ShellInput × LineHistory => Follows p.1 p.2) (fun _ h => h)
      (fun _ _ h hok => h.step hok) (fun _ _ h hbad => h.not_step hbad) hinit
  rw [hadmits] at hsafe
  rw [hsafe]
  refine forall_congr' fun pre => forall_congr' fun post => ?_
  rw [hrun]

/-- `a` and `b` are entered. With `b` shown again, the line is cleared, and Enter and UP are pressed. -/
def clearedLineKeys : List ShellKey :=
  [.char 97, .enter, .char 98, .enter, .up, .backspace, .enter, .up]

/-- The last UP shows `a`, and not the newest entry. -/
theorem history_stays_in_browsing :
    (Run.run ShellInput.keyHandler .init clearedLineKeys).input = [97] ∧
      (Run.run LineHistory.step .init clearedLineKeys).line = [98] := by
  decide

end PlantOS.Shell
