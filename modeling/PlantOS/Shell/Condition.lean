import PlantOS.Shell.Script

/-!
# The conditions of a script

`extract_condition` takes the condition out of the line of an `if`, `elif` or `while`. It looks for `then` and
`do` by their letters, not as words. On a line with `; then` or `; do` it finds the condition exactly; on a
line without, it cuts the condition if its last letters are those of a keyword: from `if test $x = undo` it
takes `test $x = un`.

Reference: `extract_condition` in `shell/commands.c`.
-/

namespace PlantOS.Shell

/-! ## The layouts of a line -/

/-- Spaces and tabs. -/
abbrev Blanks := {l : Line // ∀ c ∈ l, isBlank c}

/-- The keyword behind a condition. -/
inductive BodyKw where
  | then
  | do

def BodyKw.text : BodyKw → Line
  | .then => kwThen
  | .do => kwDo

/-- Where the keyword behind the condition is. -/
inductive CondLayout where
  | sameLine (before after : Blanks) (kw : BodyKw)
  | nextLine

/-- What follows the condition on its line. -/
def CondLayout.text : CondLayout → Line
  | .sameLine before after kw => before.1 ++ ';' :: after.1 ++ kw.text
  | .nextLine => []

/-- A command without blanks and semicolons at its ends. -/
structure IsCondition (c : Line) : Prop where
  first : ∃ x t, c = x :: t ∧ isBlank x = false ∧ x ≠ ';'
  last : ∃ t x, c = t ++ [x] ∧ isBlank x = false ∧ x ≠ ';'

/-! ## The ends of lines -/

theorem rdropWhile_append_of_pos {p : Char → Bool} {s t : Line} (h : ∀ x ∈ t, p x) :
    (s ++ t).rdropWhile p = s.rdropWhile p := by
  have hrev : ∀ x ∈ t.reverse, p x := fun x hx => h x (List.mem_reverse.1 hx)
  simp only [List.rdropWhile, List.reverse_append, List.dropWhile_append_of_pos hrev]

/-- No keyword ends with a blank. -/
theorem rdropWhile_bodyKw (s : Line) (kw : BodyKw) : (s ++ kw.text).rdropWhile isBlank = s ++ kw.text := by
  obtain ⟨t, x, htext, hx⟩ : ∃ t x, kw.text = t ++ [x] ∧ ¬isBlank x := by
    cases kw with
    | «then» => exact ⟨['t', 'h', 'e'], 'n', rfl, by decide⟩
    | «do» => exact ⟨['d'], 'o', rfl, by decide⟩
  rw [htext, ← List.append_assoc]
  exact List.rdropWhile_concat_neg _ _ _ hx

theorem not_kwThen_suffix_kwDo (s : Line) : ¬ kwThen.isSuffixOf (s ++ kwDo) := by
  rw [List.isSuffixOf_iff_suffix]
  rintro ⟨r, hr⟩
  have hlast := congrArg List.getLast? hr
  simp [kwThen, kwDo] at hlast

/-- Without the blanks and the semicolon before the keyword the command is left. -/
theorem stripEnd_sameLine {c : Line} (hc : IsCondition c) (before after : Blanks) (kw : Line) :
    stripEnd (c ++ (before.1 ++ ';' :: after.1) ++ kw) kw.length = c := by
  obtain ⟨t, x, rfl, hx, hsemi⟩ := hc.last
  obtain ⟨hsp, htab⟩ : x ≠ ' ' ∧ x ≠ '\t' := by simpa [isBlank] using hx
  have hrdrop : ∀ s : Line, (s ++ kw).rdrop kw.length = s := fun s => by simp [List.rdrop]
  have hblank : ∀ y, isBlank y → (decide (y = ' ') || decide (y = ';') || decide (y = '\t')) = true := by
    intro y hy
    simp only [isBlank, Bool.or_eq_true] at hy ⊢
    tauto
  rw [stripEnd, hrdrop, rdropWhile_append_of_pos]
  · exact List.rdropWhile_concat_neg _ _ _ (by simp [hsp, htab, hsemi])
  · intro y hy
    obtain hy | hy := List.mem_append.1 hy
    · exact hblank y (before.2 y hy)
    · obtain rfl | hy := List.mem_cons.1 hy
      · rfl
      · exact hblank y (after.2 y hy)

theorem length_stripEnd_lt {c : Line} {n : ℕ} (hc : c ≠ []) (hn : 0 < n) :
    (stripEnd c n).length < c.length := by
  have hle := (List.rdropWhile_prefix (fun x : Char => x = ' ' || x = ';' || x = '\t') (c.rdrop n)).length_le
  have hpos := List.length_pos_of_ne_nil hc
  have hrdrop : (c.rdrop n).length = c.length - n := by simp [List.rdrop]
  rw [stripEnd]
  omega

/-! ## The result -/

/-- What is in the buffer: the line behind the keyword and the blanks. -/
theorem drop_condLine {kw c rest : Line} (sp : Blanks) (hc : IsCondition c)
    (hlen : (kw ++ sp.1 ++ c ++ rest).length ≤ 255) :
    (((kw ++ sp.1 ++ c ++ rest).drop kw.length).dropWhile isBlank).take 255 = c ++ rest := by
  obtain ⟨x, t, rfl, hx, -⟩ := hc.first
  rw [List.append_assoc, List.append_assoc, List.drop_left, List.dropWhile_append_of_pos sp.2,
    List.cons_append, List.dropWhile_cons, if_neg (by rw [hx]; exact Bool.false_ne_true)]
  refine List.take_of_length_le (le_trans ?_ hlen)
  simp only [List.length_append, List.length_cons]
  omega

/-- The result when the buffer holds `out`, which does not end with a blank. -/
theorem extractCondition_of_core {kw line out : Line}
    (hout : ((line.drop kw.length).dropWhile isBlank).take 255 = out) (hcore : out.rdropWhile isBlank = out) :
    extractCondition line kw =
      if kwThen.isSuffixOf out then stripEnd out 4
      else if kwDo.isSuffixOf out then stripEnd out 2
      else out := by
  simp only [extractCondition, hout, hcore]

/-- With the keyword on the same line, the condition is cut off before it. -/
theorem extractCondition_sameLine {kw line c : Line} (hc : IsCondition c) (before after : Blanks)
    (body : BodyKw)
    (hout : ((line.drop kw.length).dropWhile isBlank).take 255 =
      c ++ (CondLayout.sameLine before after body).text) : extractCondition line kw = c := by
  have hstrip := stripEnd_sameLine hc before after body.text
  rw [CondLayout.text, ← List.append_assoc] at hout
  generalize c ++ (before.1 ++ ';' :: after.1) = s at hstrip hout
  have hsuffix := List.isSuffixOf_iff_suffix.2 (List.suffix_append s body.text)
  rw [extractCondition_of_core hout (rdropWhile_bodyKw s body)]
  cases body with
  | «then» => exact (if_pos hsuffix).trans hstrip
  | «do» =>
    exact (if_neg (not_kwThen_suffix_kwDo s)).trans ((if_pos hsuffix).trans hstrip)

/-- With the keyword on the next line, the condition is kept unless it ends in the letters of one. -/
theorem extractCondition_nextLine {kw line c : Line} (hc : IsCondition c)
    (hout : ((line.drop kw.length).dropWhile isBlank).take 255 = c) :
    extractCondition line kw = c ↔ ¬kwThen <:+ c ∧ ¬kwDo <:+ c := by
  obtain ⟨t, x, rfl, hx, -⟩ := hc.last
  have hne : t ++ [x] ≠ [] := by simp
  have hcore : (t ++ [x]).rdropWhile isBlank = t ++ [x] :=
    List.rdropWhile_concat_neg _ _ _ (by rw [hx]; exact Bool.false_ne_true)
  rw [extractCondition_of_core hout hcore]
  simp only [← List.isSuffixOf_iff_suffix]
  split
  · rename_i hthen
    exact iff_of_false (fun h => (length_stripEnd_lt hne (by decide)).ne (congrArg List.length h))
      fun h => h.1 hthen
  split
  · rename_i hdo
    exact iff_of_false (fun h => (length_stripEnd_lt hne (by decide)).ne (congrArg List.length h))
      fun h => h.2 hdo
  · rename_i hthen hdo
    exact iff_of_true rfl ⟨hthen, hdo⟩

/-- The condition is found exactly unless it stands alone on its line and ends with the letters of a
keyword. -/
theorem extract_condition_iff (kw : Line) (_hkw : kw = kwIf ∨ kw = kwElif ∨ kw = kwWhile) (sp : Blanks)
    (_hsp : sp.1 ≠ []) (c : Line) (hc : IsCondition c) (layout : CondLayout)
    (hlen : (kw ++ sp.1 ++ c ++ layout.text).length ≤ 255) :
    extractCondition (kw ++ sp.1 ++ c ++ layout.text) kw = c ↔
      (layout = .nextLine → ¬kwThen <:+ c ∧ ¬kwDo <:+ c) := by
  have hout := drop_condLine sp hc hlen
  cases layout with
  | sameLine before after body =>
    exact iff_of_true (extractCondition_sameLine hc before after body hout) fun h => CondLayout.noConfusion h
  | nextLine =>
    rw [extractCondition_nextLine hc (hout.trans (List.append_nil c))]
    exact ⟨fun h _ => h, fun h => h rfl⟩

def noBlank : Blanks := ⟨[], List.forall_mem_nil _⟩

def oneBlank : Blanks := ⟨[' '], List.forall_mem_singleton.2 rfl⟩

/-- `while todo ;do`, where the command itself ends with the letters of a keyword. -/
theorem extract_condition_sameLine_demo :
    (kwWhile ++ [' '] ++ ['t', 'o', 'd', 'o'] ++ (CondLayout.sameLine oneBlank noBlank .do).text).length = 14 ∧
      (extractCondition (kwWhile ++ [' '] ++ ['t', 'o', 'd', 'o'] ++
          (CondLayout.sameLine oneBlank noBlank .do).text) kwWhile = ['t', 'o', 'd', 'o'] ↔
        (CondLayout.sameLine oneBlank noBlank .do = .nextLine →
          ¬kwThen <:+ ['t', 'o', 'd', 'o'] ∧ ¬kwDo <:+ ['t', 'o', 'd', 'o'])) :=
  ⟨by decide, extract_condition_iff kwWhile (.inr (.inr rfl)) oneBlank (by decide) _
    ⟨⟨'t', _, rfl, by decide, by decide⟩, ⟨['t', 'o', 'd'], 'o', rfl, by decide, by decide⟩⟩ _ (by decide)⟩

/-- `if todo`, with `then` on the next line: the condition becomes `to`. -/
theorem extract_condition_cuts_command :
    IsCondition ['t', 'o', 'd', 'o'] ∧
      extractCondition (kwIf ++ [' '] ++ ['t', 'o', 'd', 'o'] ++ CondLayout.nextLine.text) kwIf =
        ['t', 'o'] :=
  ⟨⟨⟨'t', _, rfl, by decide, by decide⟩, ⟨['t', 'o', 'd'], 'o', rfl, by decide, by decide⟩⟩, by decide⟩

end PlantOS.Shell
