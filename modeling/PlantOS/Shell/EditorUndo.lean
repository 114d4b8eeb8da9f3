import PlantOS.Shell.EditorKeys

/-!
# Enter and Backspace

Enter splits a line at the cursor, and Backspace joins it again. A line may have 255 characters, but two lines
are joined only if they have less than 255 together: in a full line, Backspace does not undo Enter.
-/

namespace PlantOS.Shell.Editor

/-- The same lines, and the cursor at the same place. -/
structure Restores (e e' : Editor) : Prop where
  text : e'.bufferLines = e.bufferLines
  cx : e'.cx = e.cx
  cy : e'.cy = e.cy

section

variable {e : Editor} {A B : List (List UInt8)} {u v : List UInt8}

/-- Drawing does not move a cursor that is in its line. -/
theorem At.refresh (h : At e A u v B) : At e.refresh A u v B := by
  refine ⟨h.shows_text.congr rfl rfl, h.cy, ?_⟩
  have hlen := h.lineLen
  have hcx := h.cx
  show (if e.lineLen e.cy < e.cx then e.lineLen e.cy else e.cx) = _
  rw [if_neg (by omega), hcx]

end

theorem keyHandler_enter (e : Editor) (saved : Bool) :
    e.keyHandler saved 10 = if edMaxLines ≤ e.numLines then some e else e.enterKey.map Editor.refresh := rfl

theorem keyHandler_backspace (e : Editor) (saved : Bool) :
    e.keyHandler saved 8 = e.backspaceKey.map Editor.refresh := rfl

/-- Backspace undoes Enter exactly if the line is not full. -/
theorem backspace_undoes_enter_iff (e : Editor) (h : Inv e) (hlen : e.numLines < 512) (saved : Bool) :
    ∃ e', (do let e ← e.keyHandler saved 10; e.keyHandler saved 8) = some e' ∧
      (Restores e e' ↔ e.lineLen e.cy < 255) := by
  obtain ⟨A, u, v, B, hat⟩ := h.exists_at
  obtain ⟨e₁, henter, hat₁, -⟩ := hat.enterKey hlen
  obtain ⟨hjoin, hfull⟩ := hat₁.refresh.backspaceKey_line
  rw [keyHandler_enter, edMaxLines, if_neg (by omega), henter, Option.map_some, Option.bind_eq_bind,
    Option.bind_some, keyHandler_backspace, hat.lineLen]
  by_cases hlong : u.length + v.length < 255
  · obtain ⟨e₂, hback, hat₂, -⟩ := hjoin hlong
    have hat₃ := hat₂.refresh
    refine ⟨e₂.refresh, by rw [hback]; rfl, iff_of_true ⟨?_, ?_, ?_⟩ (by omega)⟩
    · rw [hat₃.shows_text.bufferLines_eq, hat.shows_text.bufferLines_eq]
    · rw [hat₃.cx, hat.cx]
    · rw [hat₃.cy, hat.cy]
  · have hat₃ := hat₁.refresh.refresh
    refine ⟨_, by rw [hfull (by omega)]; rfl, iff_of_false (fun hrestores => ?_) (by omega)⟩
    have hcy := hrestores.cy
    rw [hat₃.cy, hat.cy, List.length_append, List.length_singleton] at hcy
    omega

/-- A line of `n` characters, with the cursor behind it. -/
def fullLine (n : ℤ) : Editor :=
  { lines := fun _ j => if j < n then 97 else 0
    numLines := 1
    cx := n
    cy := 0
    scrollY := 0
    modified := false
    running := true }

theorem inv_fullLine {n : ℤ} (h0 : 0 ≤ n) (hn : n ≤ 255) (hlen : (fullLine n).lineLen 0 = n) :
    Inv (fullLine n) where
  one_le := Int.le_refl 1
  le_max := (by decide : (1 : ℤ) ≤ 512)
  cy_nonneg := Int.le_refl 0
  cy_lt := Int.zero_lt_one
  terminated _ _ _ := ⟨255, by decide, by decide, if_neg (by omega)⟩
  cx_nonneg := h0
  cx_le := Int.le_of_eq hlen.symm
  scroll_nonneg := Int.le_refl 0
  scroll_le := Int.le_refl 0
  scroll_lt := (by decide : (0 : ℤ) < 0 + 22)

/-- A line with three characters. -/
theorem backspace_undoes_enter_short :
    Inv (fullLine 3) ∧ ∃ e', (do let e ← (fullLine 3).keyHandler false 10; e.keyHandler false 8) = some e' ∧
      (Restores (fullLine 3) e' ↔ (fullLine 3).lineLen (fullLine 3).cy < 255) :=
  have hinv := inv_fullLine (n := 3) (by decide) (by decide) (by decide +kernel)
  ⟨hinv, backspace_undoes_enter_iff _ hinv (by decide) false⟩

/-- At the end of a line of 255 characters the cursor stays in the new line. -/
theorem backspace_keeps_new_line :
    Inv (fullLine 255) ∧
      ∃ e', (do let e ← (fullLine 255).keyHandler false 10; e.keyHandler false 8) = some e' ∧
        (fullLine 255).cy = 0 ∧ e'.cy = 1 ∧ e'.numLines = 2 := by
  have hmap : ∃ e' ∈ (do let e ← (fullLine 255).keyHandler false 10; e.keyHandler false 8),
      (fullLine 255).cy = 0 ∧ e'.cy = 1 ∧ e'.numLines = 2 := by
    decide +kernel
  exact ⟨inv_fullLine (by decide) (by decide) (by decide +kernel), hmap⟩

end PlantOS.Shell.Editor
