import PlantOS.Shell.Editor
import Mathlib.Data.Int.Cast.Basic

/-!
# The text in the editor

The rows of the editor hold a list of lines. What the operations on rows do to this list: each of them has a
result, so that its stores are inside the array.
-/

namespace PlantOS.Shell.Editor

open Buffer

/-- The rows hold the lines of `text`. -/
structure Shows (e : Editor) (text : List (List UInt8)) : Prop where
  count : e.numLines = text.length
  fits : text.length ≤ 512
  rows : ∀ (i : ℕ) l, text[i]? = some l → Holds (e.lines i) 0 l ∧ l.length ≤ 255

/-- An operation that has a result with the lines of `text` and the same cursor. -/
def Yields (e : Editor) (r : Option Editor) (text : List (List UInt8)) : Prop :=
  ∃ e', r = some e' ∧ Shows e' text ∧ e'.cx = e.cx ∧ e'.cy = e.cy ∧ e'.scrollY = e.scrollY

section

variable {e : Editor} {A B : List (List UInt8)} {l u v : List UInt8}

theorem Yields.bind {r : Option Editor} {f : Editor → Option Editor} {s t : List (List UInt8)}
    (hr : Yields e r s)
    (hf : ∀ e', Shows e' s → e'.cx = e.cx → e'.cy = e.cy → Yields e' (f e') t) :
    Yields e (r >>= f) t := by
  obtain ⟨e', rfl, hshows, hcx, hcy, hscroll⟩ := hr
  obtain ⟨e'', hres, hshows', hcx', hcy', hscroll'⟩ := hf e' hshows hcx hcy
  exact ⟨e'', hres, hshows', hcx'.trans hcx, hcy'.trans hcy, hscroll'.trans hscroll⟩

theorem Shows.row (h : Shows e (A ++ l :: B)) : Holds (e.lines A.length) 0 l ∧ l.length ≤ 255 :=
  h.rows A.length l (by simp)

theorem Shows.lt (h : Shows e (A ++ l :: B)) : (A.length : ℤ) < e.numLines := by
  rw [h.count, List.length_append, List.length_cons]
  omega

theorem Shows.rowLen (h : Shows e (A ++ l :: B)) : e.rowLen A.length = l.length := by
  obtain ⟨hrow, hlen⟩ := h.row
  rw [Editor.rowLen, strlenFrom_eq hrow (by omega)]
  omega

theorem Shows.lineLen (h : Shows e (A ++ l :: B)) : e.lineLen A.length = l.length := by
  have := h.lt
  rw [Editor.lineLen, if_neg (by omega), h.rowLen]

theorem rowBytes_of_holds {i : ℤ} (hi : 0 ≤ i ∧ i < e.numLines) (h : Holds (e.lines i) 0 l)
    (hlen : l.length ≤ 255) : e.rowBytes i = l := by
  have hstrlen := strlenFrom_eq h (n := 256) (by omega)
  have hline : (e.lineLen i).toNat = l.length := by
    rw [Editor.lineLen, if_neg (by omega), Editor.rowLen, hstrlen]
    omega
  rw [rowBytes, hline]
  refine List.ext_getElem (by rw [List.length_map, List.length_range]) fun j h₁ h₂ => ?_
  have hbyte := h.bytes j (Nat.le_of_lt h₂)
  rw [Int.zero_add, List.getD_eq_getElem _ _ h₂] at hbyte
  rw [List.getElem_map, List.getElem_range, hbyte]

/-- The rows hold one text only. -/
theorem Shows.bufferLines_eq {text : List (List UInt8)} (h : Shows e text) : e.bufferLines = text := by
  have hcount := h.count
  refine List.ext_getElem (by simp [bufferLines, hcount]) fun i _ hi => ?_
  obtain ⟨hrow, hlen⟩ := h.rows i _ (List.getElem?_eq_getElem hi)
  simp only [bufferLines, List.getElem_map, List.getElem_range, rowBytes_of_holds (by omega) hrow hlen]

/-! ## One row -/

/-- A row gets a new content. -/
theorem Shows.putRow (h : Shows e (A ++ l :: B)) {row : ℤ → UInt8} (hrow : Holds row 0 u)
    (hu : u.length ≤ 255) : Yields e (e.putRow A.length row) (A ++ u :: B) := by
  have hfits := h.fits
  have hcount := h.count
  rw [List.length_append, List.length_cons] at hfits hcount
  refine ⟨{ e with lines := Function.update e.lines A.length row }, ?_, ⟨?_, ?_, ?_⟩, rfl, rfl, rfl⟩
  · rw [Editor.putRow, edMaxLines, store_eq (by omega) (by omega)]
    rfl
  · rw [List.length_append, List.length_cons]
    exact hcount
  · rw [List.length_append, List.length_cons]
    exact hfits
  · intro i m hi
    dsimp only
    rw [Function.update_apply]
    obtain rfl | hne := eq_or_ne i A.length
    · obtain rfl : u = m := by simpa using hi
      rw [if_pos rfl]
      exact ⟨hrow, hu⟩
    · rw [if_neg (by omega)]
      refine h.rows i m ?_
      rw [← hi, List.getElem?_append, List.getElem?_append]
      split
      · rfl
      · obtain ⟨k, hk⟩ := Nat.exists_eq_succ_of_ne_zero (by omega : i - A.length ≠ 0)
        rw [hk, List.getElem?_cons_succ, List.getElem?_cons_succ]

theorem Shows.insertCharAt (h : Shows e (A ++ (u ++ v) :: B)) {c : UInt8} (hc : c ≠ 0)
    (hlen : (u ++ v).length < 255) :
    Yields e (e.insertCharAt A.length u.length c) (A ++ (u ++ c :: v) :: B) := by
  have hput := h.putRow (h.row.1.insert hc) (by rw [List.length_append] at *; rw [List.length_cons]; omega)
  have hcount := h.lineLen
  rw [List.length_append] at hlen hcount
  have hshift : (e.lineLen A.length + 1 - u.length).toNat = v.length + 1 := by omega
  rw [Editor.insertCharAt, edLineMax, if_neg (by omega), hshift, shiftRight_eq (by omega) (by omega)]
  simp only [Option.bind_eq_bind, Option.bind_some]
  rwa [store_eq (by omega) (by omega), Option.bind_some]

theorem Shows.deleteCharAt {c : UInt8} (h : Shows e (A ++ (u ++ c :: v) :: B)) :
    Yields e (e.deleteCharAt A.length u.length) (A ++ (u ++ v) :: B) := by
  have hlen := h.row.2
  have hcount := h.lineLen
  rw [List.length_append, List.length_cons] at hlen hcount
  have hput := h.putRow h.row.1.erase (by rw [List.length_append]; omega)
  have hshift : (e.lineLen A.length - u.length).toNat = v.length + 1 := by omega
  rwa [Editor.deleteCharAt, if_neg (by omega), hshift, edLineMax, shiftLeft_eq (by omega) (by omega),
    Option.bind_eq_bind, Option.bind_some]

/-- `strcat` of the next line. -/
theorem Shows.appendLine (h : Shows e (A ++ u :: v :: B)) (hlen : u.length + v.length ≤ 255) :
    Yields e (e.appendLine A.length (A.length + 1)) (A ++ (u ++ v) :: v :: B) := by
  obtain ⟨hv, hvlen⟩ := h.rows (A.length + 1) v (by simp)
  rw [Int.natCast_add, Int.natCast_one] at hv
  have hput := h.putRow (h.row.1.append hv.noNul) (by rw [List.length_append]; omega)
  rwa [Editor.appendLine, copyString, h.rowLen, edLineMax, strcpy_eq hv (by omega) (by omega) (by omega),
    Option.bind_eq_bind, Option.bind_some]

/-- A NUL behind `u`. -/
theorem Shows.put_nul (h : Shows e (A ++ (u ++ v) :: B)) :
    Yields e (e.put A.length u.length 0) (A ++ u :: B) := by
  have hlen := h.row.2
  rw [List.length_append] at hlen
  have hput := h.putRow h.row.1.cut (by omega)
  rwa [Editor.put, edLineMax, store_eq (by omega) (by omega), Option.bind_eq_bind, Option.bind_some]

/-- The end of a line goes to the next line, which is empty. -/
theorem Shows.splitLine (h : Shows e (A ++ (u ++ v) :: [] :: B)) (hcy : e.cy = A.length)
    (hcx : e.cx = u.length) : Yields e (e.splitLine (u ++ v).length) (A ++ u :: v :: B) := by
  rw [Editor.splitLine, hcx, hcy, List.length_append]
  by_cases hv : v = []
  · subst hv
    rw [if_neg (by simp)]
    exact ⟨e, rfl, by simpa using h, rfl, rfl, rfl⟩
  have hpos := List.length_pos_of_ne_nil hv
  obtain ⟨hrow, hlen⟩ := h.row
  rw [List.length_append] at hlen
  have hdrop := hrow.drop u.length
  have hmin : min u.length (u ++ v).length = u.length := by simp
  rw [List.drop_left, hmin, Int.zero_add] at hdrop
  have hnext : ((A ++ [u ++ v]).length : ℤ) = A.length + 1 := by simp
  have h' : Shows e ((A ++ [u ++ v]) ++ [] :: B) := by simpa using h
  have hcopy := h'.putRow (h'.row.1.append hdrop.noNul) (by simp; omega)
  rw [hnext, List.nil_append, List.append_assoc, List.singleton_append] at hcopy
  rw [if_pos (by omega), copyString, edLineMax]
  refine Yields.bind (s := A ++ (u ++ v) :: v :: B) ?_ fun e' hshows hcx' hcy' => ?_
  · rw [strcpy_eq hdrop (by omega) (by omega) (by omega), Option.bind_eq_bind, Option.bind_some]
    simpa using hcopy
  · rw [hcy', hcx', hcy, hcx]
    exact hshows.put_nul

/-! ## Many rows -/

theorem Shows.insertLine (h : Shows e (A ++ B)) (hlen : (A ++ B).length < 512) :
    Yields e (e.insertLine A.length) (A ++ [] :: B) := by
  have hcount := h.count
  rw [List.length_append] at hlen hcount
  have hshift : (e.numLines - A.length).toNat = B.length := by omega
  -- The rows after the shift, before the new one is emptied.
  obtain ⟨rows, hrows⟩ : ∃ rows, rows = fun i : ℤ =>
    if (A.length : ℤ) < i ∧ i ≤ A.length + B.length then e.lines (i - 1) else e.lines i := ⟨_, rfl⟩
  refine ⟨{ e with
    lines := Function.update rows A.length (Function.update (rows A.length) 0 0)
    numLines := e.numLines + 1 }, ?_, ⟨?_, ?_, ?_⟩, rfl, rfl, rfl⟩
  · rw [Editor.insertLine, edMaxLines, if_neg (by omega), hshift, shiftRight_eq (by omega) (by omega),
      ← hrows]
    simp only [Option.bind_eq_bind, Option.bind_some, Editor.put, edLineMax]
    rw [store_eq (by omega) (by omega), Option.bind_some, Editor.putRow, edMaxLines,
      store_eq (by omega) (by omega)]
    rfl
  · rw [List.length_append, List.length_cons]
    dsimp only
    omega
  · rw [List.length_append, List.length_cons]
    omega
  · intro i l hi
    dsimp only
    rw [Function.update_apply]
    obtain hlt | rfl | hgt := Nat.lt_trichotomy i A.length
    · rw [List.getElem?_append_left hlt] at hi
      rw [if_neg (by omega), hrows]
      dsimp only
      rw [if_neg (by omega)]
      exact h.rows i l (by rw [List.getElem?_append_left hlt, hi])
    · obtain rfl : [] = l := by simpa using hi
      rw [if_pos rfl]
      exact ⟨.nil (Function.update_self ..), Nat.zero_le _⟩
    · obtain ⟨k, rfl⟩ := Nat.exists_eq_add_of_lt hgt
      rw [List.getElem?_append_right (by omega)] at hi
      have hk : A.length + k + 1 - A.length = k + 1 := by omega
      rw [hk, List.getElem?_cons_succ] at hi
      obtain ⟨hkB, -⟩ := List.getElem?_eq_some_iff.1 hi
      rw [if_neg (by omega), hrows]
      dsimp only
      rw [if_pos (by omega)]
      have := h.rows (A.length + k) l (by rw [List.getElem?_append_right (by omega),
        Nat.add_sub_cancel_left, hi])
      rwa [show ((A.length + k + 1 : ℕ) : ℤ) - 1 = ((A.length + k : ℕ) : ℤ) by omega]

theorem Shows.deleteLine (h : Shows e (A ++ l :: B)) (hne : A ++ B ≠ []) :
    Yields e (e.deleteLine A.length) (A ++ B) := by
  have hcount := h.count
  have hfits := h.fits
  have hpos := List.length_pos_of_ne_nil hne
  rw [List.length_append, List.length_cons] at hcount hfits
  rw [List.length_append] at hpos
  have hshift : (e.numLines - 1 - A.length).toNat = B.length := by omega
  obtain ⟨rows, hrows⟩ : ∃ rows, rows = fun i : ℤ =>
    if (A.length : ℤ) ≤ i ∧ i < A.length + B.length then e.lines (i + 1) else e.lines i := ⟨_, rfl⟩
  refine ⟨{ e with lines := rows, numLines := e.numLines - 1 }, ?_, ⟨?_, ?_, ?_⟩, rfl, rfl, rfl⟩
  · rw [Editor.deleteLine, if_neg (by omega), hshift, edMaxLines, shiftLeft_eq (by omega) (by omega),
      ← hrows]
    simp only [Option.bind_eq_bind, Option.bind_some]
    rw [if_neg (by omega)]
  · rw [List.length_append]
    dsimp only
    omega
  · rw [List.length_append]
    omega
  · intro i m hi
    rw [hrows]
    dsimp only
    obtain hlt | hle := Nat.lt_or_ge i A.length
    · rw [List.getElem?_append_left hlt] at hi
      rw [if_neg (by omega)]
      exact h.rows i m (by rw [List.getElem?_append_left hlt, hi])
    · obtain ⟨k, rfl⟩ := Nat.exists_eq_add_of_le hle
      rw [List.getElem?_append_right (by omega), Nat.add_sub_cancel_left] at hi
      obtain ⟨hkB, -⟩ := List.getElem?_eq_some_iff.1 hi
      have hk : A.length + k + 1 - A.length = k + 1 := by omega
      rw [if_pos (by omega)]
      have := h.rows (A.length + k + 1) m (by rw [List.getElem?_append_right (by omega), hk,
        List.getElem?_cons_succ, hi])
      rwa [show ((A.length + k : ℕ) : ℤ) + 1 = ((A.length + k + 1 : ℕ) : ℤ) by omega]

end

end PlantOS.Shell.Editor
