import PlantOS.Shell.EditorText
import Mathlib.Algebra.Order.Group.Int

/-!
# The rows that `load_file` fills

`load_file` splits a file into lines. It drops the carriage returns, what is behind the 255th character of a
line, and the lines behind the 512th. The invariant of its loop (`Loading`) has the rows that are complete and
the one that is being filled; a row may have zeros in it, behind which the editor does not look.

Reference: `load_file` in `shell/editor.c`.
-/

namespace PlantOS.Shell.Editor

open Buffer

/-- A line as it is loaded. -/
def loadedLine (l : List UInt8) : List UInt8 := (l.filter (· ≠ 13)).take 255

/-- From `i` on the row holds the bytes of a list and a zero. -/
def RowIs (f : ℤ → UInt8) : ℤ → List UInt8 → Prop
  | i, [] => f i = 0
  | i, a :: l => f i = a ∧ RowIs f (i + 1) l

section

variable {f : ℤ → UInt8} {i : ℤ} {l : List UInt8}

theorem RowIs.holds (h : RowIs f i l) : Holds f i (l.takeWhile (· ≠ 0)) := by
  induction l generalizing i with
  | nil => exact .nil h
  | cons a l ih =>
    by_cases ha : a = 0
    · rw [List.takeWhile_cons_of_neg (by simp [ha])]
      exact .nil (h.1.trans ha)
    · rw [List.takeWhile_cons_of_pos (by simp [ha])]
      exact holds_cons.2 ⟨h.1, ha, ih h.2⟩

/-- A byte is added at the end. -/
theorem RowIs.concat (h : RowIs f i l) (b : UInt8) :
    RowIs (Function.update (Function.update f (i + l.length) b) (i + l.length + 1) 0) i (l ++ [b]) := by
  induction l generalizing i with
  | nil =>
    refine ⟨?_, ?_⟩
    · rw [Function.update_of_ne (by simp), List.length_nil, Int.natCast_zero, Int.add_zero,
        Function.update_self]
    · simp [RowIs]
  | cons a l ih =>
    refine ⟨?_, ?_⟩
    · rw [Function.update_of_ne (by simp; omega), Function.update_of_ne (by simp; omega)]
      exact h.1
    · have hlen : i + (a :: l).length = i + 1 + l.length := by simp; omega
      rw [hlen]
      exact ih h.2

theorem RowIs.put_nul (h : RowIs f i l) : RowIs (Function.update f (i + l.length) 0) i l := by
  induction l generalizing i with
  | nil => simp [RowIs]
  | cons a l ih =>
    refine ⟨(Function.update_of_ne (by simp; omega) _ _).trans h.1, ?_⟩
    have hlen : i + (a :: l).length = i + 1 + l.length := by simp; omega
    rw [hlen]
    exact ih h.2

end

/-- The rows that have been filled and the row that is being filled. -/
structure Loading (e : Editor) (rows : List (List UInt8)) (cur : List UInt8) : Prop where
  count : e.numLines = rows.length + 1
  fits : rows.length < 512
  row : ∀ (i : ℕ) l, (rows ++ [cur])[i]? = some l → RowIs (e.lines i) 0 l ∧ l.length ≤ 255

section

variable {rows : List (List UInt8)} {cur : List UInt8} {e : Editor}

theorem Loading.row_cur (h : Loading e rows cur) : RowIs (e.lines rows.length) 0 cur ∧ cur.length ≤ 255 :=
  h.row rows.length cur List.getElem?_concat_length

/-- The rows after a change of the one that is being filled. -/
theorem Loading.change (h : Loading e rows cur) {f : ℤ → UInt8} {cur' : List UInt8} (hf : RowIs f 0 cur')
    (hlen : cur'.length ≤ 255) :
    Loading { e with lines := Function.update e.lines rows.length f } rows cur' := by
  refine ⟨h.count, h.fits, fun i l hi => ?_⟩
  dsimp only
  by_cases hlt : i < rows.length
  · rw [Function.update_of_ne (by omega)]
    rw [List.getElem?_append_left hlt] at hi
    exact h.row i l (by rw [List.getElem?_append_left hlt, hi])
  · obtain rfl : i = rows.length := by
      have := (List.getElem?_eq_some_iff.1 hi).1
      rw [List.length_append, List.length_singleton] at this
      omega
    rw [List.getElem?_concat_length] at hi
    obtain rfl := Option.some.inj hi
    rw [Function.update_self]
    exact ⟨hf, hlen⟩

theorem Loading.put_nul (h : Loading e rows cur) :
    ∃ e', e.put rows.length cur.length 0 = some e' ∧ Loading e' rows cur := by
  have hfits := h.fits
  obtain ⟨hcur, hlen⟩ := h.row_cur
  refine ⟨_, put_eq (by omega) (by omega) 0, h.change ?_ hlen⟩
  have hnul := hcur.put_nul
  rwa [Int.zero_add] at hnul

theorem Loading.next_line (h : Loading e rows cur) (hlt : rows.length + 1 < 512) :
    ∃ e', (do let e ← e.put rows.length cur.length 0; e.put (rows.length + 1) 0 0) = some e' ∧
      Loading { e' with numLines := rows.length + 1 + 1 } (rows ++ [cur]) [] := by
  obtain ⟨e', hput, h'⟩ := h.put_nul
  rw [hput, Option.bind_eq_bind, Option.bind_some, put_eq (by omega) (by omega)]
  refine ⟨_, rfl, by simp, by simpa using hlt, fun i l hi => ?_⟩
  dsimp only
  by_cases hlt : i < rows.length + 1
  · rw [Function.update_of_ne (by omega)]
    rw [List.getElem?_append_left (by simpa using hlt)] at hi
    exact h'.row i l hi
  · obtain rfl : i = rows.length + 1 := by
      have := (List.getElem?_eq_some_iff.1 hi).1
      rw [List.length_append, List.length_append, List.length_singleton, List.length_singleton] at this
      omega
    rw [List.getElem?_append_right (by simp)] at hi
    simp only [List.length_append, List.length_singleton, Nat.sub_self, List.getElem?_cons_zero,
      Option.some.injEq] at hi
    subst hi
    refine ⟨?_, Nat.zero_le _⟩
    push_cast
    rw [Function.update_self]
    exact Function.update_self ..

theorem Loading.next_char (h : Loading e rows cur) (hlt : cur.length < 255) (b : UInt8) :
    ∃ e', (do let e ← e.put rows.length cur.length b; e.put rows.length (cur.length + 1) 0) = some e' ∧
      Loading e' rows (cur ++ [b]) := by
  have hfits := h.fits
  rw [put_eq (by omega) (by omega), Option.bind_eq_bind, Option.bind_some, put_eq (by omega) (by omega)]
  refine ⟨_, rfl, ?_⟩
  simp only [Function.update_idem, Function.update_self]
  have hrow := h.row_cur.1.concat b
  rw [Int.zero_add] at hrow
  exact h.change hrow (by rw [List.length_append, List.length_singleton]; omega)

/-! ## Lines -/

variable {l r : List UInt8}

theorem length_loadedLine (l : List UInt8) : (loadedLine l).length ≤ 255 := List.length_take_le _ _

theorem loadedLine_concat (r : List UInt8) (b : UInt8) :
    loadedLine (r ++ [b]) =
      if b ≠ 13 then if (loadedLine r).length < 255 then loadedLine r ++ [b] else loadedLine r
      else loadedLine r := by
  rw [loadedLine, loadedLine, List.filter_append]
  by_cases hb : b = 13
  · simp [hb]
  · have hfilter : [b].filter (· ≠ 13) = [b] := by simp [hb]
    rw [if_pos hb, hfilter, List.take_append, List.length_take]
    split
    · rw [List.take_of_length_le (l := [b]) (by rw [List.length_singleton]; omega)]
    · rw [Nat.sub_eq_zero_of_le (by omega), List.take_zero, List.append_nil]

/-- The loop of `load_file` behind the lines `A` and the part `r` of the next line. -/
theorem Loading.loadLoop {A : List (List UInt8)} (h : Loading e (A.map loadedLine) (loadedLine r))
    (hr : 10 ∉ r) (file : List UInt8) :
    ∃ e' rows cur, loadLoop file A.length (loadedLine r).length e = some e' ∧ Loading e' rows cur ∧
      rows ++ [cur] = ((A ++ (r ++ file).splitOn 10).take 512).map loadedLine := by
  have hfits := h.fits
  rw [List.length_map] at hfits
  induction file generalizing e A r with
  | nil =>
    refine ⟨e, _, _, rfl, h, ?_⟩
    have hlen : (A ++ [r]).length ≤ 512 := by rw [List.length_append, List.length_singleton]; omega
    rw [List.append_nil, List.splitOn_eq_singleton hr, List.take_of_length_le hlen, List.map_append]
    rfl
  | cons b file ih =>
    rw [Editor.loadLoop, edMaxLines, edLineMax]
    by_cases hb : b = 10
    · rw [if_pos hb, hb, List.splitOn_append_cons_self_of_not_mem hr]
      by_cases hlast : 512 ≤ (A.length : ℤ) + 1
      · -- the last line has ended, and the rest of the file is not read
        obtain ⟨e', hput, hloading⟩ := h.put_nul
        rw [List.length_map] at hput
        rw [hput]
        have hfull : A.length + 1 = 512 := by omega
        refine ⟨e', _, _, if_pos hlast, hloading, ?_⟩
        have hlen : (A ++ [r]).length = 512 := by rw [List.length_append, List.length_singleton, hfull]
        rw [List.append_cons A r, List.take_append_of_le_length hlen.ge, List.take_of_length_le hlen.le,
          List.map_append]
        rfl
      · obtain ⟨e', hput, hloading⟩ := h.next_line (by rw [List.length_map]; omega)
        have hmap : A.map loadedLine ++ [loadedLine r] = (A ++ [r]).map loadedLine := by
          rw [List.map_append]
          rfl
        rw [hmap] at hloading
        obtain ⟨e'', rows, cur, hres, hloading', heq⟩ :=
          ih hloading List.not_mem_nil (by rw [List.length_append, List.length_singleton]; omega)
        rw [List.append_cons A r]
        refine ⟨e'', rows, cur, ?_, hloading', heq⟩
        simp only [if_neg hlast]
        have hbind := congrArg (Option.bind · fun e =>
          Editor.loadLoop file (A.length + 1) 0 { e with numLines := (A.length : ℤ) + 1 + 1 }) hput
        rw [Option.bind_eq_bind, Option.bind_assoc, List.length_map] at hbind
        rw [List.length_append, List.length_singleton, List.length_map] at hres
        push_cast at hres
        exact hbind.trans hres
    · rw [if_neg hb, List.append_cons]
      have hr' : 10 ∉ r ++ [b] := by
        rw [List.mem_append, List.mem_singleton, not_or]
        exact ⟨hr, Ne.symm hb⟩
      have hload := loadedLine_concat r b
      by_cases hcr : b ≠ 13
      · rw [if_pos hcr] at hload ⊢
        by_cases hlt : (loadedLine r).length < 255
        · rw [if_pos hlt] at hload
          rw [if_pos (by omega)]
          obtain ⟨e', hput, hloading⟩ := h.next_char hlt b
          rw [← hload] at hloading
          obtain ⟨e'', rows, cur, hres, hloading', heq⟩ := ih hloading hr' hfits
          refine ⟨e'', rows, cur, ?_, hloading', heq⟩
          have hbind := congrArg
            (Option.bind · (Editor.loadLoop file A.length ((loadedLine r).length + 1))) hput
          rw [Option.bind_eq_bind, Option.bind_assoc, List.length_map] at hbind
          rw [hload, List.length_append, List.length_singleton] at hres
          exact hbind.trans hres
        · -- the row is full, and the byte is dropped
          rw [if_neg hlt] at hload
          rw [if_neg (by omega), ← hload]
          exact ih (hload ▸ h) hr' hfits
      · -- a carriage return is left out
        rw [if_neg hcr] at hload ⊢
        rw [← hload]
        exact ih (hload ▸ h) hr' hfits

/-- What the editor shows of the rows. -/
theorem Loading.shows_text (h : Loading e rows cur) :
    Shows e ((rows ++ [cur]).map fun l => l.takeWhile (· ≠ 0)) := by
  have hfits := h.fits
  refine ⟨by rw [h.count]; simp, by simp; omega, fun i l hi => ?_⟩
  rw [List.getElem?_map, Option.map_eq_some_iff] at hi
  obtain ⟨m, hm, rfl⟩ := hi
  obtain ⟨hrow, hlen⟩ := h.row i m hm
  exact ⟨hrow.holds, (List.takeWhile_prefix _).length_le.trans hlen⟩

/-- `load_file` returns, with the lines of the file in the rows; a file that cannot be opened has none. -/
theorem loadFile_loading (e : Editor) (file : Option (List UInt8)) :
    ∃ e' rows cur, e.loadFile file = some e' ∧ Loading e' rows cur ∧
      rows ++ [cur] = (((file.getD []).splitOn 10).take 512).map loadedLine := by
  have hfirst : ∀ e : Editor, ∃ e', e.put 0 0 0 = some e' ∧ Loading { e' with numLines := 1 } [] [] := by
    intro e
    refine ⟨_, put_eq (by omega) (by omega) 0, rfl, by decide, fun i l hi => ?_⟩
    obtain ⟨hi', rfl⟩ := List.getElem?_eq_some_iff.1 hi
    obtain rfl := Nat.lt_one_iff.1 hi'
    exact ⟨by simp [RowIs], Nat.zero_le _⟩
  obtain ⟨e₁, h₁, hloading₁⟩ := hfirst { e with numLines := 0 }
  rw [loadFile, h₁]
  cases file with
  | none => exact ⟨_, _, _, rfl, hloading₁, rfl⟩
  | some bytes =>
    obtain ⟨e₂, h₂, hloading₂⟩ := hfirst e₁
    obtain ⟨e₃, rows, cur, h₃, hloading₃, heq⟩ := hloading₂.loadLoop (A := []) (r := []) List.not_mem_nil bytes
    have hcount := hloading₃.count
    refine ⟨e₃, rows, cur, ?_, hloading₃, heq⟩
    simp only [Option.bind_eq_bind, Option.bind_some, h₂]
    have hloop : Editor.loadLoop bytes 0 0 { e₂ with numLines := 1 } = some e₃ := h₃
    rw [hloop, Option.bind_some, if_neg (by omega)]

end

end PlantOS.Shell.Editor
