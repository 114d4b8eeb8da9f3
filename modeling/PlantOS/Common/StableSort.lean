import Mathlib.Data.Int.Notation
import Mathlib.Data.List.Perm.Basic

/-!
# Insertion sort in an array

An array is sorted by a three-way comparison: the element of index `i` is inserted among the elements before
it, from the right, behind the first one that is not greater. Read backwards, the front of the array is a list
into which the element is inserted at the first place where it fits (`reverse_shift`). Elements that are
inserted behind all that are equal to them keep their order, so the sort is stable.
-/

namespace StableSort

section

variable {α : Type} (cmp : α → α → ℤ)

/-- The inner loop for `key`, with the first `j` elements still to be compared. -/
def shift (key : α) : ℕ → (ℕ → α) → ℕ → α
  | 0, a => Function.update a 0 key
  | j + 1, a =>
    if cmp (a j) key ≤ 0 then Function.update a (j + 1) key
    else shift key j (Function.update a (j + 1) (a j))

/-- The rounds of the outer loop for the indexes from 1 to `k`. -/
def rounds : ℕ → (ℕ → α) → ℕ → α
  | 0, a => a
  | k + 1, a => shift cmp (rounds k a (k + 1)) (k + 1) (rounds k a)

/-- Insertion into a list that is read backwards. -/
def insertBack (key : α) : List α → List α
  | [] => [key]
  | x :: l => if cmp x key ≤ 0 then key :: x :: l else x :: insertBack key l

/-- The first `n` elements. -/
def front (a : ℕ → α) (n : ℕ) : List α := (List.range n).map a

variable {cmp}

theorem front_succ (a : ℕ → α) (n : ℕ) : (front a (n + 1)).reverse = a n :: (front a n).reverse := by
  rw [front, List.range_succ, List.map_append, List.reverse_append]
  rfl

theorem front_id (n : ℕ) : front id n = List.range n := List.map_id _

theorem front_update {a : ℕ → α} {n i : ℕ} (h : n ≤ i) (x : α) :
    front (Function.update a i x) n = front a n :=
  List.map_congr_left fun j hj => Function.update_of_ne (by have := List.mem_range.1 hj; omega) _ _

theorem shift_of_lt {key : α} {j i : ℕ} (h : j < i) (a : ℕ → α) : shift cmp key j a i = a i := by
  induction j generalizing a with
  | zero => exact Function.update_of_ne (by omega) _ _
  | succ j ih =>
    rw [shift]
    split
    · exact Function.update_of_ne (by omega) _ _
    · rw [ih (by omega), Function.update_of_ne (by omega)]

/-- The inner loop inserts the key. -/
theorem reverse_shift (key : α) (j : ℕ) (a : ℕ → α) :
    (front (shift cmp key j a) (j + 1)).reverse = insertBack cmp key (front a j).reverse := by
  induction j generalizing a with
  | zero => rfl
  | succ j ih =>
    rw [shift, front_succ a, insertBack]
    split
    · rw [front_succ, front_update (Nat.le_refl _), Function.update_self, front_succ]
    · rw [front_succ, shift_of_lt (Nat.lt_succ_self j), Function.update_self, ih, front_update (by omega)]

theorem insertBack_perm (key : α) (l : List α) : (insertBack cmp key l).Perm (key :: l) := by
  induction l with
  | nil => exact .refl _
  | cons x l ih =>
    rw [insertBack]
    split
    · exact .refl _
    · exact (ih.cons x).trans (.swap key x l)

theorem rounds_of_lt {k i : ℕ} (h : k < i) (a : ℕ → α) : rounds cmp k a i = a i := by
  induction k with
  | zero => rfl
  | succ k ih => rw [rounds, shift_of_lt h, ih (by omega)]

theorem front_rounds_perm (k : ℕ) (a : ℕ → α) : (front (rounds cmp k a) (k + 1)).Perm (front a (k + 1)) := by
  induction k with
  | zero => exact .refl _
  | succ k ih =>
    refine (List.reverse_perm _).symm.trans ?_
    rw [rounds, reverse_shift, rounds_of_lt (Nat.lt_succ_self k)]
    refine (insertBack_perm _ _).trans ?_
    refine (((List.reverse_perm _).trans ih).cons _).trans ?_
    rw [front, front, List.range_succ (n := k + 1), List.map_append]
    exact (List.perm_append_singleton _ _).symm

end

/-! ## Stability -/

/-- A three-way comparison of indexes. -/
structure IsComparison (cmp : ℕ → ℕ → ℤ) : Prop where
  neg : ∀ i j, cmp j i = -cmp i j
  trans : ∀ i j k, cmp i j ≤ 0 → cmp j k ≤ 0 → cmp i k ≤ 0

/-- `i` is to stand before `j`: it is less, or equal and was before it. -/
def Before (cmp : ℕ → ℕ → ℤ) (i j : ℕ) : Prop := cmp i j < 0 ∨ cmp i j = 0 ∧ i < j

variable {cmp : ℕ → ℕ → ℤ}

theorem IsComparison.before_trans (h : IsComparison cmp) {i j k : ℕ} (hij : Before cmp i j)
    (hjk : Before cmp j k) : Before cmp i k := by
  have hij' : cmp i j ≤ 0 := by obtain h | h := hij <;> omega
  have hjk' : cmp j k ≤ 0 := by obtain h | h := hjk <;> omega
  have hik := h.trans i j k hij' hjk'
  obtain hlt | heq := Int.lt_or_eq_of_le hik
  · exact .inl hlt
  · -- Neither of the two steps can be strict, or `i` would be less than `k`.
    have hki : cmp k i ≤ 0 := by rw [h.neg, heq]; exact Int.le_refl _
    have hji := h.trans j k i hjk' hki
    have hkj := h.trans k i j hki hij'
    rw [h.neg] at hji hkj
    have h₁ : i < j := by obtain h | h := hij <;> omega
    have h₂ : j < k := by obtain h | h := hjk <;> omega
    exact .inr ⟨heq, by omega⟩

/-- A later index is inserted into its place. -/
theorem IsComparison.insertBack_pairwise (h : IsComparison cmp) {key : ℕ} {l : List ℕ}
    (hl : l.Pairwise fun j i => Before cmp i j) (hkey : ∀ i ∈ l, i < key) :
    (insertBack cmp key l).Pairwise fun j i => Before cmp i j := by
  induction l with
  | nil => exact List.pairwise_singleton _ _
  | cons x l ih =>
    obtain ⟨hx, hl⟩ := List.pairwise_cons.1 hl
    have hlt := hkey x List.mem_cons_self
    rw [insertBack]
    split
    · rename_i hle
      have hbefore : Before cmp x key := by
        obtain hneg | hzero := Int.lt_or_eq_of_le hle
        · exact .inl hneg
        · exact .inr ⟨hzero, hlt⟩
      refine List.pairwise_cons.2 ⟨fun i hi => ?_, List.pairwise_cons.2 ⟨hx, hl⟩⟩
      obtain rfl | hi := List.mem_cons.1 hi
      · exact hbefore
      · exact h.before_trans (hx i hi) hbefore
    · rename_i hgt
      refine List.pairwise_cons.2 ⟨fun i hi => ?_, ih hl fun i hi => hkey i (List.mem_cons_of_mem _ hi)⟩
      obtain rfl | hi := List.mem_cons.1 ((insertBack_perm _ _).mem_iff.1 hi)
      · have := h.neg x i
        exact .inl (by omega)
      · exact hx i hi

/-- The indexes of an array are sorted stably. -/
theorem IsComparison.rounds_pairwise (h : IsComparison cmp) (k : ℕ) :
    (front (rounds cmp k id) (k + 1)).Pairwise (Before cmp) := by
  rw [← List.pairwise_reverse]
  induction k with
  | zero => exact List.pairwise_singleton _ _
  | succ k ih =>
    rw [rounds, reverse_shift, rounds_of_lt (Nat.lt_succ_self k)]
    refine h.insertBack_pairwise ih fun i hi => ?_
    have hmem := (front_rounds_perm k id).mem_iff.1 (List.mem_reverse.1 hi)
    rw [front_id, List.mem_range] at hmem
    exact hmem

end StableSort
