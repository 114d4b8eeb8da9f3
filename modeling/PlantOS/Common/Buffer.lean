import Mathlib.Data.List.Basic
import Mathlib.Data.List.GetD
import Mathlib.Data.List.InsertIdx
import Mathlib.Data.Int.Notation

/-!
# Arrays of a fixed size

An array is a function on the integers. A store at an index outside of it has no result, so that a
computation with a result has made all its stores inside. The loops that shift a part of an array by one, and
C strings in arrays of bytes.
-/

namespace Buffer

/-! ## Stores and shifts -/

section

variable {α : Type*} {size start : ℤ} {f : ℤ → α}

/-- Store at `i` in an array of `size` elements. -/
def store (size : ℤ) (f : ℤ → α) (i : ℤ) (a : α) : Option (ℤ → α) :=
  if 0 ≤ i ∧ i < size then some (Function.update f i a) else none

theorem store_eq {i : ℤ} (h0 : 0 ≤ i) (hi : i < size) (a : α) :
    store size f i a = some (Function.update f i a) :=
  if_pos ⟨h0, hi⟩

/-- `for (i = start + n; i > start; i--) f[i] = f[i - 1]`. -/
def shiftRight (size start : ℤ) : ℕ → (ℤ → α) → Option (ℤ → α)
  | 0, f => some f
  | n + 1, f => store size f (start + n + 1) (f (start + n)) >>= shiftRight size start n

/-- `for (i = start; i < start + n; i++) f[i] = f[i + 1]`. -/
def shiftLeft (size : ℤ) : ℤ → ℕ → (ℤ → α) → Option (ℤ → α)
  | _, 0, f => some f
  | i, n + 1, f => store size f i (f (i + 1)) >>= shiftLeft size (i + 1) n

theorem shiftRight_eq {n : ℕ} (h0 : -1 ≤ start) (hn : start + n < size) :
    shiftRight size start n f = some fun i => if start < i ∧ i ≤ start + n then f (i - 1) else f i := by
  induction n generalizing f with
  | zero =>
    refine congrArg some (funext fun i => (if_neg ?_).symm)
    omega
  | succ n ih =>
    push_cast at hn
    rw [shiftRight, store_eq (by omega) (by omega)]
    refine (ih (by omega)).trans (congrArg some (funext fun i => ?_))
    simp only [Function.update_apply]
    grind

theorem shiftLeft_eq {n : ℕ} (h0 : 0 ≤ start) (hn : start + n ≤ size) :
    shiftLeft size start n f = some fun i => if start ≤ i ∧ i < start + n then f (i + 1) else f i := by
  induction n generalizing f start with
  | zero =>
    refine congrArg some (funext fun i => (if_neg ?_).symm)
    omega
  | succ n ih =>
    push_cast at hn
    rw [shiftLeft, store_eq (by omega) (by omega)]
    refine (ih (by omega) (by omega)).trans (congrArg some (funext fun i => ?_))
    simp only [Function.update_apply]
    grind

end

/-! ## Strings -/

/-- `strlen` in an array of `n` bytes. -/
def strlenFrom (s : ℤ → UInt8) : ℕ → ℤ → ℤ
  | 0, i => i
  | n + 1, i => if s i = 0 then i else strlenFrom s n (i + 1)

theorem strlenFrom_le (s : ℤ → UInt8) (n : ℕ) (i : ℤ) : strlenFrom s n i ≤ i + n := by
  induction n generalizing i with
  | zero => exact Int.le_of_eq (Int.add_zero i).symm
  | succ n ih =>
    have h := ih (i + 1)
    rw [strlenFrom]
    split <;> omega

/-- `strcpy` to the index `d`, from the index `i` on, for at most `n` bytes. -/
def strcpy (size : ℤ) (src : ℤ → UInt8) : ℕ → ℤ → ℤ → (ℤ → UInt8) → Option (ℤ → UInt8)
  | 0, _, _, _ => none
  | n + 1, d, i, f => do
    let f ← store size f d (src i)
    if src i = 0 then some f else strcpy size src n (d + 1) (i + 1) f

/-- From `start` on the array holds the string `l`. -/
structure Holds (f : ℤ → UInt8) (start : ℤ) (l : List UInt8) : Prop where
  bytes : ∀ j : ℕ, j ≤ l.length → f (start + j) = l.getD j 0
  noNul : 0 ∉ l

section

variable {f src : ℤ → UInt8} {start : ℤ} {a : UInt8} {l : List UInt8}

theorem Holds.nil (h : f start = 0) : Holds f start [] := by
  refine ⟨fun j hj => ?_, List.not_mem_nil⟩
  obtain rfl := Nat.le_zero.1 hj
  simpa using h

theorem add_succ_cast (i : ℤ) (j : ℕ) : i + ((j + 1 : ℕ) : ℤ) = i + 1 + j := by
  omega

theorem holds_cons : Holds f start (a :: l) ↔ f start = a ∧ a ≠ 0 ∧ Holds f (start + 1) l := by
  constructor
  · intro h
    have h0 := h.bytes 0 (Nat.zero_le _)
    refine ⟨by simpa using h0, fun ha => h.noNul (ha ▸ List.mem_cons_self), fun j hj => ?_,
      fun hmem => h.noNul (List.mem_cons_of_mem a hmem)⟩
    have hj := h.bytes (j + 1) (Nat.succ_le_succ hj)
    rwa [List.getD_cons_succ, add_succ_cast] at hj
  · rintro ⟨h0, ha, h⟩
    refine ⟨fun j hj => ?_, fun hmem => ?_⟩
    · cases j with
      | zero => simpa using h0
      | succ j =>
        rw [List.getD_cons_succ, add_succ_cast]
        exact h.bytes j (Nat.le_of_succ_le_succ hj)
    · obtain rfl | hmem := List.mem_cons.1 hmem
      · exact ha rfl
      · exact h.noNul hmem

theorem Holds.nul (h : Holds f start l) : f (start + l.length) = 0 := by
  rw [h.bytes _ (Nat.le_refl _), List.getD_eq_default _ _ (Nat.le_refl _)]

theorem Holds.drop (h : Holds f start l) (n : ℕ) : Holds f (start + min n l.length) (l.drop n) := by
  induction n generalizing start l with
  | zero => simpa using h
  | succ n ih =>
    cases l with
    | nil => simpa using h
    | cons a l =>
      obtain ⟨-, -, h⟩ := holds_cons.1 h
      have := ih h
      rw [List.drop_succ_cons]
      convert this using 1
      simp
      omega

theorem strlenFrom_eq {n : ℕ} (h : Holds f start l) (hn : l.length < n) :
    strlenFrom f n start = start + l.length := by
  induction l generalizing start n with
  | nil =>
    obtain ⟨n, rfl⟩ := Nat.exists_eq_add_of_lt hn
    have h0 : f start = 0 := by simpa using h.nul
    rw [strlenFrom, if_pos h0]
    simp
  | cons a l ih =>
    cases n with
    | zero => omega
    | succ n =>
      obtain ⟨h0, ha, h⟩ := holds_cons.1 h
      rw [strlenFrom, if_neg (by rwa [h0]), ih h (Nat.lt_of_succ_lt_succ hn), List.length_cons,
        add_succ_cast]

/-- The bytes up to the first NUL. -/
theorem exists_holds {n : ℕ} (h : f (start + n) = 0) : ∃ l, Holds f start l ∧ l.length ≤ n := by
  induction n generalizing start with
  | zero => exact ⟨[], .nil (by simpa using h), Nat.le_refl _⟩
  | succ n ih =>
    by_cases h0 : f start = 0
    · exact ⟨[], .nil h0, Nat.zero_le _⟩
    · rw [add_succ_cast] at h
      obtain ⟨l, hl, hn⟩ := ih h
      exact ⟨f start :: l, holds_cons.2 ⟨rfl, h0, hl⟩, Nat.succ_le_succ hn⟩

theorem strcpy_eq {size d : ℤ} {n : ℕ} (h : Holds src start l) (h0 : 0 ≤ d) (hd : d + l.length < size)
    (hn : l.length < n) :
    strcpy size src n d start f =
      some fun i => if d ≤ i ∧ i ≤ d + l.length then l.getD (i - d).toNat 0 else f i := by
  induction l generalizing start d n f with
  | nil =>
    have hnul : src start = 0 := by simpa using h.nul
    obtain ⟨n, rfl⟩ := Nat.exists_eq_add_of_lt hn
    rw [strcpy, store_eq h0 (by simpa using hd)]
    simp only [Option.bind_eq_bind, Option.bind_some, if_pos hnul]
    refine congrArg some (funext fun i => ?_)
    rw [Function.update_apply, hnul]
    simp only [List.length_nil, List.getD_nil]
    exact if_congr (by omega) rfl rfl
  | cons a l ih =>
    cases n with
    | zero => omega
    | succ n =>
      obtain ⟨hfirst, ha, h⟩ := holds_cons.1 h
      rw [List.length_cons] at hd hn
      rw [strcpy, store_eq h0 (by omega), hfirst]
      simp only [Option.bind_eq_bind, Option.bind_some, if_neg ha]
      rw [ih h (by omega) (by omega) (by omega)]
      refine congrArg some (funext fun i => ?_)
      rw [Function.update_apply, List.length_cons]
      obtain hlt | rfl | hgt := Int.lt_trichotomy i d
      · rw [if_neg (by omega), if_neg (by omega), if_neg (by omega)]
      · rw [if_neg (by omega), if_pos rfl, if_pos (by omega)]
        simp
      · have hj : (i - d).toNat = (i - (d + 1)).toNat + 1 := by omega
        rw [hj, List.getD_cons_succ, if_neg (by omega : ¬i = d)]
        exact if_congr (by omega) rfl rfl

/-- A byte is stored behind `u`, and the rest of the string moves on by one. -/
theorem Holds.insert {u v : List UInt8} (h : Holds f 0 (u ++ v)) (ha : a ≠ 0) :
    Holds (Function.update
      (fun i => if (u.length : ℤ) < i ∧ i ≤ u.length + (v.length + 1 : ℕ) then f (i - 1) else f i) u.length a)
      0 (u ++ a :: v) := by
  refine ⟨fun j hj => ?_, ?_⟩
  · rw [List.length_append, List.length_cons] at hj
    rw [Function.update_apply, Int.zero_add]
    obtain hlt | rfl | hgt := Nat.lt_trichotomy j u.length
    · rw [if_neg (by omega), if_neg (by omega), List.getD_append _ _ _ _ hlt]
      have := h.bytes j (by rw [List.length_append]; omega)
      rwa [Int.zero_add, List.getD_append _ _ _ _ hlt] at this
    · rw [if_pos rfl, List.getD_append_right _ _ _ _ (Nat.le_refl _), Nat.sub_self, List.getD_cons_zero]
    · obtain ⟨k, rfl⟩ := Nat.exists_eq_add_of_lt hgt
      have := h.bytes (u.length + k) (by rw [List.length_append]; omega)
      rw [List.getD_append_right _ _ _ _ (Nat.le_add_right _ _), Nat.add_sub_cancel_left] at this
      rw [if_neg (by omega), if_pos (by omega), List.getD_append_right _ _ _ _ (by omega)]
      have hk : u.length + k + 1 - u.length = k + 1 := by omega
      rw [hk, List.getD_cons_succ, ← this]
      congr 1
      omega
  · have := h.noNul
    simp only [List.mem_append, List.mem_cons, not_or] at this ⊢
    exact ⟨this.1, ha.symm, this.2⟩

/-- The byte behind `u` is taken out. -/
theorem Holds.erase {u v : List UInt8} (h : Holds f 0 (u ++ a :: v)) :
    Holds (fun i => if (u.length : ℤ) ≤ i ∧ i < u.length + (v.length + 1 : ℕ) then f (i + 1) else f i)
      0 (u ++ v) := by
  refine ⟨fun j hj => ?_, ?_⟩
  · rw [List.length_append] at hj
    rw [Int.zero_add]
    obtain hlt | hle := Nat.lt_or_ge j u.length
    · rw [if_neg (by omega), List.getD_append _ _ _ _ hlt]
      have := h.bytes j (by rw [List.length_append]; omega)
      rwa [Int.zero_add, List.getD_append _ _ _ _ hlt] at this
    · obtain ⟨k, rfl⟩ := Nat.exists_eq_add_of_le hle
      have := h.bytes (u.length + k + 1) (by rw [List.length_append, List.length_cons]; omega)
      have hk : u.length + k + 1 - u.length = k + 1 := by omega
      rw [List.getD_append_right _ _ _ _ (by omega), hk, List.getD_cons_succ] at this
      rw [if_pos (by omega), List.getD_append_right _ _ _ _ (Nat.le_add_right _ _), Nat.add_sub_cancel_left,
        ← this]
      congr 1
      omega
  · have := h.noNul
    simp only [List.mem_append, List.mem_cons, not_or] at this ⊢
    exact ⟨this.1, this.2.2⟩

/-- A string copied behind `u`. -/
theorem Holds.append {u v : List UInt8} (hu : Holds f 0 u) (hv : 0 ∉ v) :
    Holds (fun i => if (u.length : ℤ) ≤ i ∧ i ≤ u.length + v.length then v.getD (i - u.length).toNat 0
      else f i) 0 (u ++ v) := by
  refine ⟨fun j hj => ?_, ?_⟩
  · rw [List.length_append] at hj
    rw [Int.zero_add]
    obtain hlt | hle := Nat.lt_or_ge j u.length
    · rw [if_neg (by omega), List.getD_append _ _ _ _ hlt]
      have := hu.bytes j (by omega)
      rwa [Int.zero_add] at this
    · rw [if_pos (by omega), List.getD_append_right _ _ _ _ hle]
      congr 1
      omega
  · have := hu.noNul
    simp only [List.mem_append, not_or]
    exact ⟨this, hv⟩

/-- A NUL behind `u`. -/
theorem Holds.cut {u v : List UInt8} (h : Holds f 0 (u ++ v)) : Holds (Function.update f u.length 0) 0 u := by
  refine ⟨fun j hj => ?_, fun hmem => h.noNul (List.mem_append_left v hmem)⟩
  rw [Function.update_apply, Int.zero_add]
  obtain hlt | rfl := Nat.lt_or_eq_of_le hj
  · rw [if_neg (by omega)]
    have := h.bytes j (by rw [List.length_append]; omega)
    rwa [Int.zero_add, List.getD_append _ _ _ _ hlt] at this
  · rw [if_pos rfl, List.getD_eq_default _ _ (Nat.le_refl _)]

end

end Buffer
