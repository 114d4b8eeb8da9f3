import Mathlib.Algebra.BigOperators.Intervals
import Mathlib.Algebra.Field.Rat

/-!
# Matrices of the user library

Model of the kernels of `user/libc/matrix.c` that the training of a network uses, with exact numbers in place
of `double`. A matrix is stored row by row; a store changes one number of `data`. The kernels that fill a
matrix differ in the number that they compute for an entry.

Reference: `user/libc/matrix.c`, `user/libc/matrix.h`.
-/

namespace PlantOS.User.Train

open Finset

/-- `for (int i = 0; i < n; i++)`. -/
def loop {σ : Type} (n : ℕ) (body : ℕ → σ → σ) (s : σ) : σ := (List.range n).foldl (fun s i => body i s) s

/-- `Mat`. -/
structure Mat where
  rows : ℕ
  cols : ℕ
  data : ℕ → ℚ

namespace Mat

/-- `m->data[p] = v`. -/
def store (m : Mat) (p : ℕ) (v : ℚ) : Mat := { m with data := Function.update m.data p v }

/-- `mat_get`. -/
def get (m : Mat) (i j : ℕ) : ℚ := m.data (i * m.cols + j)

/-- `mat_set`. -/
def set (m : Mat) (i j : ℕ) (v : ℚ) : Mat := m.store (i * m.cols + j) v

/-- The sizes are set, the numbers stay. -/
def resize (m : Mat) (rows cols : ℕ) : Mat := { m with rows := rows, cols := cols }

/-- `mat_alloc`. -/
def alloc (rows cols : ℕ) : Mat := ⟨rows, cols, fun _ => 0⟩

/-- Each of the first `n` numbers is set. -/
def fill (n : ℕ) (v : ℕ → ℚ) (m : Mat) : Mat := loop n (fun p m => m.store p (v p)) m

/-- Each entry of the first `n` columns of the first `m` rows is set. -/
def fillGrid (m n : ℕ) (v : ℕ → ℕ → ℚ) (C : Mat) : Mat :=
  loop m (fun i C => loop n (fun j C => C.store (i * C.cols + j) (v i j)) C) C

/-- A sum of products, as the kernels compute it. -/
def dot (n : ℕ) (f : ℕ → ℚ) : ℚ := loop n (fun k sum => sum + f k) 0

/-- `mat_mul`. -/
def mul (A B C : Mat) : Mat :=
  fillGrid A.rows B.cols (fun i j => dot A.cols fun k => A.data (i * A.cols + k) * B.data (k * B.cols + j)) C

/-- `mat_mul_at`. -/
def mulAt (A B C : Mat) : Mat :=
  fillGrid A.cols B.cols (fun i j => dot A.rows fun k => A.data (k * A.cols + i) * B.data (k * B.cols + j)) C

/-- `mat_mul_bt`. -/
def mulBt (A B C : Mat) : Mat :=
  fillGrid A.rows B.rows (fun i j => dot A.cols fun k => A.data (i * A.cols + k) * B.data (j * B.cols + k)) C

/-- `mat_add_bias`. -/
def addBias (A b : Mat) : Mat :=
  loop A.cols
    (fun j A => loop A.rows (fun i A => A.store (i * A.cols + j) (A.data (i * A.cols + j) + b.data i)) A) A

/-- `mat_sum_cols`. -/
def sumCols (A out : Mat) : Mat := fill A.rows (fun i => dot A.cols fun j => A.data (i * A.cols + j)) out

end Mat

/-! ## Loops -/

section

variable {σ : Type} (body : ℕ → σ → σ) (s : σ)

@[simp] theorem loop_zero : loop 0 body s = s := rfl

theorem loop_succ (n : ℕ) : loop (n + 1) body s = body n (loop n body s) := by
  rw [loop, List.range_succ, List.foldl_append]
  rfl

end

namespace Mat

theorem dot_eq_sum (n : ℕ) (f : ℕ → ℚ) : dot n f = ∑ k ∈ range n, f k := by
  induction n with
  | zero => rfl
  | succ n ih =>
    rw [sum_range_succ, ← ih]
    exact loop_succ _ _ _

theorem index_div {n i j : ℕ} (hj : j < n) : (i * n + j) / n = i := by
  rw [Nat.mul_comm, Nat.mul_add_div (by omega), Nat.div_eq_of_lt hj, Nat.add_zero]

theorem index_inj {n i j i' j' : ℕ} (hj : j < n) (hj' : j' < n) :
    i * n + j = i' * n + j' ↔ i = i' ∧ j = j' := by
  constructor
  · intro h
    have hi : i = i' := by rw [← index_div (i := i) hj, h, index_div hj']
    subst hi
    exact ⟨rfl, Nat.add_left_cancel h⟩
  · rintro ⟨rfl, rfl⟩
    rfl

variable {m n i j : ℕ} {v : ℕ → ℕ → ℚ} {A B C : Mat}

theorem get_store {i' j' : ℕ} (hj : j < C.cols) (hj' : j' < C.cols) (x : ℚ) :
    (C.store (i * C.cols + j) x).get i' j' = if i' = i ∧ j' = j then x else C.get i' j' := by
  change Function.update C.data (i * C.cols + j) x (i' * C.cols + j') = _
  rw [Function.update_apply]
  exact if_congr (index_inj hj' hj) rfl rfl

/-- A loop over stores keeps the sizes. -/
theorem loop_cols (body : ℕ → Mat → Mat) (h : ∀ i C, (body i C).rows = C.rows ∧ (body i C).cols = C.cols)
    (n : ℕ) (C : Mat) : (loop n body C).rows = C.rows ∧ (loop n body C).cols = C.cols := by
  induction n with
  | zero => exact ⟨rfl, rfl⟩
  | succ n ih =>
    rw [loop_succ]
    exact ⟨(h n _).1.trans ih.1, (h n _).2.trans ih.2⟩

theorem fill_data (n : ℕ) (v : ℕ → ℚ) (C : Mat) (p : ℕ) :
    (fill n v C).data p = if p < n then v p else C.data p := by
  rw [fill]
  induction n with
  | zero => rfl
  | succ n ih =>
    rw [loop_succ, store]
    dsimp only
    rw [Function.update_apply]
    by_cases hp : p = n
    · rw [if_pos hp, if_pos (by omega), hp]
    · rw [if_neg hp, ih]
      exact if_congr (by omega) rfl rfl

theorem fill_cols (n : ℕ) (v : ℕ → ℚ) (C : Mat) : (fill n v C).rows = C.rows ∧ (fill n v C).cols = C.cols :=
  loop_cols (fun p m => m.store p (v p)) (fun _ _ => ⟨rfl, rfl⟩) n C

theorem fillGrid_cols (m n : ℕ) (v : ℕ → ℕ → ℚ) (C : Mat) :
    (fillGrid m n v C).rows = C.rows ∧ (fillGrid m n v C).cols = C.cols :=
  loop_cols _ (fun i C => loop_cols (fun j C => C.store (i * C.cols + j) (v i j)) (fun _ _ => ⟨rfl, rfl⟩) n C)
    m C

/-- The entries of a row that are set. -/
theorem get_fillRow (hn : n ≤ C.cols) (i : ℕ) (v : ℕ → ℚ) {i' j' : ℕ} (hj' : j' < C.cols) :
    (loop n (fun j C => C.store (i * C.cols + j) (v j)) C).get i' j' =
      if i' = i ∧ j' < n then v j' else C.get i' j' := by
  induction n with
  | zero => simp
  | succ n ih =>
    have hcols := (loop_cols (fun j C => C.store (i * C.cols + j) (v j)) (fun _ _ => ⟨rfl, rfl⟩) n C).2
    rw [loop_succ, get_store (by omega) (by omega), ih (by omega)]
    by_cases hj : i' = i ∧ j' = n
    · rw [if_pos hj, if_pos (by omega), hj.2]
    · rw [if_neg hj]
      exact if_congr (by omega) rfl rfl

theorem get_fillGrid (hn : n ≤ C.cols) {i' j' : ℕ} (hj' : j' < C.cols) :
    (fillGrid m n v C).get i' j' = if i' < m ∧ j' < n then v i' j' else C.get i' j' := by
  induction m with
  | zero => simp [fillGrid]
  | succ m ih =>
    have hcols := (fillGrid_cols m n v C).2
    rw [fillGrid, loop_succ]
    change (loop n (fun j C => C.store (m * C.cols + j) (v m j)) (fillGrid m n v C)).get i' j' = _
    rw [get_fillRow (by omega) m (v m) (by omega), ih]
    by_cases hi : i' = m ∧ j' < n
    · rw [if_pos hi, if_pos (by omega), hi.1]
    · rw [if_neg hi]
      exact if_congr (by omega) rfl rfl

/-- The inner loop of `mat_add_bias`, over `m` rows. -/
def addColumn (b : Mat) (j m : ℕ) (A : Mat) : Mat :=
  loop m (fun i A => A.store (i * A.cols + j) (A.data (i * A.cols + j) + b.data i)) A

theorem addColumn_cols (b : Mat) (j m : ℕ) (A : Mat) :
    (addColumn b j m A).rows = A.rows ∧ (addColumn b j m A).cols = A.cols :=
  loop_cols (fun i A => A.store (i * A.cols + j) (A.data (i * A.cols + j) + b.data i))
    (fun _ _ => ⟨rfl, rfl⟩) m A

theorem get_addColumn (b : Mat) (hj : j < A.cols) {i' j' : ℕ} (hj' : j' < A.cols) :
    (addColumn b j m A).get i' j' = if i' < m ∧ j' = j then A.get i' j' + b.data i' else A.get i' j' := by
  induction m generalizing i' j' with
  | zero => simp [addColumn]
  | succ m ih =>
    have hcols := (addColumn_cols b j m A).2
    rw [addColumn, loop_succ]
    change ((addColumn b j m A).store (m * (addColumn b j m A).cols + j)
      ((addColumn b j m A).get m j + b.data m)).get i' j' = _
    have hself : (addColumn b j m A).get m j = A.get m j := (ih hj).trans (if_neg (by omega))
    rw [get_store (by omega) (by omega), hself, ih hj']
    by_cases hi : i' = m ∧ j' = j
    · rw [if_pos hi, if_pos (by omega), hi.1, hi.2]
    · rw [if_neg hi]
      exact if_congr (by omega) rfl rfl

theorem addBias_cols (A b : Mat) : (addBias A b).rows = A.rows ∧ (addBias A b).cols = A.cols :=
  loop_cols (fun j A => addColumn b j A.rows A) (fun j A => addColumn_cols b j A.rows A) A.cols A

/-- Each entry is changed once. -/
theorem get_addBias (b : Mat) (hi : i < A.rows) (hj : j < A.cols) :
    (addBias A b).get i j = A.get i j + b.data i := by
  have hloop : ∀ n ≤ A.cols, (loop n (fun j A => addColumn b j A.rows A) A).get i j =
      if j < n then A.get i j + b.data i else A.get i j := by
    intro n hn
    induction n with
    | zero => rfl
    | succ n ih =>
      obtain ⟨hrows, hcols⟩ := loop_cols (fun j A => addColumn b j A.rows A)
        (fun j A => addColumn_cols b j A.rows A) n A
      rw [loop_succ, get_addColumn b (by omega) (by omega), hrows, ih (by omega)]
      by_cases hjn : j = n
      · rw [if_pos ⟨hi, hjn⟩, if_neg (by omega), if_pos (by omega)]
      · rw [if_neg fun h => hjn h.2]
        exact if_congr (by omega) rfl rfl
  exact (hloop A.cols le_rfl).trans (if_pos hj)

/-! ## Kernels -/

theorem mul_cols (A B C : Mat) : (mul A B C).rows = C.rows ∧ (mul A B C).cols = C.cols := fillGrid_cols ..

theorem mulAt_cols (A B C : Mat) : (mulAt A B C).rows = C.rows ∧ (mulAt A B C).cols = C.cols :=
  fillGrid_cols ..

theorem get_mul (hC : B.cols = C.cols) (hi : i < A.rows) (hj : j < C.cols) :
    (mul A B C).get i j = ∑ k ∈ range A.cols, A.get i k * B.get k j := by
  rw [mul, get_fillGrid hC.le hj, if_pos ⟨hi, hC ▸ hj⟩, dot_eq_sum]
  rfl

theorem get_mulAt (hC : B.cols = C.cols) (hi : i < A.cols) (hj : j < C.cols) :
    (mulAt A B C).get i j = ∑ k ∈ range A.rows, A.get k i * B.get k j := by
  rw [mulAt, get_fillGrid hC.le hj, if_pos ⟨hi, hC ▸ hj⟩, dot_eq_sum]
  rfl

theorem get_mulBt (hC : B.rows = C.cols) (hi : i < A.rows) (hj : j < C.cols) :
    (mulBt A B C).get i j = ∑ k ∈ range A.cols, A.get i k * B.data (j * B.cols + k) := by
  rw [mulBt, get_fillGrid hC.le hj, if_pos ⟨hi, hC ▸ hj⟩, dot_eq_sum]
  rfl

theorem sumCols_data (out : Mat) (hi : i < A.rows) :
    (sumCols A out).data i = ∑ j ∈ range A.cols, A.get i j := by
  rw [sumCols, fill_data, if_pos hi, dot_eq_sum]
  rfl

end Mat

end PlantOS.User.Train
