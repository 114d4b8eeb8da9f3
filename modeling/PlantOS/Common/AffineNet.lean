import Mathlib.Algebra.BigOperators.Field
import Mathlib.Analysis.Calculus.Deriv.Add
import Mathlib.Analysis.Calculus.Deriv.Mul
import Mathlib.Analysis.Calculus.Deriv.Pow
import Mathlib.Topology.Algebra.Module.ModuleTopology

/-!
# The gradient of a chain of affine maps

Affine maps one after the other, applied to each column of a matrix, and the mean square of the distance of
the result from a target. A matrix is a function of the row and the column, of which only the entries in its
range matter.

The loss is a polynomial of degree two along every line. Its linear part is the inner product with `delta`,
which is passed backwards through a map by the transposed matrix (`loss_line`). The derivatives in the entries
of a map follow, since a change of an entry moves the result of the map along a line.
-/

namespace AffineNet

open Finset

section

variable {K : Type*}

/-- An affine map of `inn` to `out` numbers. -/
structure Layer (K : Type*) where
  out : ℕ
  inn : ℕ
  W : ℕ → ℕ → K
  b : ℕ → K

/-- The number of rows of the result, for an argument of `m` rows. -/
def outRows : ℕ → List (Layer K) → ℕ
  | m, [] => m
  | _, L :: Ls => outRows L.out Ls

/-- The sizes fit. -/
def Chain : ℕ → List (Layer K) → Prop
  | _, [] => True
  | m, L :: Ls => L.inn = m ∧ Chain L.out Ls

theorem outRows_append (m : ℕ) (A B : List (Layer K)) : outRows m (A ++ B) = outRows (outRows m A) B := by
  induction A generalizing m with
  | nil => rfl
  | cons L A ih => exact ih L.out

/-- A network is cut at any layer into two networks that fit together. -/
theorem chain_append {m : ℕ} {A B : List (Layer K)} :
    Chain m (A ++ B) ↔ Chain m A ∧ Chain (outRows m A) B := by
  induction A generalizing m with
  | nil => exact (true_and _).symm.to_iff
  | cons L A ih => rw [List.cons_append, Chain, ih, Chain, and_assoc]; rfl

variable [Field K]

namespace Layer

/-- The linear part. -/
def linear (L : Layer K) (x : ℕ → ℕ → K) : ℕ → ℕ → K := fun i c => ∑ k ∈ range L.inn, L.W i k * x k c

def map (L : Layer K) (x : ℕ → ℕ → K) : ℕ → ℕ → K := fun i c => L.linear x i c + L.b i

/-- The transposed matrix, applied to `δ`. -/
def back (L : Layer K) (δ : ℕ → ℕ → K) : ℕ → ℕ → K := fun k c => ∑ i ∈ range L.out, L.W i k * δ i c

def setW (L : Layer K) (i j : ℕ) (w : K) : Layer K :=
  { L with W := Function.update L.W i (Function.update (L.W i) j w) }

def setB (L : Layer K) (i : ℕ) (w : K) : Layer K := { L with b := Function.update L.b i w }

end Layer

/-- The maps applied one after the other. -/
def eval : List (Layer K) → (ℕ → ℕ → K) → ℕ → ℕ → K
  | [], x => x
  | L :: Ls, x => eval Ls (L.map x)

variable (cols : ℕ)

/-- The inner product of two matrices of `m` rows. -/
def inner (m : ℕ) (δ x : ℕ → ℕ → K) : K := ∑ i ∈ range m, ∑ c ∈ range cols, δ i c * x i c

variable (t : ℕ → ℕ → K)

/-- The mean square of the distance from `t`. -/
def meanSquare (m : ℕ) (y : ℕ → ℕ → K) : K :=
  (∑ i ∈ range m, ∑ c ∈ range cols, (y i c - t i c) ^ 2) / (m * cols : ℕ)

def loss (m : ℕ) (Ls : List (Layer K)) (x : ℕ → ℕ → K) : K := meanSquare cols t (outRows m Ls) (eval Ls x)

/-- The gradient of the loss in the argument. -/
def delta : ℕ → List (Layer K) → (ℕ → ℕ → K) → ℕ → ℕ → K
  | m, [], x => fun i c => 2 * (x i c - t i c) / (m * cols : ℕ)
  | _, L :: Ls, x => L.back (delta L.out Ls (L.map x))

variable {cols t}

theorem Layer.map_line (L : Layer K) (x d : ℕ → ℕ → K) (h : K) :
    L.map (x + h • d) = L.map x + h • L.linear d := by
  funext i c
  simp only [map, linear, Pi.add_apply, Pi.smul_apply, smul_eq_mul, mul_add, sum_add_distrib, mul_sum]
  have hcomm : ∀ k ∈ range L.inn, L.W i k * (h * d k c) = h * (L.W i k * d k c) := fun k _ => by ring
  rw [sum_congr rfl hcomm]
  ring

/-- The transposed matrix is the adjoint. -/
theorem Layer.inner_back (L : Layer K) (δ x : ℕ → ℕ → K) :
    inner cols L.inn (L.back δ) x = inner cols L.out δ (L.linear x) := by
  simp only [inner, back, linear, sum_mul, mul_sum]
  have hswap : ∀ k ∈ range L.inn, (∑ c ∈ range cols, ∑ i ∈ range L.out, L.W i k * δ i c * x k c) =
      ∑ i ∈ range L.out, ∑ c ∈ range cols, L.W i k * δ i c * x k c := fun k _ => sum_comm
  rw [sum_congr rfl hswap, sum_comm]
  refine sum_congr rfl fun i _ => ?_
  rw [sum_comm]
  refine sum_congr rfl fun c _ => sum_congr rfl fun k _ => ?_
  ring

theorem meanSquare_line (m : ℕ) (x d : ℕ → ℕ → K) (h : K) :
    meanSquare cols t m (x + h • d) =
      meanSquare cols t m x + h * inner cols m (delta cols t m [] x) d +
        h ^ 2 * meanSquare cols 0 m d := by
  simp only [meanSquare, inner, delta, div_eq_mul_inv, sum_mul, mul_sum, ← sum_add_distrib]
  refine sum_congr rfl fun i _ => sum_congr rfl fun c _ => ?_
  simp only [Pi.add_apply, Pi.smul_apply, Pi.zero_apply, smul_eq_mul]
  ring

/-- Along a line the loss is a polynomial of degree two, and `delta` gives its linear part. -/
theorem loss_line {m : ℕ} {Ls : List (Layer K)} (hLs : Chain m Ls) (x d : ℕ → ℕ → K) :
    ∃ q, ∀ h, loss cols t m Ls (x + h • d) =
      loss cols t m Ls x + h * inner cols m (delta cols t m Ls x) d + h ^ 2 * q := by
  induction Ls generalizing m x d with
  | nil => exact ⟨_, meanSquare_line m x d⟩
  | cons L Ls ih =>
    obtain ⟨rfl, hLs⟩ := hLs
    obtain ⟨q, hq⟩ := ih hLs (L.map x) (L.linear d)
    refine ⟨q, fun h => ?_⟩
    rw [delta, L.inner_back]
    exact (congrArg (loss cols t L.out Ls) (L.map_line x d h)).trans (hq h)

/-! ## Changing an entry -/

/-- The matrix with one row. -/
def rowMatrix (i : ℕ) (r : ℕ → K) : ℕ → ℕ → K := fun k c => if k = i then r c else 0

theorem inner_rowMatrix {m i : ℕ} (hi : i < m) (δ : ℕ → ℕ → K) (r : ℕ → K) :
    inner cols m δ (rowMatrix i r) = ∑ c ∈ range cols, δ i c * r c := by
  rw [inner, sum_eq_single i]
  · simp only [rowMatrix, if_true]
  · intro k _ hk
    simp only [rowMatrix, if_neg hk, mul_zero, sum_const_zero]
  · exact fun h => absurd (mem_range.2 hi) h

theorem Layer.map_setW (L : Layer K) {j : ℕ} (hj : j < L.inn) (i : ℕ) (w : K) (x : ℕ → ℕ → K) :
    (L.setW i j w).map x = L.map x + (w - L.W i j) • rowMatrix i (x j) := by
  funext k c
  simp only [map, linear, setW, rowMatrix, Pi.add_apply, Pi.smul_apply, smul_eq_mul]
  by_cases hk : k = i
  · subst hk
    rw [Function.update_self, if_pos rfl, ← sub_eq_iff_eq_add', add_sub_add_right_eq_sub, ← sum_sub_distrib,
      sum_eq_single j]
    · rw [Function.update_self]
      ring
    · intro l _ hl
      rw [Function.update_of_ne hl, sub_self]
    · exact fun h => absurd (mem_range.2 hj) h
  · rw [Function.update_of_ne hk, if_neg hk, mul_zero, add_zero]

theorem Layer.map_setB (L : Layer K) (i : ℕ) (w : K) (x : ℕ → ℕ → K) :
    (L.setB i w).map x = L.map x + (w - L.b i) • rowMatrix i fun _ => 1 := by
  funext k c
  simp only [map, linear, setB, rowMatrix, Pi.add_apply, Pi.smul_apply, smul_eq_mul]
  by_cases hk : k = i
  · subst hk
    rw [Function.update_self, if_pos rfl]
    ring
  · rw [Function.update_of_ne hk, if_neg hk, mul_zero, add_zero]

theorem eval_append (A B : List (Layer K)) (x : ℕ → ℕ → K) : eval (A ++ B) x = eval B (eval A x) := by
  induction A generalizing x with
  | nil => rfl
  | cons L A ih => exact ih (L.map x)

/-- The loss as a function of the result of one of the maps. -/
theorem loss_append (m : ℕ) (A : List (Layer K)) (L : Layer K) (B : List (Layer K)) (x : ℕ → ℕ → K) :
    loss cols t m (A ++ L :: B) x = loss cols t L.out B (L.map (eval A x)) := by
  rw [loss, eval_append, outRows_append]
  rfl

end

/-! ## Derivatives -/

section

variable {K : Type*} [NontriviallyNormedField K] {cols : ℕ} {t : ℕ → ℕ → K}

theorem hasDerivAt_of_polynomial {f : K → K} {w c g q : K}
    (h : ∀ v, f v = c + (v - w) * g + (v - w) ^ 2 * q) : HasDerivAt f g w := by
  rw [funext h]
  have hsub : HasDerivAt (fun v => v - w) 1 w := (hasDerivAt_id w).sub_const w
  have hsum : HasDerivAt (fun v => c + (v - w) * g + (v - w) ^ 2 * q)
      (1 * g + (2 : ℕ) * (w - w) ^ (2 - 1) * 1 * q) w :=
    ((hsub.mul_const g).const_add c).add ((hsub.pow 2).mul_const q)
  rwa [sub_self, show 2 - 1 = 1 from rfl, pow_one, mul_zero, zero_mul, zero_mul, add_zero, one_mul] at hsum

variable {m i j : ℕ} {A B : List (Layer K)} {L : Layer K} (hB : Chain L.out B) (hi : i < L.out)
  (x : ℕ → ℕ → K)

include hB hi

/-- The partial derivative by a weight of the layer `L`: what comes back to the layer, times its input. -/
theorem hasDerivAt_setW (hj : j < L.inn) :
    HasDerivAt (fun w => loss cols t m (A ++ L.setW i j w :: B) x)
      (∑ c ∈ range cols, delta cols t L.out B (L.map (eval A x)) i c * eval A x j c) (L.W i j) := by
  obtain ⟨q, hq⟩ := @loss_line _ _ cols t _ _ hB (L.map (eval A x)) (rowMatrix i (eval A x j))
  rw [inner_rowMatrix hi] at hq
  have hline : ∀ w, loss cols t m (A ++ L.setW i j w :: B) x = _ := fun w =>
    (loss_append m A (L.setW i j w) B x).trans
      ((congrArg (loss cols t L.out B) (L.map_setW hj i w _)).trans (hq (w - L.W i j)))
  exact hasDerivAt_of_polynomial hline

/-- The partial derivative by a bias is the sum of what comes back to its row. -/
theorem hasDerivAt_setB :
    HasDerivAt (fun w => loss cols t m (A ++ L.setB i w :: B) x)
      (∑ c ∈ range cols, delta cols t L.out B (L.map (eval A x)) i c) (L.b i) := by
  obtain ⟨q, hq⟩ := @loss_line _ _ cols t _ _ hB (L.map (eval A x)) (rowMatrix i fun _ => 1)
  simp only [inner_rowMatrix hi, mul_one] at hq
  have hline : ∀ w, loss cols t m (A ++ L.setB i w :: B) x = _ := fun w =>
    (loss_append m A (L.setB i w) B x).trans
      ((congrArg (loss cols t L.out B) (L.map_setB i w _)).trans (hq (w - L.b i)))
  exact hasDerivAt_of_polynomial hline

end

end AffineNet
