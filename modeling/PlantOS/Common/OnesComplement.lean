import PlantOS.Common.Slice

/-!
# Ones-complement sums

The 16-bit big-endian words of a byte string, summed with end-around carry. `foldCarries` adds the carries of
a sum back in until it fits in 16 bits. It leaves the residue modulo 65535 alone, and of the two
representatives of zero it yields 0 only for the sum 0 (`foldCarries_eq`); so a sum to which its own
complement has been added always folds to `0xFFFF` (`foldCarries_add_complement`).
-/

namespace OnesComplement

open Bytes

/-- The sum of the big-endian words of a string; a last single byte is a high byte. -/
def wordSum : List UInt8 → ℕ
  | a :: b :: l => a.toNat * 256 + b.toNat + wordSum l
  | [a] => a.toNat * 256
  | [] => 0

/-- Add the carries above bit 16 until there are none. -/
def foldCarries (s : ℕ) : ℕ :=
  if s / 2 ^ 16 = 0 then s else foldCarries (s % 2 ^ 16 + s / 2 ^ 16)
termination_by s
decreasing_by omega

/-- Folding keeps the residue modulo 65535, and 0 comes from 0 only. -/
theorem foldCarries_eq (s : ℕ) : foldCarries s = if s = 0 then 0 else (s - 1) % 65535 + 1 := by
  induction s using foldCarries.induct with
  | case1 s h =>
    rw [foldCarries, if_pos h]
    split <;> omega
  | case2 s h ih =>
    rw [foldCarries, if_neg h, ih, if_neg (by omega), if_neg (by omega)]
    omega

theorem foldCarries_le (s : ℕ) : foldCarries s ≤ 65535 := by
  rw [foldCarries_eq]
  split <;> omega

/-- All ones is the folded form of the other multiples of 65535. -/
theorem foldCarries_eq_ones_iff {s : ℕ} : foldCarries s = 65535 ↔ 0 < s ∧ s % 65535 = 0 := by
  rw [foldCarries_eq]
  split <;> omega

/-- With its complement a sum is a multiple of 65535, and not zero. -/
theorem foldCarries_add_complement (s : ℕ) : foldCarries (s + (65535 - foldCarries s)) = 65535 := by
  rw [foldCarries_eq_ones_iff, foldCarries_eq]
  split <;> omega

/-- The complement of a sum cancels another sum exactly if the parts in which they differ agree modulo
65535. -/
theorem foldCarries_cancel {r : ℕ} (hr : 0 < r) (s t : ℕ) :
    foldCarries (t + r + (65535 - foldCarries (s + r))) = 65535 ↔ s % 65535 = t % 65535 := by
  rw [foldCarries_eq_ones_iff, foldCarries_eq, if_neg (by omega)]
  omega

theorem wordSum_le (l : List UInt8) : wordSum l ≤ (l.length + 1) / 2 * 65535 := by
  induction l using wordSum.induct with
  | case1 a b l ih =>
    have ha := a.toNat_lt
    have hb := b.toNat_lt
    rw [wordSum, List.length_cons, List.length_cons]
    have hlen : (l.length + 1 + 1 + 1) / 2 = (l.length + 1) / 2 + 1 := by omega
    rw [hlen, Nat.add_mul]
    omega
  | case2 a =>
    have ha := a.toNat_lt
    rw [wordSum, List.length_singleton]
    omega
  | case3 => exact Nat.zero_le _

/-- Sums add up if the cut is between two words. -/
theorem wordSum_append {l : List UInt8} (h : l.length % 2 = 0) (r : List UInt8) :
    wordSum (l ++ r) = wordSum l + wordSum r := by
  induction l using wordSum.induct with
  | case1 a b l ih =>
    simp only [List.length_cons] at h
    rw [List.cons_append, List.cons_append, wordSum, wordSum, ih (by omega)]
    omega
  | case2 a => simp at h
  | case3 => rw [List.nil_append, wordSum, Nat.zero_add]

/-- A word at an even offset contributes its value. -/
theorem wordSum_splice {l : List UInt8} {k : ℕ} (hk : k % 2 = 0) (hlen : k + 2 ≤ l.length) {a b : UInt8}
    (hzero : slice l k 2 = [0, 0]) : wordSum (splice l k [a, b]) = wordSum l + (a.toNat * 256 + b.toNat) := by
  have hfirst : (l.take k).length % 2 = 0 := by
    rw [List.length_take]
    omega
  have hsplit : l = l.take k ++ [0, 0] ++ l.drop (k + 2) := by
    conv_lhs => rw [← splice_slice (l := l) (n := 2) hlen, hzero]
    rfl
  have hword : ∀ x y : UInt8, wordSum (l.take k ++ [x, y] ++ l.drop (k + 2)) =
      wordSum (l.take k) + (x.toNat * 256 + y.toNat) + wordSum (l.drop (k + 2)) := by
    intro x y
    rw [List.append_assoc, wordSum_append hfirst, List.cons_append, List.cons_append, List.nil_append,
      wordSum]
    omega
  rw [splice, List.length_cons, List.length_singleton, hword]
  conv_rhs => rw [hsplit, hword]
  simp only [UInt8.toNat_zero]
  omega

end OnesComplement
