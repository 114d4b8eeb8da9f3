import Mathlib.Tactic.Positivity

/-!
# Machine words as natural numbers

A `w`-bit unsigned value is a natural number below `2 ^ w`. `wrap w x` is the value of the exact result
`x` after storing it in `w` bits, which is how unsigned arithmetic behaves, and `toInt32 x` its value as an
`int`.
-/

namespace Word

/-! ## Unsigned arithmetic -/

/-- The exact result `x` reduced to `w` bits. -/
def wrap (w : ℕ) (x : ℤ) : ℕ := (x % 2 ^ w).toNat

theorem wrap_lt (w : ℕ) (x : ℤ) : wrap w x < 2 ^ w := by
  have hpos : (0 : ℤ) < 2 ^ w := by positivity
  have hlt := Int.emod_lt_of_pos x hpos
  have hcast : ((2 ^ w : ℕ) : ℤ) = 2 ^ w := by push_cast; rfl
  simp only [wrap]
  omega

/-- A number that is not negative gets no larger. -/
theorem wrap_le {w n : ℕ} {x : ℤ} (hx : x = n) : wrap w x ≤ n := by
  have hcast : (n : ℤ) % 2 ^ w = ((n % 2 ^ w : ℕ) : ℤ) := by push_cast; rfl
  rw [hx, wrap, hcast, Int.toNat_natCast]
  exact Nat.mod_le n _

/-- A result in range is stored exactly. -/
theorem wrap_of_lt {w n : ℕ} {x : ℤ} (hx : x = n) (h : n < 2 ^ w) : wrap w x = n := by
  have hcast : ((2 ^ w : ℕ) : ℤ) = 2 ^ w := by push_cast; rfl
  subst hx
  rw [wrap, Int.emod_eq_of_lt (by omega) (by omega), Int.toNat_natCast]

/-! ## Signed arithmetic -/

/-- The exact result `x` as a signed 32-bit value. -/
def toInt32 (x : ℤ) : ℤ := x.bmod (2 ^ 32)

theorem toInt32_lt (x : ℤ) : toInt32 x < 2 ^ 31 := by
  have := Int.bmod_lt (x := x) (m := 2 ^ 32) (by decide)
  rw [toInt32]
  omega

theorem le_toInt32 (x : ℤ) : -2 ^ 31 ≤ toInt32 x := by
  have := Int.le_bmod (x := x) (m := 2 ^ 32) (by decide)
  rw [toInt32]
  omega

theorem toInt32_of_range {x : ℤ} (hlo : -2 ^ 31 ≤ x) (hhi : x < 2 ^ 31) : toInt32 x = x := by
  rw [toInt32, Int.bmod_eq_of_le] <;> omega

theorem toInt32_of_lt {n : ℕ} (h : n < 2 ^ 31) : toInt32 n = n := toInt32_of_range (by omega) (by omega)

end Word
