import Mathlib.Data.List.TakeDrop
import Mathlib.Tactic.Ring

/-!
# Slices of buffers and little-endian numbers

A buffer is a list. `slice` reads a range of it and `splice` overwrites a range; the lemmas say what a read
returns after an overwrite. `leNat` and `toLe` convert between natural numbers and their little-endian bytes.
-/

namespace Bytes

section

variable {α : Type*} {l x : List α} {off off' n : ℕ}

/-- The `n` elements of `l` from `off` on. -/
def slice (l : List α) (off n : ℕ) : List α := (l.drop off).take n

/-- Overwrite `l` from `off` on by `x`. -/
def splice (l : List α) (off : ℕ) (x : List α) : List α := l.take off ++ x ++ l.drop (off + x.length)

theorem length_slice (h : off + n ≤ l.length) : (slice l off n).length = n := by
  rw [slice, List.length_take, List.length_drop]
  omega

theorem length_splice (h : off + x.length ≤ l.length) : (splice l off x).length = l.length := by
  simp only [splice, List.length_append, List.length_take, List.length_drop]
  omega

theorem getElem?_slice (j : ℕ) : (slice l off n)[j]? = if j < n then l[off + j]? else none := by
  rw [slice, List.getElem?_take, List.getElem?_drop]

theorem getElem?_splice (h : off ≤ l.length) (j : ℕ) :
    (splice l off x)[j]? = if j < off then l[j]? else
      if j < off + x.length then x[j - off]? else l[j]? := by
  have hlen : (l.take off).length = off := by simp [h]
  rw [splice, List.append_assoc, List.getElem?_append, hlen]
  by_cases hj : j < off
  · rw [if_pos hj, if_pos hj, List.getElem?_take, if_pos hj]
  · rw [if_neg hj, if_neg hj, List.getElem?_append]
    by_cases hx : j < off + x.length
    · rw [if_pos hx, if_pos (by omega)]
    · rw [if_neg hx, if_neg (by omega), List.getElem?_drop]
      congr 1
      omega

/-- What was written is read back. -/
theorem slice_splice_self {k : ℕ} (h : k ≤ l.length) : slice (splice l k x) k x.length = x := by
  refine List.ext_getElem? fun j => ?_
  rw [getElem?_slice]
  by_cases hj : j < x.length
  · rw [if_pos hj, getElem?_splice h, if_neg (by omega), if_pos (by omega), Nat.add_sub_cancel_left]
  · rw [if_neg hj, List.getElem?_eq_none (by omega)]

/-- A read of another range is not affected by a write. -/
theorem slice_splice_of_disjoint (h : off ≤ l.length)
    (hd : off' + n ≤ off ∨ off + x.length ≤ off') : slice (splice l off x) off' n = slice l off' n := by
  refine List.ext_getElem? fun j => ?_
  rw [getElem?_slice, getElem?_slice]
  by_cases hj : j < n
  · rw [if_pos hj, if_pos hj, getElem?_splice h]
    by_cases hlt : off' + j < off
    · rw [if_pos hlt]
    · rw [if_neg hlt, if_neg (by omega)]
  · rw [if_neg hj, if_neg hj]

/-- Writing back what is there changes nothing. -/
theorem splice_slice (h : off + n ≤ l.length) : splice l off (slice l off n) = l := by
  refine List.ext_getElem? fun j => ?_
  rw [getElem?_splice (by omega), length_slice h, getElem?_slice]
  by_cases hj : j < off
  · rw [if_pos hj]
  · rw [if_neg hj]
    by_cases hjn : j < off + n
    · rw [if_pos hjn, if_pos (by omega)]
      congr 1
      omega
    · rw [if_neg hjn]

end

/-! ## Little-endian numbers -/

/-- The number with the little-endian bytes `l`. -/
def leNat : List UInt8 → ℕ
  | [] => 0
  | b :: l => b.toNat + 256 * leNat l

/-- The `n` low bytes of `v`, lowest first. -/
def toLe : ℕ → ℕ → List UInt8
  | 0, _ => []
  | n + 1, v => UInt8.ofNat v :: toLe n (v / 256)

@[simp] theorem length_toLe (n v : ℕ) : (toLe n v).length = n := by
  induction n generalizing v with
  | zero => rfl
  | succ n ih => rw [toLe, List.length_cons, ih]

theorem toLe_getD {n i : ℕ} (h : i < n) (v : ℕ) : (toLe n v).getD i 0 = UInt8.ofNat (v / 256 ^ i) := by
  induction n generalizing v i with
  | zero => exact absurd h (Nat.not_lt_zero i)
  | succ n ih =>
    rw [toLe]
    cases i with
    | zero => rw [List.getD_cons_zero, pow_zero, Nat.div_one]
    | succ i =>
      rw [List.getD_cons_succ, ih (by omega), pow_succ, mul_comm (256 ^ i), Nat.div_div_eq_div_mul]

theorem leNat_lt (l : List UInt8) : leNat l < 256 ^ l.length := by
  induction l with
  | nil => exact Nat.one_pos
  | cons b l ih =>
    have hb := b.toNat_lt
    rw [leNat, List.length_cons, pow_succ]
    omega

/-- The value of a field of `n` bytes. -/
theorem leNat_slice_lt (l : List UInt8) (off n : ℕ) : leNat (slice l off n) < 256 ^ n := by
  refine (leNat_lt _).trans_le (Nat.pow_le_pow_right (by decide) ?_)
  rw [slice]
  exact List.length_take_le _ _

theorem leNat_toLe (n v : ℕ) : leNat (toLe n v) = v % 256 ^ n := by
  induction n generalizing v with
  | zero => rw [toLe, leNat, pow_zero, Nat.mod_one]
  | succ n ih =>
    have hb : (UInt8.ofNat v).toNat = v % 256 := UInt8.toNat_ofNat'
    rw [toLe, leNat, ih, hb, pow_succ, mul_comm (256 ^ n), Nat.mod_mul]

end Bytes
