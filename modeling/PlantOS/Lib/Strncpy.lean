import Mathlib.Data.List.Basic
import Mathlib.Order.Bounds.Basic

/-!
# `strncpy`

Model of the two versions of `strncpy`, that of the kernel and that of the user library, on the bytes from the
destination on. The source does not overlap them.

The copying loop of the kernel stores the terminating zero without counting it, so the loop that fills the
rest stores one zero more than is left: if the source is shorter than `n`, the byte behind the `n` bytes is
overwritten.

Reference: `strncpy` in `lib/string.c`, `ulib_strncpy` in `user/libc/ustring.c`.
-/

namespace PlantOS.Lib

/-- A C string: the characters before the terminating zero. -/
structure CStr where
  chars : List UInt8
  ne_zero : ∀ c ∈ chars, c ≠ 0

namespace CStr

/-- The byte at an index up to the terminating zero. -/
def get (s : CStr) (i : ℕ) : UInt8 := s.chars.getD i 0

def strlen (s : CStr) : ℕ := s.chars.length

theorem get_eq_zero_iff {s : CStr} {i : ℕ} : s.get i = 0 ↔ s.strlen ≤ i := by
  rw [get, List.getD_eq_getElem?_getD]
  constructor
  · intro h
    by_contra hlt
    rw [strlen, not_le] at hlt
    rw [List.getElem?_eq_getElem hlt, Option.getD_some] at h
    exact s.ne_zero _ (List.getElem_mem hlt) h
  · intro h
    rw [List.getElem?_eq_none h, Option.getD_none]

end CStr

/-- The bytes from the destination on. -/
abbrev Dest := ℕ → UInt8

/-- `while (n && (*d++ = *src++)) n--;` from the index `d` on: what is left of `n`, the index reached, and the
bytes. -/
def strncpyCopy (src : CStr) : ℕ → ℕ → Dest → ℕ × ℕ × Dest
  | 0, d, m => (0, d, m)
  | n + 1, d, m =>
    if src.get d = 0 then (n + 1, d + 1, Function.update m d (src.get d))
    else strncpyCopy src n (d + 1) (Function.update m d (src.get d))

/-- `while (n--) *d++ = '\0';` -/
def fillZero : ℕ → ℕ → Dest → Dest
  | 0, _, m => m
  | n + 1, d, m => fillZero n (d + 1) (Function.update m d 0)

/-- `strncpy`. -/
def strncpy (dest : Dest) (src : CStr) (n : ℕ) : Dest :=
  let r := strncpyCopy src n 0 dest
  fillZero r.1 r.2.1 r.2.2

/-- The first loop of `ulib_strncpy` from the index `i` on, with `k` indexes left. -/
def ulibCopy (src : CStr) : ℕ → ℕ → Dest → ℕ × Dest
  | 0, i, m => (i, m)
  | k + 1, i, m => if src.get i = 0 then (i, m) else ulibCopy src k (i + 1) (Function.update m i (src.get i))

/-- `ulib_strncpy`. The second loop runs from `i` to `n`. -/
def ulibStrncpy (dst : Dest) (src : CStr) (n : ℕ) : Dest :=
  let r := ulibCopy src n 0 dst
  fillZero (n - r.1) r.1 r.2

/-- What `strncpy` leaves by the C standard. -/
def copied (dest : Dest) (src : CStr) (n : ℕ) : Dest := fun i => if i < n then src.get i else dest i

/-! ## The loops -/

section

variable {src : CStr} {m : Dest}

/-- A loop that has written the index `d` and goes on behind it. -/
theorem ite_update {p q : Prop} [Decidable p] [Decidable q] {f : ℕ → UInt8} {d i : ℕ} (hd : i = d → q ∧ ¬p)
    (hne : i ≠ d → (p ↔ q)) : (if p then f i else Function.update m d (f d) i) = if q then f i else m i := by
  obtain rfl | h := eq_or_ne i d
  · rw [if_neg (hd rfl).2, if_pos (hd rfl).1, Function.update_self]
  · rw [Function.update_of_ne h]
    exact if_congr (hne h) rfl rfl

theorem fillZero_apply (n d : ℕ) (m : Dest) (i : ℕ) :
    fillZero n d m i = if d ≤ i ∧ i < d + n then 0 else m i := by
  induction n generalizing d m with
  | zero => rw [fillZero, if_neg (by omega)]
  | succ n ih =>
    rw [fillZero, ih]
    exact ite_update (f := fun _ => 0) (by omega) (by omega)

/-- A source of at least `n` characters is cut. -/
theorem strncpyCopy_long {n d : ℕ} (h : d + n ≤ src.strlen) :
    (strncpyCopy src n d m).1 = 0 ∧
      ∀ i, (strncpyCopy src n d m).2.2 i = if d ≤ i ∧ i < d + n then src.get i else m i := by
  induction n generalizing d m with
  | zero => exact ⟨rfl, fun i => (if_neg (by omega)).symm⟩
  | succ n ih =>
    have hne : src.get d ≠ 0 := mt CStr.get_eq_zero_iff.1 (by omega)
    obtain ⟨hleft, hbytes⟩ := ih (m := Function.update m d (src.get d)) (show d + 1 + n ≤ _ by omega)
    rw [strncpyCopy, if_neg hne]
    refine ⟨hleft, fun i => ?_⟩
    rw [hbytes]
    exact ite_update (by omega) (by omega)

/-- A shorter source is copied with its terminating zero, which is not counted. -/
theorem strncpyCopy_short {n d : ℕ} (hd : d ≤ src.strlen) (h : src.strlen < d + n) :
    (strncpyCopy src n d m).1 = d + n - src.strlen ∧ (strncpyCopy src n d m).2.1 = src.strlen + 1 ∧
      ∀ i, (strncpyCopy src n d m).2.2 i = if d ≤ i ∧ i ≤ src.strlen then src.get i else m i := by
  induction n generalizing d m with
  | zero => omega
  | succ n ih =>
    obtain hlt | rfl := hd.lt_or_eq
    · have hne : src.get d ≠ 0 := mt CStr.get_eq_zero_iff.1 (by omega)
      obtain ⟨hleft, hd', hbytes⟩ :=
        ih (m := Function.update m d (src.get d)) (show d + 1 ≤ _ by omega) (by omega)
      rw [strncpyCopy, if_neg hne]
      refine ⟨by omega, hd', fun i => ?_⟩
      rw [hbytes]
      exact ite_update (by omega) (by omega)
    · rw [strncpyCopy, if_pos (CStr.get_eq_zero_iff.2 le_rfl)]
      refine ⟨by omega, rfl, fun i => ?_⟩
      dsimp only
      obtain rfl | hid := eq_or_ne i src.strlen
      · rw [Function.update_self, if_pos (by omega)]
      · rw [Function.update_of_ne hid, if_neg (by omega)]

/-- The loop of the copy: it stops at the end of the string, and has written the bytes before. -/
theorem ulibCopy_spec {k i : ℕ} (hi : i ≤ src.strlen) :
    (ulibCopy src k i m).1 = min (i + k) src.strlen ∧
      ∀ j, (ulibCopy src k i m).2 j = if i ≤ j ∧ j < min (i + k) src.strlen then src.get j else m j := by
  induction k generalizing i m with
  | zero => exact ⟨by rw [ulibCopy]; omega, fun j => (if_neg (by omega)).symm⟩
  | succ k ih =>
    by_cases hend : src.get i = 0
    · have hlen := CStr.get_eq_zero_iff.1 hend
      rw [ulibCopy, if_pos hend]
      exact ⟨by dsimp only; omega, fun j => (if_neg (by omega)).symm⟩
    · have hlen := mt CStr.get_eq_zero_iff.2 hend
      obtain ⟨hindex, hbytes⟩ := ih (m := Function.update m i (src.get i)) (show i + 1 ≤ _ by omega)
      rw [ulibCopy, if_neg hend]
      refine ⟨by omega, fun j => ?_⟩
      rw [hbytes]
      exact ite_update (by omega) (by omega)

end

/-! ## The two versions -/

/-- The version of the user library does what the C standard says. -/
theorem ulibStrncpy_eq_copied (dst : Dest) (src : CStr) (n : ℕ) :
    ulibStrncpy dst src n = copied dst src n := by
  obtain ⟨hindex, hbytes⟩ := @ulibCopy_spec src dst n 0 (Nat.zero_le _)
  funext i
  rw [ulibStrncpy, fillZero_apply, hindex, hbytes, copied]
  by_cases hin : i < n
  · by_cases hlen : i < src.strlen
    · rw [if_neg (by omega), if_pos (by omega), if_pos hin]
    · rw [if_pos (by omega), if_pos hin, CStr.get_eq_zero_iff.2 (by omega)]
  · rw [if_neg (by omega), if_neg (by omega), if_neg hin]

/-- The bytes after the `strncpy` of the kernel. -/
theorem strncpy_apply (dest : Dest) (src : CStr) (n i : ℕ) :
    strncpy dest src n i = if i = n ∧ src.strlen < n then 0 else copied dest src n i := by
  rw [strncpy, fillZero_apply, copied]
  by_cases hlen : src.strlen < n
  · obtain ⟨hleft, hd, hbytes⟩ :=
      strncpyCopy_short (m := dest) (Nat.zero_le _) (show src.strlen < 0 + n by omega)
    rw [hleft, hd, hbytes]
    by_cases hin : i < n
    · rw [if_neg (by omega : ¬(i = n ∧ _)), if_pos hin]
      by_cases hi : i ≤ src.strlen
      · rw [if_neg (by omega), if_pos (by omega)]
      · rw [if_pos (by omega), CStr.get_eq_zero_iff.2 (by omega)]
    · by_cases hi : i = n
      · rw [if_pos (by omega), if_pos ⟨hi, hlen⟩]
      · rw [if_neg (by omega), if_neg (by omega), if_neg (by omega), if_neg hin]
  · obtain ⟨hleft, hbytes⟩ := strncpyCopy_long (m := dest) (show 0 + n ≤ src.strlen by omega)
    rw [hleft, hbytes, if_neg (by omega), if_neg (by omega : ¬(i = n ∧ _))]
    exact if_congr (by omega) rfl rfl

/-- Both versions do what the C standard says exactly if the source has at least `n` characters or the byte
behind the `n` bytes is zero already. -/
theorem strncpy_standard_iff (dest : Dest) (src : CStr) (n : ℕ) :
    (strncpy dest src n = copied dest src n ∧ ulibStrncpy dest src n = copied dest src n) ↔
      n ≤ src.strlen ∨ dest n = 0 := by
  rw [and_iff_left (ulibStrncpy_eq_copied dest src n)]
  constructor
  · intro h
    by_cases hlen : n ≤ src.strlen
    · exact .inl hlen
    · have hn := congrFun h n
      rw [strncpy_apply, if_pos ⟨rfl, by omega⟩, copied, if_neg (lt_irrefl n)] at hn
      exact .inr hn.symm
  · intro h
    funext i
    rw [strncpy_apply]
    split
    · rename_i hi
      obtain ⟨rfl, hlen⟩ := hi
      rw [copied, if_neg (lt_irrefl i)]
      exact (h.resolve_left (by omega)).symm
    · rfl

/-- The empty string copied with `n = 1` to bytes that are all 7. -/
theorem strncpy_overwrites_next :
    strncpy (fun _ => 7) ⟨[], List.forall_mem_nil _⟩ 1 1 = 0 ∧
      ulibStrncpy (fun _ => 7) ⟨[], List.forall_mem_nil _⟩ 1 1 = 7 := by
  decide

end PlantOS.Lib
