import PlantOS.Common.Word

/-!
# The physical page allocator

Model of the run-time part of `mm/pmm.c`. The bitmap is one bit per page number; a set bit is a used
page. Addresses are byte addresses, and the address 0 is `NULL`.

Reference: `mm/pmm.c`.
-/

namespace PlantOS.Mm

open Word

/-- The state of `pmm.c`. -/
structure Pmm where
  bitmap : ℕ → Bool
  totalPages : ℕ
  usedPages : ℕ

/-- `bitmap_set(page); used_pages++`. -/
def Pmm.take (p : Pmm) (page : ℕ) : Pmm :=
  { p with bitmap := Function.update p.bitmap page true, usedPages := wrap 64 (p.usedPages + 1) }

/-- `bitmap_clear(page); used_pages--`. -/
def Pmm.drop (p : Pmm) (page : ℕ) : Pmm :=
  { p with bitmap := Function.update p.bitmap page false, usedPages := wrap 64 (p.usedPages - 1) }

/-- The loop of `pmm_alloc_page` over `n` pages from `i` on: the first page that is free. -/
def firstFree (bitmap : ℕ → Bool) : ℕ → ℕ → Option ℕ
  | 0, _ => none
  | n + 1, i => if bitmap i then firstFree bitmap n (i + 1) else some i

theorem bitmap_of_firstFree_eq_none {bitmap : ℕ → Bool} {n i j : ℕ}
    (h : firstFree bitmap n i = none) (hi : i ≤ j) (hj : j < i + n) : bitmap j = true := by
  induction n generalizing i with
  | zero => omega
  | succ n ih =>
    rw [firstFree] at h
    split at h
    · rename_i hused
      obtain rfl | hlt := hi.eq_or_lt
      · exact hused
      · exact ih h hlt (by omega)
    · exact absurd h (by simp)

/-- The page that the loop finds is free, and all pages before it are used. -/
theorem firstFree_spec {bitmap : ℕ → Bool} {n i j : ℕ} (h : firstFree bitmap n i = some j) :
    bitmap j = false ∧ j < i + n ∧ ∀ k, i ≤ k → k < j → bitmap k = true := by
  induction n generalizing i with
  | zero => exact absurd h (by simp [firstFree])
  | succ n ih =>
    rw [firstFree] at h
    split at h
    · rename_i hused
      obtain ⟨hfree, hlt, hbefore⟩ := ih h
      refine ⟨hfree, by omega, fun k hi hk => ?_⟩
      obtain rfl | hlt := hi.eq_or_lt
      · exact hused
      · exact hbefore k hlt hk
    · rename_i hfree
      obtain rfl := Option.some.inj h
      exact ⟨Bool.eq_false_iff.2 hfree, by omega, fun k hi hk => by omega⟩

/-- `pmm_alloc_page`: the address of the lowest free page, or 0. -/
def pmmAllocPage (p : Pmm) : ℕ × Pmm :=
  match firstFree p.bitmap p.totalPages 0 with
  | some i => (i * 4096, p.take i)
  | none => (0, p)

/-- `pmm_mark_page_used`. -/
def pmmMarkPageUsed (p : Pmm) (addr : ℕ) : Pmm :=
  let page := addr / 4096
  if page < p.totalPages ∧ p.bitmap page = false then p.take page else p

/-- `pmm_free_page`. -/
def pmmFreePage (p : Pmm) (addr : ℕ) : Pmm :=
  let page := addr / 4096
  if page < p.totalPages ∧ p.bitmap page = true then p.drop page else p

end PlantOS.Mm
