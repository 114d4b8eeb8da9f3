import PlantOS.Common.Word

/-!
# Virtual memory areas

Model of the per-task part of `mm/vma.c`. The table of a task is a list of `VMA_MAX_PER_TASK` entries;
the searches go through it in order. Addresses are 64-bit numbers.

Reference: `mm/vma.c`, `mm/vma.h`.
-/

namespace PlantOS.Mm

open Word

/-- `struct vma`, without the id of a shared segment. -/
structure Vma where
  start : ℕ
  stop : ℕ
  flags : ℕ
  type : ℕ
  used : Bool
deriving DecidableEq

/-- `VMA_MAX_PER_TASK`. -/
def vmaMaxPerTask : ℕ := 32

/-- `MMAP_BASE`. -/
def mmapBase : ℕ := 0x10000000

/-- `MMAP_END`. -/
def mmapEnd : ℕ := 0x70000000

/-- `STACK_GUARD_LOW`. -/
def stackGuardLow : ℕ := 0x700000

/-- `(x + PAGE_SIZE - 1) & ~(PAGE_SIZE - 1)` on 64-bit words. -/
def pageUp (x : ℕ) : ℕ := wrap 64 (x + 4095) / 4096 * 4096

/-- `vma_init_list`. -/
def vmaInitList : List Vma := List.replicate vmaMaxPerTask ⟨0, 0, 0, 0, false⟩

/-- `vma_find`: the first used area that holds the address. -/
def vmaFind (vmas : List Vma) (addr : ℕ) : Option Vma :=
  vmas.find? fun v => v.used ∧ v.start ≤ addr ∧ addr < v.stop

/-- `vma_add`: fill the first unused entry; `none` if there is none. -/
def vmaAdd (start stop flags type : ℕ) : List Vma → Option (List Vma)
  | [] => none
  | v :: vmas =>
    if v.used then (vmaAdd start stop flags type vmas).map (v :: ·)
    else some (⟨start, stop, flags, type, true⟩ :: vmas)

/-- `vma_add` where the caller does not look at the result. -/
def vmaAddOrKeep (start stop flags type : ℕ) (vmas : List Vma) : List Vma :=
  (vmaAdd start stop flags type vmas).getD vmas

/-- `vma_remove`: drop the areas that lie in the range. -/
def vmaRemove (vmas : List Vma) (start stop : ℕ) : List Vma :=
  vmas.map fun v => if v.used ∧ start ≤ v.start ∧ v.stop ≤ stop then { v with used := false } else v

/-- The loop of `vma_find_free`, for at most the given number of iterations. -/
def vmaFindFreeLoop (vmas : List Vma) (size : ℕ) : ℕ → ℕ → Option ℕ
  | 0, _ => none
  | fuel + 1, addr =>
    if wrap 64 (addr + size) ≤ mmapEnd then
      match vmas.find? fun v => v.used ∧ addr < v.stop ∧ v.start < wrap 64 (addr + size) with
      | some v => vmaFindFreeLoop vmas size fuel (pageUp v.stop)
      | none => some addr
    else some 0

/-- `vma_find_free`: the address, or 0; `none` if the loop does not end. The loop goes from the start of
the region to the ends of areas, so that a loop with more iterations than there are areas plus one comes
back to an address where it has been. -/
def vmaFindFree (vmas : List Vma) (size : ℕ) : Option ℕ :=
  vmaFindFreeLoop vmas (pageUp size) (vmas.length + 2) mmapBase

end PlantOS.Mm
