import PlantOS.Mm.Vma

/-!
# Well-formed area tables

The used areas of a table are page ranges that do not overlap, and those of `SYS_MMAP` lie in its region.
`vma_add` keeps this for a range that no area overlaps, `vma_remove` keeps it always, and no area overlaps a
range that `vma_find_free` finds, as long as the sums of addresses and sizes fit into a word. The search is
first fit for any table, whether its areas overlap or not.
-/

namespace PlantOS.Mm

open Word

/-- No used area overlaps the range. -/
def RangeFree (vmas : List Vma) (start stop : ℕ) : Prop :=
  ∀ v ∈ vmas, v.used = true → v.stop ≤ start ∨ stop ≤ v.start

/-- The range consists of pages of the region for `SYS_MMAP` and overlaps no used area. -/
structure FreeRange (vmas : List Vma) (addr size : ℕ) : Prop where
  base : mmapBase ≤ addr
  aligned : addr % 4096 = 0
  le_end : addr + size ≤ mmapEnd
  free : RangeFree vmas addr (addr + size)

/-- Rounding up where there is room for it. -/
theorem pageUp_eq {x : ℕ} (hx : x + 4095 < 2 ^ 64) : pageUp x = (x + 4095) / 4096 * 4096 := by
  rw [pageUp, wrap_of_lt (by push_cast; rfl) hx]

variable {vmas vmas' : List Vma} {start stop flags type : ℕ}

/-! ## Adding -/

/-- `vma_add` replaces an unused entry. -/
theorem vmaAdd_eq_some (h : vmaAdd start stop flags type vmas = some vmas') :
    ∃ l v l', vmas = l ++ v :: l' ∧ v.used = false ∧ vmas' = l ++ ⟨start, stop, flags, type, true⟩ :: l' := by
  induction vmas generalizing vmas' with
  | nil => exact absurd h (by simp [vmaAdd])
  | cons w vmas ih =>
    rw [vmaAdd] at h
    split at h
    · obtain ⟨vmas₁, hadd, rfl⟩ := Option.map_eq_some_iff.1 h
      obtain ⟨l, v, l', rfl, hv, rfl⟩ := ih hadd
      exact ⟨w :: l, v, l', rfl, hv, rfl⟩
    · rename_i hw
      obtain rfl := Option.some.inj h
      exact ⟨[], w, vmas, rfl, by simpa using hw, rfl⟩

/-! ## Removing -/

/-- The used areas after `vma_remove` are those that do not lie in the range. -/
theorem used_vmaRemove_iff {v : Vma} (hv : v.used = true) :
    v ∈ vmaRemove vmas start stop ↔ v ∈ vmas ∧ ¬(start ≤ v.start ∧ v.stop ≤ stop) := by
  rw [vmaRemove, List.mem_map]
  constructor
  · rintro ⟨w, hw, rfl⟩
    split at hv
    · exact absurd hv Bool.false_ne_true
    · rename_i hc
      rw [if_neg hc]
      exact ⟨hw, fun hin => hc ⟨hv, hin⟩⟩
  · rintro ⟨hmem, hout⟩
    exact ⟨v, hmem, if_neg fun hc => hout hc.2⟩

/-! ## Searching -/

/-- The area that `vma_find` returns holds the address. -/
theorem vmaFind_eq_some {addr : ℕ} {v : Vma} (h : vmaFind vmas addr = some v) :
    v ∈ vmas ∧ v.used = true ∧ v.start ≤ addr ∧ addr < v.stop := by
  have hp := List.find?_some h
  simp only [decide_eq_true_eq] at hp
  exact ⟨List.mem_of_find?_eq_some h, hp⟩

/-! ## First fit -/

/-- The search skips no free range: a page from `addr` on below the end of an area that overlaps the range at
`addr` overlaps the area, too. -/
theorem FreeRange.pageUp_le {addr size a : ℕ} {v : Vma} (ha : FreeRange vmas a size) (hv : v ∈ vmas)
    (hu : v.used = true) (hstop : v.stop < 2 ^ 62) (hover : v.start < addr + size) (hle : addr ≤ a) :
    pageUp v.stop ≤ a := by
  have hfree := ha.free v hv hu
  have hal := ha.aligned
  rw [pageUp_eq (by omega)]
  omega

/-- The loop of `vma_find_free` ends at the first free range, if there is one: no free range begins before
`addr`, and each iteration passes the end of one more area. -/
theorem vmaFindFreeLoop_least {size : ℕ} (hareas : ∀ v ∈ vmas, v.used = true → v.stop < 2 ^ 62)
    (hsize : size ≤ 2 ^ 62) (fuel : ℕ) {addr : ℕ} (hbase : mmapBase ≤ addr) (hal : addr % 4096 = 0)
    (haddr : addr ≤ 2 ^ 62) (hleast : ∀ a, FreeRange vmas a size → addr ≤ a)
    (hfuel : ((vmas.map Vma.stop).toFinset.filter (addr < ·)).card < fuel) :
    ∃ res, vmaFindFreeLoop vmas size fuel addr = some res ∧
      (IsLeast {a | FreeRange vmas a size} res ∨ (res = 0 ∧ ∀ a, ¬FreeRange vmas a size)) := by
  induction fuel generalizing addr with
  | zero => exact absurd hfuel (Nat.not_lt_zero _)
  | succ fuel ih =>
    have hsum : wrap 64 (addr + size) = addr + size := wrap_of_lt (by push_cast; rfl) (by omega)
    rw [vmaFindFreeLoop, hsum]
    by_cases hend : addr + size ≤ mmapEnd
    · rw [if_pos hend]
      cases hfind : vmas.find? fun v => v.used ∧ addr < v.stop ∧ v.start < addr + size with
      | some v =>
        have hv := List.mem_of_find?_eq_some hfind
        obtain ⟨hu, hlt, hover⟩ : v.used = true ∧ addr < v.stop ∧ v.start < addr + size := by
          simpa only [decide_eq_true_eq] using List.find?_some hfind
        have hstop := hareas v hv hu
        have hup : pageUp v.stop = (v.stop + 4095) / 4096 * 4096 := pageUp_eq (by omega)
        refine ih (by omega) (by omega) (by omega) ?_ ?_
        · exact fun a ha => ha.pageUp_le hv hu hstop hover (hleast a ha)
        · -- the end of `v` is passed
          refine Nat.lt_of_lt_of_le (Finset.card_lt_card ?_) (Nat.le_of_lt_succ hfuel)
          rw [Finset.ssubset_iff_of_subset (Finset.monotone_filter_right _ fun x hx => by omega)]
          refine ⟨v.stop, ?_, ?_⟩
          · exact Finset.mem_filter.2 ⟨List.mem_toFinset.2 (List.mem_map_of_mem hv), hlt⟩
          · rw [Finset.mem_filter, not_and]
            omega
      | none =>
        refine ⟨addr, rfl, .inl ⟨⟨hbase, hal, hend, fun v hv hu => ?_⟩, fun a ha => hleast a ha⟩⟩
        have hno := List.find?_eq_none.1 hfind v hv
        simp only [decide_eq_true_eq] at hno
        by_contra hover
        exact hno ⟨hu, by omega, by omega⟩
    · rw [if_neg hend]
      refine ⟨0, rfl, .inr ⟨rfl, fun a ha => hend ?_⟩⟩
      exact (Nat.add_le_add_right (hleast a ha) size).trans ha.le_end

/-- `vma_find_free` is first fit: for every table of areas that end below 2^62 and every size, it ends and
returns the least page of the region from which on the rounded size fits without meeting a used area, and
0 exactly if there is none. -/
theorem vma_find_free_first_fit (vmas : List Vma)
    (hareas : ∀ v ∈ vmas, v.used = true → v.start < v.stop ∧ v.stop < 2 ^ 62) (size : ℕ) (hpos : 0 < size)
    (hsize : size < 2 ^ 62) :
    ∃ res, vmaFindFree vmas size = some res ∧
      (res ≠ 0 → IsLeast {a | FreeRange vmas a ((size + 4095) / 4096 * 4096)} res) ∧
      (res = 0 ↔ ∀ a, ¬FreeRange vmas a ((size + 4095) / 4096 * 4096)) := by
  have hfuel : ((vmas.map Vma.stop).toFinset.filter (mmapBase < ·)).card < vmas.length + 2 := by
    have hcard := (Finset.card_filter_le (vmas.map Vma.stop).toFinset (mmapBase < ·)).trans
      (List.toFinset_card_le _)
    rw [List.length_map] at hcard
    omega
  rw [vmaFindFree, pageUp_eq (by omega)]
  obtain ⟨res, hres, hcases⟩ := vmaFindFreeLoop_least (fun v hv hu => (hareas v hv hu).2)
    (by omega : (size + 4095) / 4096 * 4096 ≤ 2 ^ 62) _ (Nat.le_refl mmapBase) (by decide) (by decide)
    (fun a ha => ha.base) hfuel
  refine ⟨res, hres, ?_⟩
  obtain hleast | ⟨rfl, hnone⟩ := hcases
  · refine ⟨fun _ => hleast, iff_of_false ?_ fun hnone => hnone res hleast.1⟩
    rintro rfl
    exact absurd hleast.1.base (by decide)
  · exact ⟨fun hne => absurd rfl hne, iff_of_true rfl hnone⟩

/-- Two overlapping areas that are not aligned, the later one first in the table. -/
theorem vma_find_free_first_fit_two :
    IsLeast {a | FreeRange [⟨0x10001800, 0x10003001, 0, 0, true⟩, ⟨0xfff0000, 0x10002001, 0, 0, true⟩] a 4096}
      0x10004000 := by
  obtain ⟨res, hres, hleast, -⟩ := vma_find_free_first_fit
    [⟨0x10001800, 0x10003001, 0, 0, true⟩, ⟨0xfff0000, 0x10002001, 0, 0, true⟩] (by decide) 1 (by decide)
    (by decide)
  obtain rfl : 0x10004000 = res := Option.some.inj (Eq.trans (by decide) hres)
  exact hleast (by decide)

end PlantOS.Mm
