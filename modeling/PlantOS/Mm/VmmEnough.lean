import PlantOS.Mm.VmmClone
import PlantOS.Mm.VmmTranslate
import PlantOS.Mm.VmmOnePage

/-!
# When a page is mapped

`vmm_map_page_in` has no result: if there is no frame for a table it needs, it returns without having mapped
the page. `Mappable` says, from the tables and the free frames before the call, whether it maps the page. A
missing table takes one frame. The table that splits a huge page must lie outside of it, and
`get_or_create_table` looks at the 16 lowest free frames only.
-/

namespace PlantOS.Mm

section

variable {s : Vm} {roots : ℕ → Prop} {r : ℕ}

/-! ## Splitting a huge page -/

/-- Among the `n` lowest free frames there is one outside of the huge page at `hugePhys`. -/
def SplitFrame (free : Finset ℕ) (hugePhys n : ℕ) : Prop :=
  ∃ f ∈ free, ¬(hugePhys ≤ f * 4096 ∧ f * 4096 < hugePhys + 0x200000) ∧ (free.filter (· < f)).card < n

theorem not_splitFrame_zero (free : Finset ℕ) (hugePhys : ℕ) : ¬SplitFrame free hugePhys 0 := by
  rintro ⟨_, _, _, hlt⟩
  exact Nat.not_lt_zero _ hlt

theorem not_splitFrame_empty (hugePhys n : ℕ) : ¬SplitFrame ∅ hugePhys n := by
  rintro ⟨_, hf, _⟩
  exact Finset.notMem_empty _ hf

/-- The lowest free frame lies in the huge page, and is set aside. -/
theorem splitFrame_erase {free : Finset ℕ} {hugePhys n i : ℕ} (hi : i ∈ free) (hmin : ∀ j ∈ free, i ≤ j)
    (hin : hugePhys ≤ i * 4096 ∧ i * 4096 < hugePhys + 0x200000) :
    SplitFrame (free.erase i) hugePhys n ↔ SplitFrame free hugePhys (n + 1) := by
  have hcard : ∀ f ∈ free, f ≠ i → (free.filter (· < f)).card = ((free.erase i).filter (· < f)).card + 1 := by
    intro f hf hne
    have hlt : i < f := lt_of_le_of_ne (hmin f hf) hne.symm
    rw [Finset.filter_erase, Finset.card_erase_add_one (Finset.mem_filter.2 ⟨hi, hlt⟩)]
  constructor
  · rintro ⟨f, hf, hout, hlt⟩
    obtain ⟨hne, hf⟩ := Finset.mem_erase.1 hf
    exact ⟨f, hf, hout, by rw [hcard f hf hne]; omega⟩
  · rintro ⟨f, hf, hout, hlt⟩
    have hne : f ≠ i := fun h => hout (h ▸ hin)
    refine ⟨f, Finset.mem_erase.2 ⟨hne, hf⟩, hout, ?_⟩
    rw [hcard f hf hne] at hlt
    omega

/-- The attempts succeed if there is such a frame. -/
theorem splitAlloc_ne_zero (hugePhys n : ℕ) : ∀ {rejected : List ℕ} {s : Vm}, s.Used 0 →
    ((splitAlloc hugePhys n rejected s).1 ≠ 0 ↔ SplitFrame s.freePages hugePhys n) := by
  induction n with
  | zero =>
    intro rejected s _
    exact iff_of_false (fun h => h rfl) (not_splitFrame_zero _ _)
  | succ n ih =>
    intro rejected s h0
    rw [splitAlloc]
    obtain ⟨hempty, heq⟩ | ⟨i, hi, hmin, haddr, hne, herase⟩ := Vm.alloc_lowest h0
    · rw [if_pos (by rw [heq]), hempty]
      exact iff_of_false (fun h => h rfl) (not_splitFrame_empty _ _)
    · rw [if_neg hne]
      by_cases hin : hugePhys ≤ s.alloc.1 ∧ s.alloc.1 < hugePhys + 0x200000
      · have h0' : s.alloc.2.Used 0 := ((Vm.Keeps.refl (fun _ => False) s).alloc h0).used 0 h0
        rw [if_pos hin, ih h0', herase]
        rw [haddr] at hin
        exact splitFrame_erase hi hmin hin
      · rw [if_neg hin]
        refine iff_of_true hne ⟨i, hi, by rwa [haddr] at hin, ?_⟩
        rw [Finset.filter_eq_empty_iff.2 fun j hj => not_lt.2 (hmin j hj)]
        exact Nat.succ_pos n

/-! ## Tables -/

/-- A missing table is made in a free frame, and is empty. -/
theorem getOrCreateTable_absent {t i flags : ℕ} (h0 : s.Used 0) (ht : s.Used t) (hlt : flags < 4096)
    (hp : ¬Present (s.mem t i)) :
    (s.freePages = ∅ ∧ (getOrCreateTable s t i flags).1 = 0) ∨
      ((getOrCreateTable s t i flags).1 ≠ 0 ∧
        (getOrCreateTable s t i flags).2.freePages.card + 1 = s.freePages.card ∧
        ∀ j, ¬Present ((getOrCreateTable s t i flags).2.mem (getOrCreateTable s t i flags).1 j)) := by
  rw [getOrCreateTable]
  dsimp only
  rw [if_neg hp]
  obtain ⟨hempty, heq⟩ | ⟨i, hi, -, -, hne, herase⟩ := Vm.alloc_lowest h0
  · rw [if_pos (by rw [heq])]
    exact .inl ⟨hempty, rfl⟩
  · right
    obtain heq | ⟨-, hfresh, -⟩ := Vm.alloc_cases h0
    · rw [heq] at hne
      exact absurd rfl hne
    have hpte : pteAddr (s.alloc.1 ||| flags) = s.alloc.1 := pteAddr_or hfresh.aligned hlt
    rw [if_neg hne, mem_set_entry, hpte]
    refine ⟨hne, ?_, fun j => ?_⟩
    · have hcard := Finset.card_erase_add_one hi
      rw [← herase] at hcard
      exact hcard
    · rw [Vm.mem_set_ne (hfresh.ne ht), Vm.mem_setPage_self]
      decide

/-- The frames `free` are enough for the tables of `virt` that `vmm_map_page_in` does not find. -/
def Mappable (mem : ℕ → ℕ → ℕ) (free : Finset ℕ) (pml4 virt : ℕ) : Prop :=
  let e4 := mem pml4 (virt / 2 ^ 39 % 512)
  let e3 := mem (pteAddr e4) (virt / 2 ^ 30 % 512)
  let e2 := mem (pteAddr e3) (virt / 2 ^ 21 % 512)
  if ¬Present e4 then 3 ≤ free.card
  else if ¬Present e3 then 2 ≤ free.card
  else if ¬Present e2 then 1 ≤ free.card
  else if Huge e2 then SplitFrame free (e2 / 0x200000 * 0x200000) 16
  else True

/-- The last table of the walk. -/
theorem getOrCreateTable_ne_zero {t i flags : ℕ} (h0 : s.Used 0) (ht : s.Used t) (hlt : flags < 4096)
    (hz : Present (s.mem t i) → ¬Huge (s.mem t i) → pteAddr (s.mem t i) ≠ 0) :
    (getOrCreateTable s t i flags).1 ≠ 0 ↔
      if ¬Present (s.mem t i) then 1 ≤ s.freePages.card
      else if Huge (s.mem t i) then SplitFrame s.freePages (s.mem t i / 0x200000 * 0x200000) 16
      else True := by
  by_cases hp : Present (s.mem t i)
  · rw [if_neg (not_not.2 hp)]
    by_cases hh : Huge (s.mem t i)
    · rw [if_pos hh, ← @splitAlloc_ne_zero _ 16 [] _ h0, getOrCreateTable]
      dsimp only
      obtain ⟨-, hres⟩ := splitAlloc_gains h0 (s.mem t i / 0x200000 * 0x200000)
      rw [if_pos hp, if_pos hh]
      generalize splitAlloc (s.mem t i / 0x200000 * 0x200000) 16 [] s = R at hres ⊢
      obtain ⟨hR, -⟩ | ⟨hR, hgains⟩ := hres
      · rw [if_pos hR]
        exact iff_of_false (fun h => h rfl) fun h => h hR
      · rw [if_neg hR, mem_set_entry,
          pteAddr_or (hgains.fresh (Finset.mem_singleton_self _)).aligned hlt]
    · rw [if_neg hh, getOrCreateTable]
      dsimp only
      rw [if_pos hp, if_neg hh]
      exact iff_of_true (hz hp hh) trivial
  · rw [if_pos hp]
    obtain ⟨hempty, hzero⟩ | ⟨hne, hcard, -⟩ := getOrCreateTable_absent h0 ht hlt hp
    · rw [hempty, hzero]
      simp
    · exact iff_of_true hne (by omega)

theorem getOrCreateTable_present {t i : ℕ} (hp : Present (s.mem t i)) (hh : ¬Huge (s.mem t i))
    (flags : ℕ) : getOrCreateTable s t i flags = (pteAddr (s.mem t i), s) := by
  rw [getOrCreateTable]
  dsimp only
  rw [if_pos hp, if_neg hh]

/-- `vmm_map_page_in` finds or makes the page table exactly if the frames are there. -/
theorem Walkable.pageTableFor_ne_zero (h : Walkable roots s) (hr : roots r) (virt flags : ℕ) :
    (Mm.pageTableFor s r virt flags).1 ≠ 0 ↔ Mappable s.mem s.freePages r virt := by
  have hi : ∀ n, n % 512 < 512 := fun n => Nat.mod_lt n (by decide)
  obtain ⟨hlt, hpf, hhf⟩ := tblFlags_spec flags
  have hused : ∀ {u : Vm} {q t}, Walkable roots u → tableAt u.mem r q = some t → u.Used t ∧ t ≠ 0 :=
    fun hu ht => ⟨hu.used _ ⟨r, _, hr, ht⟩, hu.ne_zero _ ⟨r, _, hr, ht⟩⟩
  -- the last table below a directory of `u`
  have hlast : ∀ {u : Vm} {pd : ℕ}, Walkable roots u → tableAt u.mem r (pagePath virt).tail.tail = some pd →
      ((Mm.getOrCreateTable u pd (virt / 2 ^ 21 % 512) (tblFlags flags)).1 ≠ 0 ↔
        if ¬Present (u.mem pd (virt / 2 ^ 21 % 512)) then 1 ≤ u.freePages.card
        else if Huge (u.mem pd (virt / 2 ^ 21 % 512)) then
          SplitFrame u.freePages (u.mem pd (virt / 2 ^ 21 % 512) / 0x200000 * 0x200000) 16
        else True) := by
    intro u pd hu hpd
    refine getOrCreateTable_ne_zero hu.used_zero (hused hu hpd).1 hlt fun hp hh => ?_
    exact (hused hu (tableAt_next hpd (hi _) (by simp [pagePath]) hp hh)).2
  rw [Mm.pageTableFor, Mappable]
  dsimp only
  by_cases hp4 : Present (s.mem r (virt / 2 ^ 39 % 512))
  · have hh4 := h.not_huge r [] r _ hr rfl (hi _) (by decide) hp4
    have h4 := tableAt_next (q := []) (r := r) rfl (hi _) (by decide) hp4 hh4
    rw [if_neg (not_not.2 hp4), getOrCreateTable_present hp4 hh4]
    dsimp only
    rw [if_neg (hused h h4).2]
    generalize pteAddr (s.mem r (virt / 2 ^ 39 % 512)) = pdpt at h4 ⊢
    by_cases hp3 : Present (s.mem pdpt (virt / 2 ^ 30 % 512))
    · have hh3 := h.not_huge r _ pdpt _ hr h4 (hi _) (by simp) hp3
      have h3 := tableAt_next h4 (hi _) (by simp) hp3 hh3
      rw [if_neg (not_not.2 hp3), getOrCreateTable_present hp3 hh3]
      dsimp only
      rw [if_neg (hused h h3).2]
      exact hlast h h3
    · rw [if_pos hp3]
      obtain ⟨h₂, -, hres₂⟩ := h.getOrCreateTable hr h4 (hi (virt / 2 ^ 30)) (by simp) hlt hpf hhf
      obtain ⟨hempty, hzero⟩ | ⟨hne, hcard, habsent⟩ :=
        @getOrCreateTable_absent _ _ _ (tblFlags flags) h.used_zero (hused h h4).1 hlt hp3
      · rw [if_pos hzero, hempty]
        simp
      · have hpd := hres₂.resolve_left hne
        rw [if_neg hne, hlast h₂ hpd, if_pos (habsent _)]
        omega
  · rw [if_pos hp4]
    obtain ⟨h₁, -, hres₁⟩ := h.getOrCreateTable (q := []) hr rfl (hi (virt / 2 ^ 39)) (by decide) hlt hpf hhf
    obtain ⟨hempty, hzero⟩ | ⟨hne, hcard, habsent⟩ := @getOrCreateTable_absent _ _ _ (tblFlags flags)
      h.used_zero (hused h (q := []) rfl).1 hlt hp4
    · rw [if_pos hzero, hempty]
      simp
    rw [if_neg hne]
    have hpdpt := hres₁.resolve_left hne
    generalize Mm.getOrCreateTable s r (virt / 2 ^ 39 % 512) (tblFlags flags) = R₁
      at h₁ hne hcard habsent hpdpt ⊢
    obtain ⟨h₂, -, hres₂⟩ := h₁.getOrCreateTable hr hpdpt (hi (virt / 2 ^ 30)) (by simp) hlt hpf hhf
    obtain ⟨hempty, hzero⟩ | ⟨hne₂, hcard₂, habsent₂⟩ := @getOrCreateTable_absent _ _ _ (tblFlags flags)
      h₁.used_zero (hused h₁ hpdpt).1 hlt (habsent (virt / 2 ^ 30 % 512))
    · rw [hempty, Finset.card_empty] at hcard
      rw [if_pos hzero]
      exact iff_of_false (fun h => h rfl) (by omega)
    · rw [if_neg hne₂, hlast h₂ (hres₂.resolve_left hne₂), if_pos (habsent₂ _)]
      omega

/-- What is outside of the allocated frames does not matter. -/
theorem Walkable.mappable_ext {s' : Vm} (h : Walkable roots s) (hr : roots r) (hx : s.Ext s')
    (free : Finset ℕ) (virt : ℕ) : Mappable s'.mem free r virt ↔ Mappable s.mem free r virt := by
  have hi : ∀ n, n % 512 < 512 := fun n => Nat.mod_lt n (by decide)
  have hmem : ∀ {q t}, tableAt s.mem r q = some t → s'.mem t = s.mem t := fun ht =>
    hx.mem_eq (h.used _ ⟨r, _, hr, ht⟩)
  rw [Mappable, Mappable, hmem (q := []) rfl]
  by_cases hp4 : Present (s.mem r (virt / 2 ^ 39 % 512))
  swap
  · rw [if_pos hp4, if_pos hp4]
  have h4 := tableAt_next (q := []) (r := r) rfl (hi _) (by decide) hp4
    (h.not_huge r [] r _ hr rfl (hi _) (by decide) hp4)
  rw [if_neg (not_not.2 hp4), if_neg (not_not.2 hp4), hmem h4]
  generalize pteAddr (s.mem r (virt / 2 ^ 39 % 512)) = pdpt at h4 ⊢
  by_cases hp3 : Present (s.mem pdpt (virt / 2 ^ 30 % 512))
  swap
  · rw [if_pos hp3, if_pos hp3]
  have h3 := tableAt_next h4 (hi _) (by simp) hp3 (h.not_huge r _ pdpt _ hr h4 (hi _) (by simp) hp3)
  rw [if_neg (not_not.2 hp3), if_neg (not_not.2 hp3), hmem h3]

theorem mappable_congr {mem : ℕ → ℕ → ℕ} {free : Finset ℕ} {v w : ℕ} (h : pagePath v = pagePath w) :
    Mappable mem free r v ↔ Mappable mem free r w := by
  simp only [pagePath, List.cons.injEq, and_true] at h
  obtain ⟨-, h2, h3, h4⟩ := h
  rw [Mappable, Mappable, h2, h3, h4]

/-- With three free frames, the lowest of them outside of the huge page of `v`, the page can be mapped. -/
theorem FrameInv.mappable_of_lowest {K : Kernel} {excl : Prop} {v i : ℕ} {free : Finset ℕ}
    (h : FrameInv K excl roots s) (hr : roots r) (hcard : 3 ≤ free.card) (hi : i ∈ free)
    (hmin : ∀ j ∈ free, i ≤ j) (hout : i / 512 ≠ v / 2 ^ 21 % 2 ^ 27) : Mappable s.mem free r v := by
  have hlt : ∀ n, n % 512 < 512 := fun n => Nat.mod_lt n (by decide)
  rw [Mappable]
  by_cases hp4 : Present (s.mem r (v / 2 ^ 39 % 512))
  swap
  · rwa [if_pos hp4]
  have h4 := tableAt_next (q := []) (r := r) rfl (hlt _) (by decide) hp4
    (h.not_huge (q := []) hr rfl (hlt _) (by decide) hp4)
  rw [if_neg (not_not.2 hp4)]
  generalize pteAddr (s.mem r (v / 2 ^ 39 % 512)) = pdpt at h4 ⊢
  by_cases hp3 : Present (s.mem pdpt (v / 2 ^ 30 % 512))
  swap
  · rw [if_pos hp3]
    omega
  have h3 := tableAt_next h4 (hlt _) (by simp) hp3 (h.not_huge hr h4 (hlt _) (by simp) hp3)
  rw [if_neg (not_not.2 hp3)]
  generalize pteAddr (s.mem pdpt (v / 2 ^ 30 % 512)) = pd at h3 ⊢
  by_cases hp2 : Present (s.mem pd (v / 2 ^ 21 % 512))
  swap
  · rw [if_pos hp2]
    omega
  rw [if_neg (not_not.2 hp2)]
  split_ifs with hh2
  · -- a huge page is the identity page of its addresses
    have he := (h.huge r _ pd _ hr h3 (hlt _) (by simp) hp2 hh2).2
    simp only [vpn] at he
    refine ⟨i, hi, ?_, ?_⟩
    · omega
    · rw [Finset.filter_eq_empty_iff.2 fun j hj => not_lt.2 (hmin j hj)]
      decide

/-! ## Three free frames

With three free frames only the splitting of a huge page can fail.
-/

/-- If the directory entry of `virt` is a huge page, one of the 16 lowest free frames lies outside of it. -/
def SplitOk (s : Vm) (pml4 virt : ℕ) : Prop :=
  ∀ pd, tableAt s.mem pml4 (pagePath virt).tail.tail = some pd →
    Present (s.mem pd (virt / 2 ^ 21 % 512)) → Huge (s.mem pd (virt / 2 ^ 21 % 512)) →
      SplitFrame s.freePages (s.mem pd (virt / 2 ^ 21 % 512) / 0x200000 * 0x200000) 16

theorem Walkable.mappable_iff (h : Walkable roots s) (hr : roots r) (hcard : 3 ≤ s.freePages.card)
    (virt : ℕ) : Mappable s.mem s.freePages r virt ↔ SplitOk s r virt := by
  have hlt : ∀ n, n % 512 < 512 := fun n => Nat.mod_lt n (by decide)
  -- without the directory there is nothing to split
  have hnone : tableAt s.mem r (pagePath virt).tail.tail = none → SplitOk s r virt := by
    intro hnone pd hpd
    rw [hnone] at hpd
    cases hpd
  rw [Mappable]
  by_cases hp4 : Present (s.mem r (virt / 2 ^ 39 % 512))
  swap
  · rw [if_pos hp4]
    refine iff_of_true hcard (hnone ?_)
    refine Option.eq_none_iff_forall_ne_some.2 fun pd hpd => ?_
    obtain ⟨pdpt, hpdpt, -⟩ := tableAt_cons_eq_some hpd
    obtain ⟨_, hroot, -, hp, -⟩ := tableAt_cons_eq_some hpdpt
    obtain rfl := Option.some.inj hroot
    exact hp4 hp
  have h4 := tableAt_next (q := []) (r := r) rfl (hlt _) (by decide) hp4
    (h.not_huge r [] r _ hr rfl (hlt _) (by decide) hp4)
  rw [if_neg (not_not.2 hp4)]
  generalize pteAddr (s.mem r (virt / 2 ^ 39 % 512)) = pdpt at h4 ⊢
  by_cases hp3 : Present (s.mem pdpt (virt / 2 ^ 30 % 512))
  swap
  · rw [if_pos hp3]
    refine iff_of_true (by omega) (hnone ?_)
    refine Option.eq_none_iff_forall_ne_some.2 fun pd hpd => ?_
    obtain ⟨x, hx, -, hp, -⟩ := tableAt_cons_eq_some hpd
    obtain rfl := Option.some.inj (hx.symm.trans h4)
    exact hp3 hp
  have h3 := tableAt_next h4 (hlt _) (by simp) hp3 (h.not_huge r _ pdpt _ hr h4 (hlt _) (by simp) hp3)
  rw [if_neg (not_not.2 hp3)]
  generalize pteAddr (s.mem pdpt (virt / 2 ^ 30 % 512)) = pd at h3 ⊢
  have hsplit : SplitOk s r virt ↔ (Present (s.mem pd (virt / 2 ^ 21 % 512)) →
      Huge (s.mem pd (virt / 2 ^ 21 % 512)) →
        SplitFrame s.freePages (s.mem pd (virt / 2 ^ 21 % 512) / 0x200000 * 0x200000) 16) := by
    refine ⟨fun hs => hs pd h3, fun hs pd' hpd' => ?_⟩
    obtain rfl := Option.some.inj (hpd'.symm.trans h3)
    exact hs
  rw [hsplit]
  split_ifs with hp2 hh2
  · exact ⟨fun hs _ _ => hs, fun hs => hs hp2 hh2⟩
  · exact iff_of_true trivial fun _ hh => (hh2 hh).elim
  · exact iff_of_true (by omega) fun hp => (hp2 hp).elim

/-- The page of `virt` has the entry that `vmm_map_page_in` was asked for, and the processor uses it. -/
structure PageMappedTo (s : Vm) (pml4 virt phys flags : ℕ) : Prop where
  entry : leafAt s.mem pml4 (pagePath virt) = some (pteAddr phys ||| flags)
  translation : flags < 4096 → Present flags →
    ∃ user, mmuTranslate s.mem pml4 virt = some ⟨pteAddr phys + virt % 4096, user⟩

theorem pageMappedTo_iff {virt phys flags : ℕ} :
    PageMappedTo s r virt phys flags ↔ leafAt s.mem r (pagePath virt) = some (pteAddr phys ||| flags) := by
  refine ⟨fun h => h.entry, fun hleaf => ⟨hleaf, fun hlt hp => ?_⟩⟩
  have hal : pteAddr phys % 4096 = 0 := Nat.mul_mod_left _ _
  obtain ⟨u, hu⟩ := mmuTranslate_of_leafAt hleaf ((present_or hal hlt).2 hp)
  rw [pteAddr_or hal hlt] at hu
  exact ⟨u, hu⟩

/-- A call that fails has no effect on the tables. -/
theorem mem_getOrCreateTable_of_eq_zero {t i flags : ℕ} (hlt : flags < 4096) (h0 : s.Used 0)
    (hz : (getOrCreateTable s t i flags).1 = 0) :
    (getOrCreateTable s t i flags).2.mem = s.mem := by
  have hout := getOrCreateTable_outcome h0 t i hlt
  generalize getOrCreateTable s t i flags = R at hout hz ⊢
  cases hout with
  | found => rfl
  | full _ hmem _ => exact hmem
  | made _ _ hne _ => exact absurd hz hne

/-- If a huge page cannot be split, its pages get no entry. -/
theorem Walkable.leafAt_of_split (h : Walkable roots s) (hr : roots r) {virt pd : ℕ} (phys flags : ℕ)
    (hpd : tableAt s.mem r (pagePath virt).tail.tail = some pd)
    (hp : Present (s.mem pd (virt / 2 ^ 21 % 512))) (hh : Huge (s.mem pd (virt / 2 ^ 21 % 512)))
    (hz : (Mm.pageTableFor s r virt flags).1 = 0) :
    leafAt (Mm.vmmMapPageIn s r virt phys flags).mem r (pagePath virt) = none := by
  have hlt := (tblFlags_spec flags).1
  have hne : ∀ {q t}, tableAt s.mem r q = some t → t ≠ 0 := fun ht => h.ne_zero _ ⟨r, _, hr, ht⟩
  have hlast : Mm.pageTableFor s r virt flags =
      Mm.getOrCreateTable s pd (virt / 2 ^ 21 % 512) (tblFlags flags) := by
    obtain ⟨pdpt, hpdpt, -, hp3, hh3, rfl⟩ := tableAt_cons_eq_some hpd
    obtain ⟨_, hroot, -, hp4, hh4, rfl⟩ := tableAt_cons_eq_some hpdpt
    obtain rfl := Option.some.inj hroot
    rw [Mm.pageTableFor, getOrCreateTable_present hp4 hh4]
    dsimp only
    rw [if_neg (hne hpdpt), getOrCreateTable_present hp3 hh3]
    exact if_neg (hne hpd)
  rw [vmmMapPageIn_eq, if_pos hz, hlast]
  rw [hlast] at hz
  refine Option.eq_none_iff_forall_ne_some.2 fun e hleaf => ?_
  rw [mem_getOrCreateTable_of_eq_zero hlt h.used_zero hz] at hleaf
  obtain ⟨k, q, pt, hpath, -, -, hpt, -⟩ := leafAt_eq_some.1 hleaf
  obtain ⟨-, rfl⟩ := List.cons.inj hpath
  obtain ⟨x, hx, -, -, hh', -⟩ := tableAt_cons_eq_some hpt
  obtain rfl := Option.some.inj (hx.symm.trans hpd)
  exact hh' hh

/-- With three free frames, the page is mapped unless a huge page cannot be split. -/
theorem Walkable.pageMappedTo_iff (h : Walkable roots s) (hr : roots r) (hcard : 3 ≤ s.freePages.card)
    (virt phys flags : ℕ) :
    PageMappedTo (Mm.vmmMapPageIn s r virt phys flags) r virt phys flags ↔ SplitOk s r virt := by
  have hk : virt / 2 ^ 12 % 512 < 512 := Nat.mod_lt _ (by decide)
  rw [Mm.pageMappedTo_iff, ← h.mappable_iff hr hcard, ← h.pageTableFor_ne_zero hr virt flags]
  obtain ⟨h₁, -, hres⟩ := h.pageTableFor hr virt flags
  by_cases hz : (Mm.pageTableFor s r virt flags).1 = 0
  · refine iff_of_false (fun hleaf => ?_) (not_not.2 hz)
    have hsplit : ¬SplitOk s r virt := by
      rw [← h.mappable_iff hr hcard, ← h.pageTableFor_ne_zero hr virt flags]
      exact not_not.2 hz
    simp only [SplitOk, not_forall] at hsplit
    obtain ⟨pd, hpd, hp, hh, -⟩ := hsplit
    rw [h.leafAt_of_split hr phys flags hpd hp hh hz] at hleaf
    cases hleaf
  · refine iff_of_true ?_ hz
    rw [vmmMapPageIn_eq, if_neg hz]
    exact (leafAt_setLeaf h₁.forest hr (hres.resolve_left hz) rfl hk hr).2 (.inr ⟨rfl, rfl, rfl⟩)

/-! ## Runs -/

theorem Walkable.unmap (h : Walkable roots s) (hr : roots r) (virt : ℕ) :
    Walkable roots (vmmUnmapPage s r virt) := by
  have hlt : ∀ n, n % 512 < 512 := fun n => Nat.mod_lt n (by decide)
  rw [vmmUnmapPage]
  split_ifs with hp4 hp3 hp2 hh2
  · exact h
  · have h4 := tableAt_next (q := []) (r := r) rfl (hlt _) (by decide) hp4
      (h.not_huge r [] r _ hr rfl (hlt _) (by decide) hp4)
    have h3 := tableAt_next h4 (hlt _) (by simp) hp3 (h.not_huge r _ _ _ hr h4 (hlt _) (by simp) hp3)
    have h2 := tableAt_next h3 (hlt _) (by simp) hp2 hh2
    exact (h.setLeaf hr h2 rfl).1
  · exact h
  · exact h
  · exact h

/-- A frame that has no table is freed. -/
theorem Walkable.free {a : ℕ} (h : Walkable roots s) (hz : a / 4096 ≠ 0)
    (ha : ¬IsTable s.mem roots (a / 4096 * 4096)) : Walkable roots (s.free a) where
  forest := h.forest
  used b hb := (h.used b hb).free fun heq => ha (heq ▸ hb)
  not_huge := h.not_huge
  used_zero := h.used_zero.free (by omega)
  ne_zero := h.ne_zero

end

/-- What happens to an address space: a page is mapped or unmapped, or somebody allocates a frame and fills it,
or frees one. -/
inductive SpaceOp
  | map (virt phys flags : ℕ)
  | unmap (virt : ℕ)
  | alloc (words : ℕ → ℕ)
  | free (a : ℕ)

/-- One such step for the address space `root`. -/
def spaceStep (root : ℕ) (s : Vm) : SpaceOp → Vm
  | .map virt phys flags => vmmMapPageIn s root virt phys flags
  | .unmap virt => vmmUnmapPage s root virt
  | .alloc words => if s.alloc.1 = 0 then s.alloc.2 else s.alloc.2.setPage s.alloc.1 words
  | .free a => s.free a

/-- Nobody frees the frame 0 or a table of the address space. -/
def SpaceOpOk (root : ℕ) (s : Vm) : SpaceOp → Prop
  | .free a => a / 4096 ≠ 0 ∧ ¬IsTable s.mem (· = root) (a / 4096 * 4096)
  | _ => True

/-- Step: the page tables of the address space can be walked after every call. -/
theorem Walkable.spaceStep {s : Vm} {root : ℕ} (h : Walkable (· = root) s) {op : SpaceOp}
    (hop : SpaceOpOk root s op) : Walkable (· = root) (spaceStep root s op) := by
  cases op with
  | map virt phys flags => exact (h.vmmMapPageIn rfl virt phys flags).1
  | unmap virt => exact h.unmap rfl virt
  | alloc words => exact h.mapStep rfl (.alloc words)
  | free a => exact h.free hop.1 hop.2

/-- The free frames outside of the 2 MB around `virt`. -/
def Vm.freeOutside (s : Vm) (virt : ℕ) : Finset ℕ :=
  s.freePages.filter fun f => f * 4096 / 2 ^ 21 ≠ virt / 2 ^ 21

/-- The first address space of the example machine, when the frame 512 has been taken: the lowest free frames
are those from 4 MB on. -/
def lowVm : Vm := spaceStep (7 * 4096) (vmmCreateAddressSpace demoKernel.boot demoVm).2 (.alloc fun _ => 0)

theorem freeOutside_low : 3 ≤ (lowVm.freeOutside 0x400000).card := by
  have hsub : ({1536, 1537, 1538} : Finset ℕ) ⊆ lowVm.freeOutside 0x400000 := by
    intro f hf
    rw [Vm.freeOutside, Finset.mem_filter, Vm.mem_freePages]
    simp only [Finset.mem_insert, Finset.mem_singleton] at hf
    obtain rfl | rfl | rfl := hf
    · decide +kernel
    · decide +kernel
    · decide +kernel
  exact Finset.card_le_card hsub

theorem walkable_low : Walkable (· = 7 * 4096) lowVm := by
  obtain ⟨-, -, pdpt, pd, hbuilt⟩ := created_demo
  have hinv := (hbuilt.frameInv (booted_demo.frameInv True)).mono fun x (hx : x = 7 * 4096) => .inr hx
  exact @Walkable.spaceStep _ _ hinv.walkable (.alloc fun _ => 0) trivial

/-- The huge page at 4 MB cannot be split. -/
theorem not_splitOk_low : ¬SplitOk lowVm (7 * 4096) 0x400000 := by
  obtain ⟨-, hnext, -⟩ := created_demo
  have hpmm : lowVm.pmm = (vmmCreateAddressSpace demoKernel.boot demoVm).2.pmm.take 512 := by
    rw [lowVm, spaceStep, Vm.alloc_of_next hnext, if_neg (by decide)]
    rfl
  have hfirst : firstFree lowVm.pmm.bitmap lowVm.pmm.totalPages 0 = some 1024 := hpmm ▸ hnext.2.1
  have hfree : ∀ k < 16, lowVm.pmm.bitmap (1024 + k) = false := by decide +kernel
  intro h
  obtain ⟨f, hf, hout, hlt⟩ := h (9 * 4096) (by decide +kernel) (by decide +kernel) (by decide +kernel)
  have hentry : lowVm.mem (9 * 4096) (0x400000 / 2 ^ 21 % 512) / 0x200000 * 0x200000 = 0x400000 := by
    decide +kernel
  rw [hentry] at hout
  have hge : 1024 ≤ f := by
    by_contra hlt'
    have hused := (firstFree_spec hfirst).2.2 f (Nat.zero_le f) (not_le.1 hlt')
    rw [(Vm.mem_freePages.1 hf).2] at hused
    cases hused
  have hsub : (Finset.range 16).image (1024 + ·) ⊆ lowVm.freePages.filter (· < f) := by
    intro i hi
    obtain ⟨k, hk, rfl⟩ := Finset.mem_image.1 hi
    have hk := Finset.mem_range.1 hk
    have htotal : lowVm.pmm.totalPages = 2 ^ 21 := by decide +kernel
    exact Finset.mem_filter.2 ⟨Vm.mem_freePages.2 ⟨by omega, hfree k hk⟩, by omega⟩
  have hcard := Finset.card_le_card hsub
  rw [Finset.card_image_of_injective _ (add_right_injective 1024), Finset.card_range] at hcard
  omega

end PlantOS.Mm
