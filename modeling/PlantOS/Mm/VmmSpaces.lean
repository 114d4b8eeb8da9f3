import PlantOS.Mm.VmmMap

/-!
# Creating and destroying address spaces

`vmm_create_address_space` builds a PML4, a page-directory pointer table and four page directories that
are copies of those of the boot code; `SpaceBuilt` describes the result. `vmm_destroy_address_space` only
releases frames, and only such as belong to the address space.
-/

namespace PlantOS.Mm

open NodeForest

section

variable {K : Kernel} {excl : Prop} {roots : ℕ → Prop} {s s₁ s' : Vm} {r : ℕ}

/-! ## The boot tables -/

theorem bootTables_pml4 (boot : ℕ) : bootTables boot boot 0 = (boot + 4096) ||| 7 := by
  simp [bootTables]

theorem bootTables_pdpt {boot i : ℕ} (hi : i < 4) :
    bootTables boot (boot + 1 * 4096) i = (boot + (2 + i) * 4096) ||| 7 := by
  have hne : boot + 1 * 4096 ≠ boot := by omega
  have haddr : boot + 8192 + i * 4096 = boot + (2 + i) * 4096 := by omega
  rw [bootTables, if_neg hne, if_pos (by omega), if_pos hi, haddr]

theorem bootTables_pd (boot i j : ℕ) :
    bootTables boot (boot + (2 + i) * 4096) j = (i * 512 + j) * 0x200000 ||| 0x87 := by
  have hne : boot + (2 + i) * 4096 ≠ boot := by omega
  have hne' : boot + (2 + i) * 4096 ≠ boot + 4096 := by omega
  have hidx : (boot + (2 + i) * 4096 - (boot + 8192)) / 4096 = i := by omega
  rw [bootTables, if_neg hne, if_neg hne', hidx]

/-- The huge pages of the boot code: present, huge, and mapped to themselves. -/
theorem bootTables_pd_eq (boot i j : ℕ) :
    bootTables boot (boot + (2 + i) * 4096) j = (i * 512 + j) * 0x200000 + 0x87 := by
  rw [bootTables_pd, or_eq_add (by omega) (by decide)]

/-! ## Creation -/

/-- The page directories below `i` are built: copies of those of the boot code, in frames allocated since
`s`, linked into `pdpt`. -/
structure PdsBuilt (K : Kernel) (s s₁ : Vm) (pdpt : ℕ) (pd : ℕ → ℕ) (i : ℕ) : Prop where
  keeps : Vm.Keeps (· = pdpt) s s₁
  fresh : ∀ j < i, s.Fresh s₁ (pd j)
  inj : ∀ j < i, ∀ j' < i, pd j = pd j' → j = j'
  mem_pdpt : s₁.mem pdpt = fun j => if j < i then pd j ||| 7 else 0
  mem_pd : ∀ j < i, s₁.mem (pd j) = bootTables K.boot (K.boot + (2 + j) * 4096)

/-- The cleanup releases the directories that have been built. -/
theorem freePds_eq {pdpt i : ℕ} {pd : ℕ → ℕ} (hb : PdsBuilt K s s₁ pdpt pd i) :
    freePds pdpt i s₁ = ((List.range i).map pd).foldl Vm.free s₁ := by
  rw [List.map_eq_flatMap]
  refine foldl_eq_free (fun t ht j hj => ?_) rfl
  have hj := List.mem_range.1 hj
  have hal := (hb.fresh j hj).aligned
  have hentry : t.mem pdpt j = pd j ||| 7 := by
    rw [ht, hb.mem_pdpt]
    exact if_pos hj
  rw [hentry, if_pos ((present_or hal (by decide)).2 (by decide)), pteAddr_or hal (by decide)]
  rfl

/-- The next page directory. -/
theorem PdsBuilt.next {pdpt i g : ℕ} {pd : ℕ → ℕ} {t : Vm} (hb : PdsBuilt K s s₁ pdpt pd i)
    (hpdpt : s.Used pdpt) (hx : s₁.Ext t) (hg : s₁.Fresh t g) :
    PdsBuilt K s ((t.setPage g (bootTables K.boot (K.boot + (2 + i) * 4096))).set pdpt i (g ||| 7))
      pdpt (Function.update pd i g) (i + 1) := by
  have hold : ∀ {j}, j < i → Function.update pd i g j = pd j :=
    fun hj => Function.update_of_ne (by omega) ..
  have hpdpt₁ : s₁.Used pdpt := hb.keeps.used _ hpdpt
  have hne : g ≠ pdpt := hg.ne hpdpt₁
  -- The frame is new, so it is none of those that the loop has used.
  have hgne : ∀ j < i, pd j ≠ g := fun j hj => (hg.ne (hb.fresh j hj).used).symm
  have hgs : ¬s.Used g := fun hu => hg.not_used (hb.keeps.used g hu)
  refine ⟨?_, ?_, ?_, ?_, ?_⟩
  · have hx' : Vm.Keeps (· = pdpt) s t := hb.keeps.trans (hx.keeps _)
    exact (hx'.setPage fun hu => (hgs hu).elim).set fun _ => rfl
  · intro j hj
    obtain hj | rfl := Nat.lt_succ_iff_lt_or_eq.1 hj
    · rw [hold hj]
      exact ⟨(hb.fresh j hj).1, hx.used _ (hb.fresh j hj).2⟩
    · rw [Function.update_self]
      exact ⟨hgs, hg.used⟩
  · intro j hj j' hj' heq
    obtain hj | rfl := Nat.lt_succ_iff_lt_or_eq.1 hj
    · obtain hj' | rfl := Nat.lt_succ_iff_lt_or_eq.1 hj'
      · rw [hold hj, hold hj'] at heq
        exact hb.inj j hj j' hj' heq
      · rw [hold hj, Function.update_self] at heq
        exact (hgne j hj heq).elim
    · obtain hj' | rfl := Nat.lt_succ_iff_lt_or_eq.1 hj'
      · rw [hold hj', Function.update_self] at heq
        exact (hgne j' hj' heq.symm).elim
      · rfl
  · rw [Vm.mem_set_self, Vm.mem_setPage_ne hne.symm, hx.mem_eq hpdpt₁, hb.mem_pdpt]
    funext j
    rw [Function.update_apply]
    split
    · rename_i hj
      rw [hj, if_pos (Nat.lt_succ_self i), Function.update_self]
    · rename_i hj
      by_cases hlt : j < i
      · rw [if_pos hlt, if_pos (by omega), hold hlt]
      · rw [if_neg hlt, if_neg (by omega)]
  · intro j hj
    obtain hj | rfl := Nat.lt_succ_iff_lt_or_eq.1 hj
    · rw [hold hj, Vm.mem_set_ne ((hb.fresh j hj).ne hpdpt), Vm.mem_setPage_ne (hgne j hj),
        hx.mem_eq (hb.fresh j hj).used]
      exact hb.mem_pd j hj
    · rw [Function.update_self, Vm.mem_set_ne hne, Vm.mem_setPage_self]

/-- The loop of `vmm_create_address_space`. -/
theorem createPds_spec (h : FrameInv K excl roots s) {pdpt : ℕ} (hpdpt : s.Used pdpt)
    (hker : ¬K.Page pdpt) (n : ℕ) :
    ∀ {i : ℕ} {pd : ℕ → ℕ} {s₁ : Vm}, i + n = 4 → PdsBuilt K s s₁ pdpt pd i →
      Vm.Takes s s₁ ((List.range i).map pd) →
      Vm.Keeps (· = pdpt) s (createPds (K.boot + 1 * 4096) pdpt n i s₁).2 ∧
      ((createPds (K.boot + 1 * 4096) pdpt n i s₁).1 = true →
        ∃ pd, PdsBuilt K s (createPds (K.boot + 1 * 4096) pdpt n i s₁).2 pdpt pd 4 ∧
          Vm.Takes s (createPds (K.boot + 1 * 4096) pdpt n i s₁).2 ((List.range 4).map pd)) ∧
      ((createPds (K.boot + 1 * 4096) pdpt n i s₁).1 = false →
        s.SameFrames (createPds (K.boot + 1 * 4096) pdpt n i s₁).2 ∧ s.freeFrames.length < 4) := by
  induction n with
  | zero =>
    intro i pd s₁ hi hb ht
    rw [Nat.add_zero] at hi
    subst hi
    exact ⟨hb.keeps, fun _ => ⟨pd, hb, ht⟩, fun hf => (Bool.false_ne_true hf.symm).elim⟩
  | succ n ih =>
    intro i pd s₁ hi hb ht
    have hboot : ∀ k < 6, s₁.mem (K.boot + k * 4096) = bootTables K.boot (K.boot + k * 4096) := by
      intro k hk
      have hne : K.boot + k * 4096 ≠ pdpt := fun heq => hker (heq ▸ K.page_boot k hk)
      rw [hb.keeps.mem _ (h.kernel _ (K.page_boot k hk)) hne, h.boot k hk]
    have hal : (K.boot + (2 + i) * 4096) % 4096 = 0 := by
      have := K.boot_aligned
      omega
    have hentry : s₁.mem (K.boot + 1 * 4096) i = (K.boot + (2 + i) * 4096) ||| 7 := by
      rw [hboot 1 (by decide), bootTables_pdpt (by omega)]
    have hp : Present (s₁.mem (K.boot + 1 * 4096) i) := by
      rw [hentry, present_or hal (by decide)]
    rw [createPds]
    dsimp only
    rw [if_pos hp, hentry, pteAddr_or hal (by decide), pteFlags_or hal (by decide)]
    have h0 := hb.keeps.used 0 h.used_zero
    obtain ⟨hfree, heq⟩ | ⟨hne, htakes⟩ := Vm.alloc_takes h0
    · -- no frame for directory `i`: those before it are given back
      rw [if_pos (by rw [heq]), heq, freePds_eq hb]
      have hundo := ht.undo ⟨rfl, fun _ => Iff.rfl⟩ fun _ => Iff.rfl
      refine ⟨⟨fun a ha => (hundo.used a).2 ha, fun a ha hP => ?_⟩,
        fun hf => (Bool.false_ne_true hf).elim, fun _ => ⟨hundo, ?_⟩⟩
      · rw [mem_foldl_free]
        exact hb.keeps.mem a ha hP
      · rw [ht.free, hfree, List.append_nil, List.length_map, List.length_range]
        omega
    · rw [if_neg hne, Vm.mem_alloc, hboot (2 + i) (by omega)]
      have hext : s₁.Ext s₁.alloc.2 := (Vm.Keeps.refl _ s₁).alloc h0
      refine ih (by omega) (hb.next hpdpt hext (htakes.fresh (List.mem_singleton.2 rfl))) ?_
      -- The directory is the last in the list of what has been taken.
      have hmap : (List.range (i + 1)).map (Function.update pd i s₁.alloc.1) =
          (List.range i).map pd ++ [s₁.alloc.1] := by
        rw [List.range_succ, List.map_append, List.map_singleton, Function.update_self]
        congr 1
        refine List.map_congr_left fun j hj => Function.update_of_ne ?_ ..
        exact (List.mem_range.1 hj).ne
      rw [hmap]
      exact (ht.trans htakes).of_pmm_eq rfl

/-- A new address space: the PML4 `r`, the table `pdpt` and the directories `pd` are in frames allocated
since `s`, and they are copies of those of the boot code. -/
structure SpaceBuilt (K : Kernel) (s s' : Vm) (r pdpt : ℕ) (pd : ℕ → ℕ) : Prop where
  ext : s.Ext s'
  fresh_root : s.Fresh s' r
  fresh_pdpt : s.Fresh s' pdpt
  fresh_pd : ∀ i < 4, s.Fresh s' (pd i)
  ne_pdpt : r ≠ pdpt
  pd_ne_root : ∀ i < 4, pd i ≠ r
  pd_ne_pdpt : ∀ i < 4, pd i ≠ pdpt
  inj : ∀ i < 4, ∀ i' < 4, pd i = pd i' → i = i'
  mem_root : s'.mem r = fun i => if i = 0 then pdpt ||| 7 else 0
  mem_pdpt : s'.mem pdpt = fun i => if i < 4 then pd i ||| 7 else 0
  mem_pd : ∀ i < 4, s'.mem (pd i) = bootTables K.boot (K.boot + (2 + i) * 4096)

/-- `vmm_create_address_space` fails without an effect on the frames in use if fewer than six are free, and
builds an address space out of the first six otherwise. -/
theorem vmmCreateAddressSpace_cases (h : FrameInv K excl roots s) :
    s.Ext (vmmCreateAddressSpace K.boot s).2 ∧
      (((vmmCreateAddressSpace K.boot s).1 = 0 ∧ s.SameFrames (vmmCreateAddressSpace K.boot s).2 ∧
          s.freeFrames.length < 6) ∨
        ∃ pdpt pd, SpaceBuilt K s (vmmCreateAddressSpace K.boot s).2
            (vmmCreateAddressSpace K.boot s).1 pdpt pd ∧
          Vm.Takes s (vmmCreateAddressSpace K.boot s).2
            ((vmmCreateAddressSpace K.boot s).1 :: pdpt :: (List.range 4).map pd)) := by
  rw [vmmCreateAddressSpace]
  dsimp only
  obtain ⟨hnone, heq⟩ | ⟨hne, htakes⟩ := Vm.alloc_takes h.used_zero
  · -- no frame for the PML4
    rw [if_pos (by rw [heq]), heq]
    exact ⟨Vm.Keeps.refl _ s, .inl ⟨rfl, ⟨rfl, fun _ => Iff.rfl⟩, by simp [hnone]⟩⟩
  rw [if_neg hne]
  have hr : s.Fresh s.alloc.2 s.alloc.1 := htakes.fresh (List.mem_singleton.2 rfl)
  have hext : s.Ext s.alloc.2 := (Vm.Keeps.refl _ s).alloc h.used_zero
  have htakes₂ : Vm.Takes s (s.alloc.2.setPage s.alloc.1 fun _ => 0) [s.alloc.1] := htakes.of_pmm_eq rfl
  have hx₂ : s.Ext (s.alloc.2.setPage s.alloc.1 fun _ => 0) :=
    hext.setPage fun hu => (hr.not_used hu).elim
  have hused₂ : (s.alloc.2.setPage s.alloc.1 fun _ => 0).Used s.alloc.1 := hr.used
  have hmem₂ : (s.alloc.2.setPage s.alloc.1 fun _ => 0).mem s.alloc.1 = fun _ => 0 :=
    Vm.mem_setPage_self
  generalize s.alloc.2.setPage s.alloc.1 (fun _ => 0) = s₂ at hx₂ hused₂ hmem₂ htakes₂ ⊢
  generalize s.alloc.1 = pml4 at hne hr hused₂ hmem₂ htakes₂ ⊢
  have hal : (K.boot + 4096) % 4096 = 0 := by
    have := K.boot_aligned
    omega
  -- The boot tables are as the boot code left them, so the check of the first entry passes.
  have hentry : s₂.mem K.boot 0 = (K.boot + 4096) ||| 7 := by
    have hpage := K.page_boot 0 (by decide)
    have hboot := h.boot 0 (by decide)
    rw [Nat.zero_mul, Nat.add_zero] at hpage hboot
    rw [hx₂.mem_eq (h.kernel _ hpage), hboot, bootTables_pml4]
  have hp : Present (s₂.mem K.boot 0) := by rw [hentry, present_or hal (by decide)]
  rw [if_neg (not_not.2 hp), hentry, pteAddr_or hal (by decide), pteFlags_or hal (by decide)]
  have hfree : ∀ {t : Vm}, s.Ext t → s.Ext (t.free pml4) :=
    fun ht => ht.free hr.not_used hr.aligned
  have h0 := hx₂.used 0 h.used_zero
  obtain ⟨hnone, heq⟩ | ⟨hne', htakes'⟩ := Vm.alloc_takes h0
  · -- no frame for the PDPT, and the PML4 is given back
    rw [if_pos (by rw [heq]), heq]
    refine ⟨hfree hx₂, .inl ⟨rfl, htakes₂.undo ⟨rfl, fun _ => Iff.rfl⟩ fun _ => Iff.rfl, ?_⟩⟩
    rw [htakes₂.free, hnone]
    simp
  rw [if_neg hne']
  have hpdpt : s₂.Fresh s₂.alloc.2 s₂.alloc.1 := htakes'.fresh (List.mem_singleton.2 rfl)
  have hext' : s₂.Ext s₂.alloc.2 := (Vm.Keeps.refl _ s₂).alloc h0
  have htakes₃ : Vm.Takes s (s₂.alloc.2.setPage s₂.alloc.1 fun _ => 0) [pml4, s₂.alloc.1] :=
    (htakes₂.trans htakes').of_pmm_eq rfl
  have hx₃ : s₂.Ext (s₂.alloc.2.setPage s₂.alloc.1 fun _ => 0) :=
    hext'.setPage fun hu => (hpdpt.not_used hu).elim
  have hused₃ : (s₂.alloc.2.setPage s₂.alloc.1 fun _ => 0).Used s₂.alloc.1 := hpdpt.used
  have hmem₃ : (s₂.alloc.2.setPage s₂.alloc.1 fun _ => 0).mem s₂.alloc.1 = fun _ => 0 :=
    Vm.mem_setPage_self
  generalize s₂.alloc.2.setPage s₂.alloc.1 (fun _ => 0) = s₃ at hx₃ hused₃ hmem₃ htakes₃ ⊢
  have hpdpt' : s₂.Fresh s₃ s₂.alloc.1 := ⟨hpdpt.not_used, hused₃⟩
  generalize s₂.alloc.1 = pdpt at hne' hused₃ hmem₃ hpdpt' htakes₃ ⊢
  have hns : ¬s.Used pdpt := fun hu => hpdpt'.not_used (hx₂.used _ hu)
  have hxs₃ : s.Ext s₃ := hx₂.trans hx₃
  have hker : ¬K.Page pdpt := fun hk => hns (h.kernel _ hk)
  have hstart : PdsBuilt K s₃ s₃ pdpt (fun _ => 0) 0 := by
    refine ⟨Vm.Keeps.refl _ _, ?_, ?_, hmem₃, ?_⟩
    · exact fun j hj => (Nat.not_lt_zero j hj).elim
    · exact fun j hj => (Nat.not_lt_zero j hj).elim
    · exact fun j hj => (Nat.not_lt_zero j hj).elim
  have hpds := createPds_spec (h.ext hxs₃) hused₃ hker 4 (Nat.zero_add 4) hstart (.refl s₃)
  rw [Nat.one_mul] at hpds
  generalize createPds (K.boot + 4096) pdpt 4 0 s₃ = R at hpds ⊢
  obtain ⟨hkeep, hbuilt, hfail⟩ := hpds
  have hxR : s.Ext R.2 := by
    refine ((hxs₃.keeps _).trans hkeep).ext ?_
    rintro a rfl
    exact hns
  by_cases hR : R.1 = true
  swap
  · -- the loop has given its frames back, and the two tables follow
    rw [if_pos hR]
    obtain ⟨hsame, hlen⟩ := hfail (by simpa using hR)
    refine ⟨hfree (hxR.free hns hused₃.1), .inl ⟨rfl, ?_, ?_⟩⟩
    · exact @Vm.Takes.undo _ _ _ _ [pdpt, pml4] htakes₃ hsame fun a => by simp [or_comm]
    · rw [htakes₃.free, List.length_append]
      exact Nat.add_lt_add_left hlen 2
  rw [if_neg (not_not.2 hR)]
  obtain ⟨pd, hb, htakesR⟩ := hbuilt hR
  have hpml4₃ : s₃.Used pml4 := hx₃.used _ hused₂
  have hne₁ : pml4 ≠ pdpt := (hpdpt'.ne hused₂).symm
  have hne₂ : ∀ i < 4, pd i ≠ pml4 := fun i hi => (hb.fresh i hi).ne hpml4₃
  refine ⟨hxR.set fun hu => (hr.not_used hu).elim, .inr ⟨pdpt, pd, ?_,
    (htakes₃.trans htakesR).of_pmm_eq rfl⟩⟩
  refine ⟨hxR.set fun hu => (hr.not_used hu).elim, ⟨hr.not_used, hkeep.used _ hpml4₃⟩,
    ⟨hns, hkeep.used _ hused₃⟩, ?_, hne₁, hne₂, fun i hi => (hb.fresh i hi).ne hused₃, hb.inj,
    ?_, ?_, ?_⟩
  · intro i hi
    exact ⟨fun hu => (hb.fresh i hi).not_used (hxs₃.used _ hu), (hb.fresh i hi).used⟩
  · rw [Vm.mem_set_self, hkeep.mem _ hpml4₃ hne₁, hx₃.mem_eq hused₂, hmem₂]
    funext i
    rw [Function.update_apply]
  · rw [Vm.mem_set_ne hne₁.symm, hb.mem_pdpt]
  · intro i hi
    rw [Vm.mem_set_ne (hne₂ i hi), hb.mem_pd i hi]

/-- `vmm_create_address_space` fails, or builds an address space; it changes no frame in use. -/
theorem vmmCreateAddressSpace_spec (h : FrameInv K excl roots s) :
    s.Ext (vmmCreateAddressSpace K.boot s).2 ∧
      ((vmmCreateAddressSpace K.boot s).1 = 0 ∨
        ∃ pdpt pd, SpaceBuilt K s (vmmCreateAddressSpace K.boot s).2
          (vmmCreateAddressSpace K.boot s).1 pdpt pd) := by
  obtain ⟨hext, ⟨hz, -⟩ | ⟨pdpt, pd, hb, -⟩⟩ := vmmCreateAddressSpace_cases h
  · exact ⟨hext, .inl hz⟩
  · exact ⟨hext, .inr ⟨pdpt, pd, hb⟩⟩

namespace SpaceBuilt

variable {pdpt : ℕ} {pd : ℕ → ℕ}

theorem mem_root_zero (hb : SpaceBuilt K s s' r pdpt pd) : s'.mem r 0 = pdpt ||| 7 := by
  rw [hb.mem_root]
  exact if_pos rfl

theorem mem_root_ne (hb : SpaceBuilt K s s' r pdpt pd) {i : ℕ} (hi : i ≠ 0) : s'.mem r i = 0 := by
  rw [hb.mem_root]
  exact if_neg hi

theorem mem_pdpt_lt (hb : SpaceBuilt K s s' r pdpt pd) {i : ℕ} (hi : i < 4) :
    s'.mem pdpt i = pd i ||| 7 := by
  rw [hb.mem_pdpt]
  exact if_pos hi

theorem mem_pdpt_ge (hb : SpaceBuilt K s s' r pdpt pd) {i : ℕ} (hi : ¬i < 4) : s'.mem pdpt i = 0 := by
  rw [hb.mem_pdpt]
  exact if_neg hi

/-- An entry that links a table of a new address space. -/
theorem link_entry {a : ℕ} (ha : s.Fresh s' a) :
    Present (a ||| 7) ∧ ¬Huge (a ||| 7) ∧ pteAddr (a ||| 7) = a := by
  rw [present_or ha.aligned (by decide), huge_or ha.aligned (by decide),
    pteAddr_or ha.aligned (by decide)]
  exact ⟨by decide, by decide, rfl⟩

theorem tableAt_pdpt (hb : SpaceBuilt K s s' r pdpt pd) : tableAt s'.mem r [0] = some pdpt := by
  obtain ⟨hp, hh, haddr⟩ := link_entry hb.fresh_pdpt
  rw [← hb.mem_root_zero] at hp hh haddr
  rw [tableAt_next (q := []) rfl (by decide) (by decide) hp hh, haddr]

theorem tableAt_pd (hb : SpaceBuilt K s s' r pdpt pd) {i : ℕ} (hi : i < 4) :
    tableAt s'.mem r [i, 0] = some (pd i) := by
  obtain ⟨hp, hh, haddr⟩ := link_entry (hb.fresh_pd i hi)
  rw [← hb.mem_pdpt_lt hi] at hp hh haddr
  rw [tableAt_next hb.tableAt_pdpt (by omega) (by decide) hp hh, haddr]

theorem mem_pd_huge (hb : SpaceBuilt K s s' r pdpt pd) {i : ℕ} (hi : i < 4) (j : ℕ) :
    s'.mem (pd i) j = (i * 512 + j) * 0x200000 + 0x87 := by
  rw [hb.mem_pd i hi, bootTables_pd_eq]

/-- The tables of a new address space. -/
theorem tableAt_cases (hb : SpaceBuilt K s s' r pdpt pd) {p : List ℕ} :
    ∀ {a : ℕ}, tableAt s'.mem r p = some a →
      (p = [] ∧ a = r) ∨ (p = [0] ∧ a = pdpt) ∨ ∃ i < 4, p = [i, 0] ∧ a = pd i := by
  induction p with
  | nil =>
    intro a ha
    exact .inl ⟨rfl, (Option.some.inj ha).symm⟩
  | cons i q ih =>
    intro a ha
    obtain ⟨b, hb', hc⟩ := walk_cons_eq_some.1 ha
    obtain ⟨⟨-, -, hp, hh⟩, haddr⟩ := tableChild_eq_some.1 hc
    obtain ⟨rfl, rfl⟩ | ⟨rfl, rfl⟩ | ⟨j, hj, rfl, rfl⟩ := ih hb'
    · by_cases hi : i = 0
      · subst hi
        rw [hb.mem_root_zero, (link_entry hb.fresh_pdpt).2.2] at haddr
        exact .inr (.inl ⟨rfl, haddr.symm⟩)
      · rw [hb.mem_root_ne hi] at hp
        exact absurd hp (by decide)
    · by_cases hi : i < 4
      · rw [hb.mem_pdpt_lt hi, (link_entry (hb.fresh_pd i hi)).2.2] at haddr
        exact .inr (.inr ⟨i, hi, rfl, haddr.symm⟩)
      · rw [hb.mem_pdpt_ge hi] at hp
        exact absurd hp (by decide)
    · -- the directories have huge pages only
      rw [hb.mem_pd_huge hj] at hh
      exact (hh (by rw [Huge]; omega)).elim

theorem leafAt_eq_none (hb : SpaceBuilt K s s' r pdpt pd) (p : List ℕ) : leafAt s'.mem r p = none := by
  rw [Option.eq_none_iff_forall_ne_some]
  intro e he
  obtain ⟨k, q, pt, rfl, hq, -, hpt, -⟩ := leafAt_eq_some.1 he
  obtain ⟨rfl, -⟩ | ⟨rfl, -⟩ | ⟨i, -, rfl, -⟩ := hb.tableAt_cases hpt <;> exact absurd hq (by simp)

/-- The tables of a new address space are in frames allocated since `s`. -/
theorem fresh_table (hb : SpaceBuilt K s s' r pdpt pd) {p : List ℕ} {a : ℕ}
    (ha : tableAt s'.mem r p = some a) : s.Fresh s' a := by
  obtain ⟨-, rfl⟩ | ⟨-, rfl⟩ | ⟨i, hi, -, rfl⟩ := hb.tableAt_cases ha
  · exact hb.fresh_root
  · exact hb.fresh_pdpt
  · exact hb.fresh_pd i hi

theorem tableAt_inj (hb : SpaceBuilt K s s' r pdpt pd) {p p' : List ℕ} {a : ℕ}
    (ha : tableAt s'.mem r p = some a) (ha' : tableAt s'.mem r p' = some a) : p = p' := by
  obtain ⟨rfl, rfl⟩ | ⟨rfl, rfl⟩ | ⟨i, hi, rfl, rfl⟩ := hb.tableAt_cases ha
  · obtain ⟨rfl, -⟩ | ⟨-, heq⟩ | ⟨i', hi', -, heq⟩ := hb.tableAt_cases ha'
    · rfl
    · exact (hb.ne_pdpt heq).elim
    · exact (hb.pd_ne_root i' hi' heq.symm).elim
  · obtain ⟨-, heq⟩ | ⟨rfl, -⟩ | ⟨i', hi', -, heq⟩ := hb.tableAt_cases ha'
    · exact (hb.ne_pdpt heq.symm).elim
    · rfl
    · exact (hb.pd_ne_pdpt i' hi' heq.symm).elim
  · obtain ⟨-, heq⟩ | ⟨-, heq⟩ | ⟨i', hi', rfl, heq⟩ := hb.tableAt_cases ha'
    · exact (hb.pd_ne_root i hi heq).elim
    · exact (hb.pd_ne_pdpt i hi heq).elim
    · rw [hb.inj i hi i' hi' heq]

/-- The invariant with the new address space among the live ones. -/
theorem frameInv (hb : SpaceBuilt K s s' r pdpt pd) (h : FrameInv K excl roots s) :
    FrameInv K excl (fun x => roots x ∨ x = r) s' := by
  have h' := h.ext hb.ext
  have hmem : ∀ a, IsTable s.mem roots a → s'.mem a = s.mem a :=
    fun a ha => hb.ext.mem_eq (h.table a ha).1
  have hnew : ∀ p a, tableAt s'.mem r p = some a → ¬IsTable s'.mem roots a := by
    intro p a ha
    rw [isTable_congr h.forest hmem]
    exact h.not_isTable_of_fresh (hb.fresh_table ha)
  have htab : ∀ {a}, IsTable s'.mem (fun x => roots x ∨ x = r) a →
      IsTable s'.mem roots a ∨ s.Fresh s' a := by
    rintro a ⟨r', p, hr' | rfl, hp⟩
    · exact .inl ⟨r', p, hr', hp⟩
    · exact .inr (hb.fresh_table hp)
  -- all user entries are those of the other address spaces
  have huser : ∀ {r' p e}, roots r' ∨ r' = r → UserEntry s'.mem r' p e → roots r' := by
    rintro r' p e (hr' | rfl) he
    · exact hr'
    · rw [UserEntry, hb.leafAt_eq_none] at he
      exact (Option.some_ne_none e he.1.symm).elim
  refine ⟨h'.forest.add hnew fun p p' a => hb.tableAt_inj, ?_, ?_, ?_, ?_, h'.kernel, h'.boot⟩
  · intro a ha
    obtain ha | ha := htab ha
    · exact h'.table a ha
    · exact ⟨ha.used, h.not_kernel_of_fresh ha⟩
  · intro r' p e hr' he
    obtain ⟨hu, hk, ht⟩ := h'.user r' p e (huser hr' he) he
    refine ⟨hu, hk, fun hta => ?_⟩
    obtain hta | hta := htab hta
    · exact ht hta
    · have he' := (userEntry_congr h.forest hmem (huser hr' he)).1 he
      exact hta.not_used (h.user r' p e (huser hr' he) he').1
  · intro hx r₁ r₂ p₁ p₂ e₁ e₂ hr₁ hr₂ he₁ he₂
    exact h'.unique hx r₁ r₂ p₁ p₂ e₁ e₂ (huser hr₁ he₁) (huser hr₂ he₂) he₁ he₂
  · rintro r' q a i (hr' | rfl) ha hi hq hp hh
    · exact h'.huge r' q a i hr' ha hi hq hp hh
    · obtain ⟨rfl, rfl⟩ | ⟨rfl, rfl⟩ | ⟨j, hj, rfl, rfl⟩ := hb.tableAt_cases ha
      · by_cases hi0 : i = 0
        · subst hi0
          rw [hb.mem_root_zero] at hh
          exact ((link_entry hb.fresh_pdpt).2.1 hh).elim
        · rw [hb.mem_root_ne hi0] at hp
          exact absurd hp (by decide)
      · by_cases hi4 : i < 4
        · rw [hb.mem_pdpt_lt hi4] at hh
          exact ((link_entry (hb.fresh_pd i hi4)).2.1 hh).elim
        · rw [hb.mem_pdpt_ge hi4] at hp
          exact absurd hp (by decide)
      · rw [hb.mem_pd_huge hj]
        refine ⟨rfl, ?_⟩
        simp only [vpn]
        omega

end SpaceBuilt

/-! ## Destruction -/

/-- Between `s` and `s'` only frames in `P` have been released, and nothing has been written. -/
structure Releases (P : ℕ → Prop) (s s' : Vm) : Prop where
  mem : s'.mem = s.mem
  used : ∀ a, s.Used a → ¬P a → s'.Used a

theorem Releases.refl (P : ℕ → Prop) (s : Vm) : Releases P s s := ⟨rfl, fun _ h _ => h⟩

theorem Releases.trans {P : ℕ → Prop} {s'' : Vm} (h : Releases P s s') (h' : Releases P s' s'') :
    Releases P s s'' where
  mem := h'.mem.trans h.mem
  used a ha hP := h'.used a (h.used a ha hP) hP

theorem Releases.free {P : ℕ → Prop} {a : ℕ} (h : Releases P s s') (hal : a % 4096 = 0) (ha : P a) :
    Releases P s (s'.free a) where
  mem := h.mem
  used b hb hP := by
    refine (h.used b hb hP).free ?_
    rw [Nat.div_mul_cancel (Nat.dvd_of_mod_eq_zero hal)]
    rintro rfl
    exact hP ha

/-- A loop whose steps only release frames in `P`. -/
theorem Releases.foldl {P : ℕ → Prop} {f : Vm → ℕ → Vm} {l : List ℕ}
    (hf : ∀ t, t.mem = s.mem → ∀ i ∈ l, Releases P t (f t i)) :
    ∀ {t : Vm}, t.mem = s.mem → Releases P t (l.foldl f t) := by
  induction l with
  | nil => exact fun _ => Releases.refl P _
  | cons i l ih =>
    intro t ht
    have hstep := hf t ht i List.mem_cons_self
    exact hstep.trans (ih (fun t' ht' j hj => hf t' ht' j (List.mem_cons_of_mem i hj))
      (hstep.mem.trans ht))

/-- The frame is a table or a user page of the address space `r`. -/
def Owns (mem : ℕ → ℕ → ℕ) (r a : ℕ) : Prop := IsTable mem (· = r) a ∨ IsUserFrame mem (· = r) a

theorem owns_of_tableAt {mem : ℕ → ℕ → ℕ} {q : List ℕ} {a : ℕ} (h : tableAt mem r q = some a) :
    Owns mem r a :=
  .inl ⟨r, q, rfl, h⟩

theorem destroyPt_spec {q : List ℕ} {pt base : ℕ} {t : Vm} (hpt : tableAt s.mem r q = some pt)
    (hq : q.length = 3) (hbase : base = vpn q * 2 ^ 21) (ht : t.mem = s.mem) :
    Releases (Owns s.mem r) t (destroyPt pt base t) := by
  refine Releases.foldl (fun t' ht' k hk => ?_) ht
  dsimp only
  rw [ht']
  have hk' : k < 512 := List.mem_range.1 hk
  split
  · rename_i hc
    refine (Releases.refl _ t').free (pteAddr_aligned _) (.inr ⟨r, k :: q, _, rfl, ⟨?_, hc.1, ?_⟩, rfl⟩)
    · rw [leafAt_eq_some]
      exact ⟨k, q, pt, rfl, hq, hk', hpt, rfl⟩
    · have hvpn : vpn (k :: q) * 4096 = base + k * 2 ^ 12 := by
        rw [hbase, vpn]
        omega
      rw [hvpn]
      exact hc.2
  · exact Releases.refl _ t'

theorem destroyPd_spec {q : List ℕ} {pd base : ℕ} {t : Vm} (hpd : tableAt s.mem r q = some pd)
    (hq : q.length = 2) (hbase : base = vpn q * 2 ^ 30) (ht : t.mem = s.mem) :
    Releases (Owns s.mem r) t (destroyPd pd base t) := by
  refine Releases.foldl (fun t' ht' j hj => ?_) ht
  dsimp only
  rw [ht']
  split
  · rename_i hc
    have hpt := tableAt_next hpd (List.mem_range.1 hj) (by omega) hc.1 hc.2
    have hvpn : base + j * 2 ^ 21 = vpn (j :: q) * 2 ^ 21 := by
      rw [hbase, vpn]
      omega
    exact (destroyPt_spec hpt (by simp [hq]) hvpn ht').free (pteAddr_aligned _) (owns_of_tableAt hpt)
  · exact Releases.refl _ t'

theorem destroyPdpt_spec {pdpt : ℕ} {t : Vm} (h : FrameInv K excl roots s) (hr : roots r)
    (hpdpt : tableAt s.mem r [0] = some pdpt) (ht : t.mem = s.mem) :
    Releases (Owns s.mem r) t (destroyPdpt pdpt t) := by
  refine Releases.foldl (fun t' ht' i hi => ?_) ht
  dsimp only
  rw [ht']
  split
  · rename_i hp
    have hi' : i < 512 := Nat.lt_trans (List.mem_range.1 hi) (by decide)
    have hpd := tableAt_next hpdpt hi' (by decide) hp (h.not_huge hr hpdpt hi' (by decide) hp)
    have hvpn : i * 2 ^ 30 = vpn [i, 0] * 2 ^ 30 := by simp [vpn]
    exact (destroyPd_spec hpd rfl hvpn ht').free (pteAddr_aligned _) (owns_of_tableAt hpd)
  · exact Releases.refl _ t'

/-- `vmm_destroy_address_space` releases frames of the address space only. -/
theorem vmmDestroyAddressSpace_releases (h : FrameInv K excl roots s) (hr : roots r) :
    Releases (Owns s.mem r) s (vmmDestroyAddressSpace K.boot s r) := by
  have hal : r % 4096 = 0 := (h.table r (isTable_of_tableAt (q := []) hr rfl)).1.1
  have hroot : Owns s.mem r r := owns_of_tableAt (q := []) rfl
  have hlive : ¬(r = 0 ∨ r = K.boot) := by
    rintro (h0 | hb)
    · exact h.root_ne_zero hr h0
    · exact h.root_ne_boot hr hb
  rw [vmmDestroyAddressSpace, if_neg hlive]
  dsimp only
  by_cases hp : Present (s.mem r 0)
  · rw [if_neg (not_not.2 hp)]
    have hpdpt := tableAt_next (q := []) (r := r) rfl (by decide) (by decide) hp
      (h.not_huge (q := []) hr rfl (by decide) (by decide) hp)
    exact ((destroyPdpt_spec h hr hpdpt rfl).free (pteAddr_aligned _) (owns_of_tableAt hpdpt)).free
      hal hroot
  · rw [if_pos hp]
    exact (Releases.refl _ s).free hal hroot

/-- The invariant for the remaining address spaces after one has been destroyed. -/
theorem vmmDestroyAddressSpace_spec (h : FrameInv K True roots s) (hr : roots r) :
    FrameInv K True (fun x => roots x ∧ x ≠ r) (vmmDestroyAddressSpace K.boot s r) := by
  have hrel := vmmDestroyAddressSpace_releases h hr
  refine (h.mono fun x hx => hx.1).congr (fun a _ => by rw [hrel.mem]) (fun a _ => by rw [hrel.mem]) ?_
  intro a ha hown
  refine hrel.used a ha ?_
  -- no frame of another address space, or of the kernel, belongs to `r`
  rintro (⟨_, p, rfl, hp⟩ | ⟨_, p, e, rfl, he, rfl⟩)
  · obtain hown | ⟨r', p', hr', hp'⟩ | ⟨r', p', e', hr', he', rfl⟩ := hown
    · exact (h.table a ⟨_, p, hr, hp⟩).2 hown
    · exact hr'.2 (h.forest hr'.1 hr hp' hp).1
    · exact (h.user r' p' e' hr'.1 he').2.2 ⟨_, p, hr, hp⟩
  · obtain hown | ⟨r', p', hr', hp'⟩ | ⟨r', p', e', hr', he', heq⟩ := hown
    · exact (h.user _ p e hr he).2.1 hown
    · exact (h.user _ p e hr he).2.2 ⟨r', p', hr'.1, hp'⟩
    · exact hr'.2 (h.unique trivial r' _ p' p e' e hr'.1 hr he' he heq).1

end

end PlantOS.Mm
