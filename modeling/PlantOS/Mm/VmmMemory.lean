import PlantOS.Mm.VmmSpaces
import Mathlib.Order.Interval.Finset.Nat

/-!
# Enough memory

The functions of `vmm.c` fail only if `pmm_alloc_page` does. The lemmas say which frames it takes next, and
bound the number of frames that a call can take.
-/

namespace PlantOS.Mm

/-- The numbers of the free pages. -/
def Vm.freePages (s : Vm) : Finset ℕ := {i ∈ Finset.range s.pmm.totalPages | s.pmm.bitmap i = false}

section

variable {s : Vm} {n m : ℕ}

theorem Vm.mem_freePages {i : ℕ} :
    i ∈ s.freePages ↔ i < s.pmm.totalPages ∧ s.pmm.bitmap i = false := by
  rw [freePages, Finset.mem_filter, Finset.mem_range]

/-- `pmm_alloc_page` returns the lowest free frame. -/
theorem Vm.alloc_lowest (h0 : s.Used 0) :
    (s.freePages = ∅ ∧ s.alloc = (0, s)) ∨
      ∃ i ∈ s.freePages, (∀ j ∈ s.freePages, i ≤ j) ∧ s.alloc.1 = i * 4096 ∧ s.alloc.1 ≠ 0 ∧
        s.alloc.2.freePages = s.freePages.erase i := by
  cases hfind : firstFree s.pmm.bitmap s.pmm.totalPages 0 with
  | none =>
    refine .inl ⟨?_, by simp only [Vm.alloc, pmmAllocPage, hfind]⟩
    rw [Finset.eq_empty_iff_forall_notMem]
    intro i hi
    obtain ⟨hlt, hfree⟩ := Vm.mem_freePages.1 hi
    rw [bitmap_of_firstFree_eq_none hfind (Nat.zero_le i) (by omega)] at hfree
    cases hfree
  | some i =>
    have halloc : s.alloc = (i * 4096, { s with pmm := s.pmm.take i }) := by
      simp only [Vm.alloc, pmmAllocPage, hfind]
    obtain ⟨hfree, hlt, hbefore⟩ := firstFree_spec hfind
    rw [Nat.zero_add] at hlt
    refine .inr ⟨i, Vm.mem_freePages.2 ⟨hlt, hfree⟩, fun j hj => ?_, by rw [halloc], ?_, ?_⟩
    · by_contra hji
      have hused := hbefore j (Nat.zero_le j) (not_le.1 hji)
      rw [(Vm.mem_freePages.1 hj).2] at hused
      cases hused
    · rw [halloc]
      intro hz
      have hi : i = 0 := by simpa using hz
      rw [hi] at hfree
      have hzero := h0.2
      rw [Nat.zero_div, hfree] at hzero
      cases hzero
    · ext j
      rw [halloc, Finset.mem_erase, Vm.mem_freePages, Vm.mem_freePages]
      simp only [Pmm.take, Function.update_apply]
      by_cases hji : j = i
      · simp [hji]
      · simp [hji]

theorem Vm.Gains.mem_freePages {u : Vm} {F : Finset ℕ} (h : s.Gains u F) {i : ℕ} :
    i ∈ u.freePages ↔ i ∈ s.freePages ∧ i * 4096 ∉ F := by
  have hbit : ∀ v : Vm, v.pmm.bitmap i = false ↔ ¬v.Used (i * 4096) := by simp [Vm.Used]
  rw [Vm.mem_freePages, Vm.mem_freePages, hbit, hbit, h.used, h.total, not_or, and_assoc]

theorem Vm.Gains.freePages_none {u : Vm} (h : s.Gains u ∅) : u.freePages = s.freePages := by
  ext i
  simp [h.mem_freePages]

/-! ## The next frames -/

/-- The pages that `pmm_alloc_page` will return next, if nothing is released. -/
def Pmm.Next : Pmm → List ℕ → Prop
  | _, [] => True
  | p, i :: l => firstFree p.bitmap p.totalPages 0 = some i ∧ (p.take i).Next l

instance Pmm.Next.decidable : ∀ (p : Pmm) (l : List ℕ), Decidable (p.Next l)
  | _, [] => .isTrue trivial
  | p, i :: l =>
    have := Pmm.Next.decidable (p.take i) l
    inferInstanceAs (Decidable (firstFree p.bitmap p.totalPages 0 = some i ∧ (p.take i).Next l))

theorem Vm.alloc_of_next {i : ℕ} {l : List ℕ} (h : s.pmm.Next (i :: l)) :
    s.alloc = (i * 4096, { s with pmm := s.pmm.take i }) := by
  simp only [Vm.alloc, pmmAllocPage, h.1]

theorem Vm.alloc_next {i : ℕ} {l : List ℕ} (h0 : s.Used 0) (h : s.pmm.Next (i :: l)) :
    s.alloc.1 ≠ 0 ∧ s.Fresh s.alloc.2 s.alloc.1 ∧ s.Ext s.alloc.2 ∧ s.alloc.2.pmm.Next l := by
  obtain heq | ⟨hz, hfresh, hext⟩ := Vm.alloc_cases h0
  · exfalso
    rw [Vm.alloc_of_next h, Prod.mk.injEq] at heq
    have htake := congrArg (fun t : Vm => t.pmm.bitmap i) heq.2
    simp only [Pmm.take, Function.update_self, (firstFree_spec h.1).1] at htake
    exact absurd htake (by decide)
  · refine ⟨hz, hfresh, hext, ?_⟩
    rw [Vm.alloc_of_next h]
    exact h.2

/-- `vmm_create_address_space` takes a frame for each directory of the boot code. -/
theorem createPds_next {bootPdpt pdpt : ℕ} (hne : bootPdpt ≠ pdpt) {l : List ℕ} (l₁ : List ℕ) :
    ∀ {i : ℕ} {s : Vm}, i + l₁.length = 4 → s.Used 0 → s.Used bootPdpt →
      (∀ j < 4, Present (s.mem bootPdpt j)) → s.pmm.Next (l₁ ++ l) →
      (createPds bootPdpt pdpt l₁.length i s).1 = true ∧
        (createPds bootPdpt pdpt l₁.length i s).2.pmm.Next l := by
  induction l₁ with
  | nil => exact fun _ _ _ _ h => ⟨rfl, h⟩
  | cons g l₁ ih =>
    intro i s hi h0 hused hp hnext
    rw [List.length_cons] at hi ⊢
    rw [createPds]
    dsimp only
    rw [if_pos (hp i (by omega))]
    obtain ⟨hz, hfresh, hext, hnext'⟩ := Vm.alloc_next h0 hnext
    rw [if_neg hz]
    refine ih (by omega) (hext.used 0 h0) (hext.used _ hused) ?_ hnext'
    intro j hj
    rw [Vm.mem_set_ne hne, Vm.mem_setPage_ne (hfresh.ne hused).symm, Vm.mem_alloc]
    exact hp j hj

/-- The frames of a new address space are the next six. -/
theorem vmmCreateAddressSpace_next {a b : ℕ} {l : List ℕ} (boot : ℕ) (l₁ : List ℕ) (hl : l₁.length = 4)
    (h0 : s.Used 0) (hboot : s.Used boot) (hentry : Present (s.mem boot 0))
    (hused : s.Used (pteAddr (s.mem boot 0)))
    (hp : ∀ j < 4, Present (s.mem (pteAddr (s.mem boot 0)) j))
    (hnext : s.pmm.Next (a :: b :: (l₁ ++ l))) :
    (vmmCreateAddressSpace boot s).1 = a * 4096 ∧ (vmmCreateAddressSpace boot s).2.pmm.Next l := by
  obtain ⟨hz, hfresh, hext, hnext'⟩ := Vm.alloc_next h0 hnext
  have hx : s.Ext (s.alloc.2.setPage s.alloc.1 fun _ => 0) :=
    hext.setPage fun hu => (hfresh.not_used hu).elim
  obtain ⟨hz', hfresh', hext', hnext''⟩ := Vm.alloc_next (hx.used 0 h0) hnext'
  rw [vmmCreateAddressSpace]
  dsimp only
  rw [if_neg hz, Vm.mem_setPage_ne (hfresh.ne hboot).symm, Vm.mem_alloc, if_neg (not_not.2 hentry),
    if_neg hz', ← hl]
  have hx' := hx.trans (hext'.setPage (w := fun _ => 0) fun hu => (hfresh'.not_used hu).elim)
  obtain ⟨htrue, hfinal⟩ := createPds_next (hfresh'.ne (hx.used _ hused)).symm l₁ (i := 0)
    (by omega) (hx'.used 0 h0) (hx'.used _ hused) (fun j hj => by
      rw [Vm.Ext.mem_eq hx' hused]
      exact hp j hj) hnext''
  rw [if_neg (not_not.2 htrue)]
  exact ⟨by rw [Vm.alloc_of_next hnext], hfinal⟩

end

/-! ## An example machine

8 GB of memory with the kernel in the first seven pages. Some ranges below 4 MB are reserved, so that the
first frame after those of a new address space is the one at 2 MB, and the next one is at 4 MB.
-/

/-- The kernel of the example: the boot page tables in the pages 1 to 6. -/
def demoKernel : Kernel where
  boot := 4096
  Page a := a % 4096 = 0 ∧ a < 7 * 4096
  boot_aligned := rfl
  page_zero := ⟨rfl, by decide⟩
  page_boot k hk := ⟨by omega, by omega⟩

/-- The memory of the example after boot. -/
def demoVm : Vm where
  mem := bootTables 4096
  pmm :=
    { bitmap := fun i => decide (i < 7 ∨ (13 ≤ i ∧ i < 512) ∨ (513 ≤ i ∧ i < 1024))
      totalPages := 2 ^ 21
      usedPages := 1017 }

theorem booted_demo : Booted demoKernel demoVm where
  kernel a ha := ⟨ha.1, decide_eq_true (.inl (by have := ha.2; omega))⟩
  boot _ _ := rfl

theorem next_demo : demoVm.pmm.Next [7, 8, 9, 10, 11, 12, 512, 1024] := by decide +kernel

/-- The first address space of the example takes the frames 7 to 12. -/
theorem created_demo :
    (vmmCreateAddressSpace demoKernel.boot demoVm).1 = 7 * 4096 ∧
      (vmmCreateAddressSpace demoKernel.boot demoVm).2.pmm.Next [512, 1024] ∧
      ∃ pdpt pd, SpaceBuilt demoKernel demoVm (vmmCreateAddressSpace demoKernel.boot demoVm).2
        (7 * 4096) pdpt pd := by
  have hused : ∀ k < 6, demoVm.Used (demoKernel.boot + k * 4096) := fun k hk =>
    booted_demo.kernel _ (demoKernel.page_boot k hk)
  obtain ⟨hroot, hnext⟩ := vmmCreateAddressSpace_next demoKernel.boot [9, 10, 11, 12] rfl
    (booted_demo.kernel 0 demoKernel.page_zero) (hused 0 (by decide)) (by decide)
    (hused 1 (by decide)) (by decide) next_demo
  obtain ⟨-, hres⟩ := vmmCreateAddressSpace_spec (booted_demo.frameInv False)
  rw [hroot] at hres
  exact ⟨hroot, hnext, hres.resolve_left (by decide)⟩

/-- The tables of the first address space of the example, when it has `n` directories and no entry in the
PML4. -/
def demoTables (n a : ℕ) : ℕ → ℕ :=
  if a = 7 * 4096 then fun _ => 0
  else if a = 8 * 4096 then fun i => if i < n then ((9 + i) * 4096) ||| 7 else 0
  else if a % 4096 = 0 ∧ 9 * 4096 ≤ a ∧ a < (9 + n) * 4096 then bootTables 4096 (a - 6 * 4096)
  else bootTables 4096 a

/-- The next directory is a copy of that of the boot code. -/
theorem demoTables_succ {n : ℕ} (hn : n < 4) (pmm : Pmm) :
    (Vm.setPage ⟨demoTables n, pmm⟩ ((9 + n) * 4096) (demoTables n ((3 + n) * 4096))).set (8 * 4096) n
      (((9 + n) * 4096) ||| 7) = ⟨demoTables (n + 1), pmm⟩ := by
  have hsrc : demoTables n ((3 + n) * 4096) = bootTables 4096 ((3 + n) * 4096) := by
    rw [demoTables, if_neg (by omega), if_neg (by omega), if_neg (by omega)]
  refine congrArg (Vm.mk · pmm) (funext fun a => ?_)
  rw [hsrc]
  simp only [Vm.setPage, Function.update_apply]
  by_cases h8 : a = 8 * 4096
  · have hpdpt : ∀ n, demoTables n (8 * 4096) = fun i => if i < n then ((9 + i) * 4096) ||| 7 else 0 :=
      fun n => by rw [demoTables, if_neg (by decide), if_pos rfl]
    rw [h8, if_pos rfl, if_neg (by omega), hpdpt, hpdpt]
    funext i
    rw [Function.update_apply]
    by_cases hi : i = n
    · rw [if_pos hi, if_pos (by omega), hi]
    · rw [if_neg hi]
      exact if_congr (by omega) rfl rfl
  · rw [if_neg h8, demoTables, demoTables, if_neg h8, if_neg h8]
    by_cases hg : a = (9 + n) * 4096
    · rw [if_pos hg, if_neg (by omega), if_pos (by omega)]
      exact congrArg (bootTables 4096) (by omega)
    · rw [if_neg hg]
      exact ite_congr rfl (fun _ => rfl) fun _ => if_congr (by omega) rfl rfl

theorem createPds_demo {n i : ℕ} {pmm : Pmm} {l : List ℕ} (hi : i < 4) (hnext : pmm.Next ((9 + i) :: l)) :
    createPds (2 * 4096) (8 * 4096) (n + 1) i ⟨demoTables i, pmm⟩ =
      createPds (2 * 4096) (8 * 4096) n (i + 1) ⟨demoTables (i + 1), pmm.take (9 + i)⟩ := by
  have he : demoTables i (2 * 4096) i = ((3 + i) * 4096) ||| 7 := by
    rw [demoTables, if_neg (by decide), if_neg (by decide), if_neg (by omega), bootTables, if_neg (by decide),
      if_pos rfl, if_pos hi]
    exact congrArg (· ||| 7) (by omega)
  have hal : (3 + i) * 4096 % 4096 = 0 := by omega
  have hp : Present (((3 + i) * 4096) ||| 7) := (present_or hal (by decide)).2 (by decide)
  have hz : ¬(9 + i) * 4096 = 0 := by omega
  simp only [createPds, Vm.alloc_of_next (s := ⟨demoTables i, pmm⟩) hnext, he, if_pos hp, if_neg hz,
    pteAddr_or hal (by decide : 7 < 4096), pteFlags_or hal (by decide : 7 < 4096)]
  exact congrArg _ (demoTables_succ hi _)

/-- The example with its first address space, in the frames 7 to 12. -/
def demoSpace : Vm where
  mem a := if a = 7 * 4096 then fun i => if i = 0 then (8 * 4096) ||| 7 else 0 else demoTables 4 a
  pmm := ⟨fun i => decide (i < 512 ∨ (513 ≤ i ∧ i < 1024)), 2 ^ 21, 1023⟩

theorem created_demo_eq : vmmCreateAddressSpace demoKernel.boot demoVm = (7 * 4096, demoSpace) := by
  have hroot := Vm.alloc_of_next next_demo
  have hpdpt := Vm.alloc_of_next (s := Vm.setPage ⟨demoVm.mem, demoVm.pmm.take 7⟩ (7 * 4096) fun _ => 0)
    next_demo.2
  have he : (Vm.setPage ⟨demoVm.mem, demoVm.pmm.take 7⟩ (7 * 4096) fun _ => 0).mem demoKernel.boot 0 =
      (2 * 4096) ||| 7 := rfl
  have hinit : Function.update (Function.update (bootTables 4096) (7 * 4096) fun _ => 0) (8 * 4096)
      (fun _ => 0) = demoTables 0 := by
    funext a
    rw [Function.update_apply, Function.update_apply, demoTables, if_neg (c := _ ∧ _) (by omega)]
    simp only [Nat.not_lt_zero, if_false]
    split_ifs <;> rfl
  have hpds : createPds (2 * 4096) (8 * 4096) 4 0 ⟨demoTables 0, (demoVm.pmm.take 7).take 8⟩ =
      (true, ⟨demoTables 4, ((((((demoVm.pmm.take 7).take 8).take 9).take 10).take 11).take 12)⟩) := by
    rw [createPds_demo (by decide) next_demo.2.2, createPds_demo (by decide) next_demo.2.2.2,
      createPds_demo (by decide) next_demo.2.2.2.2, createPds_demo (by decide) next_demo.2.2.2.2.2]
    rfl
  rw [← hinit] at hpds
  have hp : Present ((2 * 4096) ||| 7) := by decide
  simp only [vmmCreateAddressSpace, hroot, hpdpt, he, if_neg (not_not.2 hp)]
  rw [if_neg (by decide), if_neg (by decide)]
  generalize hcr : createPds (pteAddr (2 * 4096 ||| 7)) (8 * 4096) 4 0 _ = r
  obtain rfl := hcr.symm.trans hpds
  rw [if_neg (not_not.2 rfl)]
  refine Prod.ext rfl (congrArg₂ Vm.mk (funext fun a => ?_) ?_)
  · dsimp only [Vm.set, Vm.setPage]
    rw [Function.update_apply]
    refine if_congr Iff.rfl (funext fun i => ?_) rfl
    rw [Function.update_apply]
    rfl
  · refine congr (congrArg₂ Pmm.mk (funext fun i => ?_) rfl) rfl
    simp only [Pmm.take, Function.update_apply, demoVm]
    grind

theorem frameInv_demoSpace : FrameInv demoKernel True (· = 7 * 4096) demoSpace := by
  obtain ⟨-, hres⟩ := vmmCreateAddressSpace_spec (booted_demo.frameInv False)
  rw [created_demo_eq] at hres
  obtain ⟨pdpt, pd, hb⟩ := hres.resolve_left (by decide)
  have hinv := hb.frameInv (booted_demo.frameInv True)
  simp only [false_or] at hinv
  exact hinv

end PlantOS.Mm
