import PlantOS.Mm.VmaInvariant
import PlantOS.Task.NewPages

/-!
# Unmapping a range, and mapping that fails

`SYS_MUNMAP` goes over the pages of the range and then calls `vma_remove`, which drops the areas that lie
in the range and leaves all others as they are. `SYS_MMAP` that runs out of frames releases the frames of all
pages of its range, but leaves the pages mapped to them, and it also calls `vma_remove`. It works under the
page table of the process, so that what it does to a range can be told only if no page of the range, or of the
process, is at the address of a frame that the kernel uses.

Reference: `cpu/syscall.c`, `mm/vma.c`.
-/

namespace PlantOS.Task

open PlantOS.Mm Word

/-! ## `SYS_MUNMAP` -/

/-- The length in whole pages. -/
def roundUp (length : ℕ) : ℕ := (length + 4095) / 4096 * 4096

/-- The flags and the type of the area at an address. -/
def areaAt (vmas : List Vma) (x : ℕ) : Option (ℕ × ℕ) := (vmaFind vmas x).map fun v => (v.flags, v.type)

/-- From the process `t` to `t'`, the areas lose the pages of the range and nothing else. A fault in the range
is then a segmentation fault, and one outside is handled as before. -/
structure MunmapExact (t t' : Proc) (addr length : ℕ) : Prop where
  inside : ∀ x, addr ≤ x → x < addr + roundUp length → vmaFind t'.vmas x = none
  outside : ∀ x, ¬(addr ≤ x ∧ x < addr + roundUp length) → areaAt t'.vmas x = areaAt t.vmas x
  fault_inside : ∀ s x, addr ≤ x → x < addr + roundUp length → pageFaultHandler s t' x = (false, s)
  fault_outside : ∀ s x, ¬(addr ≤ x ∧ x < addr + roundUp length) →
    pageFaultHandler s t' x = pageFaultHandler s t x

/-- Outside of the range, `vma_remove` drops no area. -/
theorem vmaFind_vmaRemove {start stop x : ℕ} (hx : ¬(start ≤ x ∧ x < stop)) (vmas : List Vma) :
    vmaFind (vmaRemove vmas start stop) x = vmaFind vmas x := by
  induction vmas with
  | nil => rfl
  | cons v vmas ih =>
    rw [vmaRemove, List.map_cons, ← vmaRemove, vmaFind, vmaFind, List.find?_cons, List.find?_cons, ← vmaFind,
      ← vmaFind, ih]
    split_ifs with hc
    · -- an area that is dropped does not hold the address
      have hout : ¬(v.used ∧ v.start ≤ x ∧ x < v.stop) := fun hv => hx ⟨by omega, by omega⟩
      rw [decide_eq_false hout]
      simp
    · rfl

/-- The handler looks at the area of the address only. -/
theorem pageFaultHandler_of_areaAt {s : Vm} {t t' : Proc} {x : ℕ} (hcr3 : t'.cr3 = t.cr3)
    (h : areaAt t'.vmas x = areaAt t.vmas x) : pageFaultHandler s t' x = pageFaultHandler s t x := by
  rw [areaAt, areaAt] at h
  rw [pageFaultHandler_eq, pageFaultHandler_eq, hcr3]
  cases hv' : vmaFind t'.vmas x with
  | none =>
    rw [hv', Option.map_none, eq_comm, Option.map_eq_none_iff] at h
    rw [h]
  | some v' =>
    rw [hv'] at h
    obtain ⟨v, hv, heq⟩ := Option.map_eq_some_iff.1 h.symm
    have hflags : v.flags = v'.flags := (Prod.ext_iff.1 heq).1
    rw [hv]
    dsimp only
    rw [hflags]

/-- `SYS_MUNMAP` removes exactly the range if and only if every area that meets the range lies in it. -/
theorem munmap_exact_iff (vm : Vm) (t : Proc) (addr length : ℕ) (haddr : addr % 4096 = 0)
    (hlen : 0 < length) :
    MunmapExact t (sysMunmap vm t addr length).proc addr length ↔
      ∀ v ∈ t.vmas, v.used = true → v.start < v.stop → v.start < addr + roundUp length → addr < v.stop →
        addr ≤ v.start ∧ v.stop ≤ wrap 64 (addr + pageUp length) := by
  have hbase : addr / 4096 * 4096 = addr := by omega
  have hvmas : (sysMunmap vm t addr length).proc.vmas =
      vmaRemove t.vmas addr (wrap 64 (addr + pageUp length)) := by
    rw [sysMunmap]
    dsimp only
    rw [hbase]
  have hround : pageUp length ≤ roundUp length :=
    Nat.mul_le_mul_right 4096 (Nat.div_le_div_right (wrap_le (by push_cast; rfl)))
  have hstop : wrap 64 (addr + pageUp length) ≤ addr + roundUp length :=
    (wrap_le (by push_cast; rfl)).trans (Nat.add_le_add_left hround addr)
  have hpos : 0 < roundUp length := by
    rw [roundUp]
    omega
  constructor
  · intro hexact v hv hu hne hlt hlo
    have hnone := hexact.inside (max v.start addr) (le_max_right _ _) (by omega)
    rw [hvmas, vmaFind, List.find?_eq_none] at hnone
    by_contra hout
    exact hnone v ((used_vmaRemove_iff hu).2 ⟨hv, hout⟩) (decide_eq_true ⟨hu, by omega, by omega⟩)
  · intro hcond
    have hinside : ∀ x, addr ≤ x → x < addr + roundUp length →
        vmaFind (sysMunmap vm t addr length).proc.vmas x = none := by
      intro x hlo hhi
      rw [hvmas, Option.eq_none_iff_forall_ne_some]
      intro v hv
      obtain ⟨hmem, hu, hstart, hlt⟩ := vmaFind_eq_some hv
      obtain ⟨hmem, hout⟩ := (used_vmaRemove_iff hu).1 hmem
      exact hout (hcond v hmem hu (by omega) (by omega) (by omega))
    have houtside : ∀ x, ¬(addr ≤ x ∧ x < addr + roundUp length) →
        areaAt (sysMunmap vm t addr length).proc.vmas x = areaAt t.vmas x := by
      intro x hx
      rw [hvmas, areaAt, areaAt, vmaFind_vmaRemove fun hc => hx ⟨hc.1, hc.2.trans_le hstop⟩]
    refine ⟨hinside, houtside, fun s x hlo hhi => ?_, fun s x hx => ?_⟩
    · rw [pageFaultHandler_eq, hinside x hlo hhi]
    · exact pageFaultHandler_of_areaAt rfl (houtside x hx)

/-- Of two areas, the range holds the first and does not meet the second. -/
theorem munmap_exact_iff_whole :
    MunmapExact ⟨7 * 4096, 0, [⟨0x10000000, 0x10002000, 3, 0, true⟩, ⟨0x10002000, 0x10004000, 1, 0, true⟩]⟩
      (sysMunmap demoVm ⟨7 * 4096, 0,
        [⟨0x10000000, 0x10002000, 3, 0, true⟩, ⟨0x10002000, 0x10004000, 1, 0, true⟩]⟩ 0x10000000 8192).proc
      0x10000000 8192 :=
  (munmap_exact_iff demoVm _ 0x10000000 8192 (by decide) (by decide)).2 (by decide +kernel)

/-- An area of three pages that loses the middle one stays as it is, and a fault there maps a page. -/
theorem munmap_keeps_area :
    vmaFind (sysMunmap demoVm ⟨7 * 4096, 0, [⟨0x10000000, 0x10003000, 3, 0, true⟩]⟩ 0x10001000 4096).proc.vmas
        0x10001000 = some ⟨0x10000000, 0x10003000, 3, 0, true⟩ ∧
      ¬MunmapExact ⟨7 * 4096, 0, [⟨0x10000000, 0x10003000, 3, 0, true⟩]⟩
        (sysMunmap demoVm ⟨7 * 4096, 0, [⟨0x10000000, 0x10003000, 3, 0, true⟩]⟩ 0x10001000 4096).proc
        0x10001000 4096 := by
  have hfind : vmaFind
      (sysMunmap demoVm ⟨7 * 4096, 0, [⟨0x10000000, 0x10003000, 3, 0, true⟩]⟩ 0x10001000 4096).proc.vmas
        0x10001000 = some ⟨0x10000000, 0x10003000, 3, 0, true⟩ := by decide +kernel
  refine ⟨hfind, fun hexact => ?_⟩
  rw [hexact.inside 0x10001000 (by decide) (by decide)] at hfind
  cases hfind

/-! ## `SYS_MMAP` -/

/-- What is in an entry of the table of areas. -/
def liveArea (v : Vma) : Option Vma := if v.used then some v else none

/-- After the call, the translations, the areas and the free frames are those of `s` and `t`, apart from
frames that are page tables now, and no page is mapped to a free frame. (The page at the address of a frame is
mapped to it by the identity map, whether it is free or not.) -/
structure MmapUndone (roots : ℕ → Prop) (s : Vm) (t : Proc) (r : SysResult) : Prop where
  phys : SamePhys roots s r.vm
  areas : r.proc.vmas.map liveArea = t.vmas.map liveArea
  free : r.vm.freePages ⊆ s.freePages
  taken : ∀ i ∈ s.freePages, i ∉ r.vm.freePages → IsTable r.vm.mem roots (i * 4096)
  mapped : ∀ r' v a, roots r' → v < 2 ^ 48 → physAddr r.vm.mem r' v = some a → a ≠ v →
    a / 4096 ∉ r.vm.freePages

/-- The call fails before it has taken a frame, and its cleanup meets nothing to release or to drop. -/
def MmapClean (s : Vm) (t : Proc) (addrHint length : ℕ) : Prop :=
  length = 0 ∨ ∀ addr, mmapAddr t addrHint (pageUp length) = some addr → addr ≠ 0 →
    (∃ v ∈ t.vmas, v.used = false) →
      s.freePages = ∅ ∧
      (∀ p ∈ pagesFrom addr (pageCount addr (pageUp length)), ∀ a, physAddr s.mem t.cr3 p = some a →
        a = 0 ∨ a = p ∨ s.pmm.totalPages ≤ a / 4096) ∧
      ∀ v ∈ t.vmas, v.used = true → ¬(addr ≤ v.start ∧ v.stop ≤ wrap 64 (addr + pageUp length))

section

variable {K : Kernel} {roots : ℕ → Prop} {s : Vm} {t : Proc} {addrHint length prot : ℕ} {r : SysResult}

theorem vmaAdd_eq_none {start stop flags type : ℕ} {vmas : List Vma} :
    vmaAdd start stop flags type vmas = none ↔ ∀ v ∈ vmas, v.used = true := by
  induction vmas with
  | nil => simp [vmaAdd]
  | cons v vmas ih =>
    rw [vmaAdd, List.forall_mem_cons]
    split_ifs with hv
    · rw [Option.map_eq_none_iff, ih, and_iff_right hv]
    · exact iff_of_false id fun hc => hv hc.1

/-- `vma_find_free` returns the address of a page. -/
theorem vmaFindFreeLoop_aligned {vmas : List Vma} {size : ℕ} (fuel : ℕ) {addr res : ℕ} (hal : addr % 4096 = 0)
    (h : vmaFindFreeLoop vmas size fuel addr = some res) : res % 4096 = 0 := by
  induction fuel generalizing addr with
  | zero => cases h
  | succ fuel ih =>
    rw [vmaFindFreeLoop] at h
    split_ifs at h with hfits
    · split at h
      · exact ih (by rw [pageUp]; omega) h
      · exact Option.some.inj h ▸ hal
    · exact Option.some.inj h ▸ rfl

theorem mmapAddr_ne_error {addr : ℕ} (h : mmapAddr t addrHint length = some addr) : addr ≠ sysError := by
  rw [mmapAddr] at h
  split_ifs at h with hint
  · obtain rfl := Option.some.inj h
    have hlt : addrHint < mmapEnd := hint.2.1
    rw [sysError, mmapEnd] at *
    omega
  · have hal := vmaFindFreeLoop_aligned _ (by decide : mmapBase % 4096 = 0) h
    rintro rfl
    exact absurd hal (by decide)

/-- How `SYS_MMAP` returns -1: at once, or after a page without a frame. -/
theorem sysMmap_fails (h : sysMmap s t addrHint length prot = some r) (hrax : r.rax = sysError) :
    (MmapClean s t addrHint length ∧ r = ⟨sysError, s, t⟩) ∨
      ∃ addr vmas, length ≠ 0 ∧ mmapAddr t addrHint (pageUp length) = some addr ∧ addr ≠ 0 ∧
        vmaAdd addr (wrap 64 (addr + pageUp length)) (mmapVmaFlags prot) 0 t.vmas = some vmas ∧
        (mapNewPages t.cr3 (mmapMapFlags prot) (pageCount addr (pageUp length)) addr s).1 = false ∧
        r = ⟨sysError, mmapRelease t.cr3 (pageCount addr (pageUp length)) addr
          (mapNewPages t.cr3 (mmapMapFlags prot) (pageCount addr (pageUp length)) addr s).2,
          { t with vmas := vmaRemove vmas addr (wrap 64 (addr + pageUp length)) }⟩ := by
  rw [sysMmap] at h
  by_cases hlen : length = 0
  · rw [if_pos hlen] at h
    exact .inl ⟨.inl hlen, (Option.some.inj h).symm⟩
  rw [if_neg hlen] at h
  dsimp only at h
  cases haddr : mmapAddr t addrHint (pageUp length) with
  | none =>
    rw [haddr] at h
    cases h
  | some addr =>
    rw [haddr] at h
    dsimp only at h
    by_cases hz : addr = 0
    · rw [if_pos hz] at h
      refine .inl ⟨.inr fun addr' haddr' hne => ?_, (Option.some.inj h).symm⟩
      rw [haddr] at haddr'
      exact absurd (Option.some.inj haddr' ▸ hz) hne
    rw [if_neg hz] at h
    cases hadd : vmaAdd addr (wrap 64 (addr + pageUp length)) (mmapVmaFlags prot) 0 t.vmas with
    | none =>
      rw [hadd] at h
      refine .inl ⟨.inr fun _ _ _ => ?_, (Option.some.inj h).symm⟩
      rintro ⟨v, hv, hunused⟩
      exact absurd (vmaAdd_eq_none.1 hadd v hv) (by simp [hunused])
    | some vmas =>
      rw [hadd] at h
      dsimp only at h
      split_ifs at h with hok
      · obtain rfl := Option.some.inj h
        exact absurd hrax (mmapAddr_ne_error haddr)
      · exact .inr ⟨addr, vmas, hlen, rfl, hz, hadd, by simpa using hok, (Option.some.inj h).symm⟩

/-- The cleanup releases the frame of the page `p`. -/
def Releases (s : Vm) (cr3 p i : ℕ) : Prop :=
  ∃ a, physAddr s.mem cr3 p = some a ∧ a ≠ 0 ∧ a ≠ p ∧ i = a / 4096

/-- The cleanup changes no page table, and it releases the frames of the pages in the range. -/
theorem mmapRelease_spec (cr3 n va : ℕ) (s : Vm) :
    (mmapRelease cr3 n va s).mem = s.mem ∧
      ∀ i, i ∈ (mmapRelease cr3 n va s).freePages ↔
        i ∈ s.freePages ∨ (i < s.pmm.totalPages ∧ ∃ p ∈ pagesFrom va n, Releases s cr3 p i) := by
  induction n generalizing va s with
  | zero => simp [mmapRelease, pagesFrom]
  | succ n ih =>
    rw [mmapRelease, pagesFrom_succ]
    set u := if vmmGetPhysicalIn s cr3 va ≠ 0 ∧ vmmGetPhysicalIn s cr3 va ≠ va then
      s.free (vmmGetPhysicalIn s cr3 va) else s with hu
    have hmem : u.mem = s.mem := by
      rw [hu]
      split_ifs <;> rfl
    have htotal : u.pmm.totalPages = s.pmm.totalPages := by
      rw [hu]
      split_ifs
      · exact totalPages_free _ _
      · rfl
    have hfree : ∀ i, i ∈ u.freePages ↔ i ∈ s.freePages ∨ (i < s.pmm.totalPages ∧ Releases s cr3 va i) := by
      intro i
      rw [hu, vmmGetPhysicalIn_eq, Releases]
      cases physAddr s.mem cr3 va with
      | none => simp
      | some a =>
        simp only [Option.getD_some, Option.some.injEq, exists_eq_left']
        split_ifs with hc
        · rw [Vm.mem_freePages_free]
          tauto
        · tauto
    have hrel : ∀ p i, Releases u cr3 p i ↔ Releases s cr3 p i := fun p i => by rw [Releases, Releases, hmem]
    obtain ⟨hmem', hfree'⟩ := ih (va + 4096) u
    refine ⟨hmem'.trans hmem, fun i => ?_⟩
    rw [hfree', hfree, htotal, List.exists_mem_cons_iff]
    simp only [hrel]
    tauto

/-- The new entry is dropped again, and with it every area that lies in the range. -/
theorem liveArea_vmaRemove_vmaAdd {start stop flags type : ℕ} {vmas vmas' : List Vma}
    (h : vmaAdd start stop flags type vmas = some vmas') :
    (vmaRemove vmas' start stop).map liveArea = vmas.map liveArea ↔
      ∀ v ∈ vmas, v.used = true → ¬(start ≤ v.start ∧ v.stop ≤ stop) := by
  obtain ⟨l, w, l', rfl, hw, rfl⟩ := vmaAdd_eq_some h
  set drop := fun v : Vma => if v.used ∧ start ≤ v.start ∧ v.stop ≤ stop then { v with used := false } else v
    with hdrop
  have hnew : liveArea (drop ⟨start, stop, flags, type, true⟩) = liveArea (drop w) := by
    simp [hdrop, liveArea, hw]
  have hmap : (vmaRemove (l ++ ⟨start, stop, flags, type, true⟩ :: l') start stop).map liveArea =
      (l ++ w :: l').map fun v => liveArea (drop v) := by
    rw [vmaRemove, List.map_map, List.map_append, List.map_append, List.map_cons, List.map_cons, ← hnew]
    rfl
  rw [hmap, List.map_inj_left]
  refine forall₂_congr fun v _ => ?_
  by_cases hc : v.used ∧ start ≤ v.start ∧ v.stop ≤ stop
  · simp [hdrop, hc, liveArea]
  · simp only [hdrop, if_neg hc, true_iff]
    exact fun hu hin => hc ⟨hu, hin⟩

/-- A call that takes a frame and then fails is not undone: the frame stays allocated, or a page stays mapped
to it. -/
theorem not_mmapUndone_of_free {excl : Prop} {addr n flags : ℕ} (vmas : List Vma)
    (h : FrameInv K excl roots s) (hr : roots t.cr3) (hflags : flags < 4096) (hfree : s.freePages.Nonempty)
    (hn : 0 < n) (hlow : ∀ p ∈ pagesFrom addr n, p < 2 ^ 48) :
    ¬MmapUndone roots s t ⟨sysError, mmapRelease t.cr3 n addr (mapNewPages t.cr3 flags n addr s).2,
      { t with vmas := vmas }⟩ := by
  intro hundone
  obtain ⟨hempty, -⟩ | ⟨i, hi, -, haddr, -⟩ := Vm.alloc_lowest h.used_zero
  · rw [hempty] at hfree
    exact Finset.not_nonempty_empty hfree
  obtain ⟨n, rfl⟩ := Nat.exists_eq_succ_of_ne_zero hn.ne'
  obtain ⟨-, hclears, -⟩ := mapNewPage_free h hr hfree addr hflags
  have hrest := addsPages_run hclears.inv hr hflags (pagesFrom (addr + 4096) n)
  have hloop := mapNewPages_eq_run h hr hflags (n + 1) addr
  rw [pagesFrom_succ, Run.run_cons, newPage] at hloop
  rw [← hloop] at hrest
  obtain ⟨hmem, hback⟩ := mmapRelease_spec t.cr3 (n + 1) addr
    (mapNewPages t.cr3 flags (n + 1) addr s).2
  -- the first frame is allocated when the loop ends, and is no table
  have hused := hrest.used _ hclears.fresh.used
  have hdata : ¬IsTable (mapNewPages t.cr3 flags (n + 1) addr s).2.mem roots s.alloc.1 :=
    (hrest.data _ hclears.fresh.used hclears.not_table).1
  by_cases hgiven : i ∈ (mmapRelease t.cr3 (n + 1) addr (mapNewPages t.cr3 flags (n + 1) addr s).2).freePages
  · obtain hfree' | ⟨-, p, hp, a, ha, -, hne, hia⟩ := (hback i).1 hgiven
    · have hbit := hused.2
      rw [haddr, Nat.mul_div_cancel _ (by decide), (Vm.mem_freePages.1 hfree').2] at hbit
      cases hbit
    · refine hundone.mapped t.cr3 p a hr (hlow p hp) ?_ hne ?_
      · dsimp only
        rw [hmem, ha]
      · exact hia ▸ hgiven
  · have htable := hundone.taken i hi hgiven
    dsimp only at htable
    rw [hmem, ← haddr] at htable
    exact hdata htable

/-- A page that is mapped elsewhere than to its own address is mapped to an allocated frame. -/
theorem not_free_of_moved {excl : Prop} {r' v a : ℕ} (h : FrameInv K excl roots s) (hr : roots r')
    (ha : physAddr s.mem r' v = some a) (hne : a ≠ v % 2 ^ 48) : a / 4096 ∉ s.freePages := by
  obtain ⟨tr, htr, rfl⟩ := Option.map_eq_some_iff.1 ha
  obtain hid | ⟨e, he, hframe⟩ := h.mmuTranslate_cases hr htr
  · exact absurd hid hne
  · have hbit := (h.user r' _ e hr he).1.2
    rw [← hframe, pteAddr, Nat.mul_div_cancel _ (by decide)] at hbit
    intro hfree
    rw [(Vm.mem_freePages.1 hfree).2] at hbit
    cases hbit

/-- A failing `SYS_MMAP` has no effect if it is clean. For a range of ordinary addresses, which have 48 bits,
it has none only then. -/
theorem mmapUndone_iff {excl : Prop} (h : FrameInv K excl roots s) (hr : roots t.cr3)
    (hret : sysMmap s t addrHint length prot = some r) (hfail : r.rax = sysError) :
    (MmapClean s t addrHint length → MmapUndone roots s t r) ∧
      ((∀ addr, mmapAddr t addrHint (pageUp length) = some addr → addr + pageUp length ≤ 2 ^ 48) →
        MmapUndone roots s t r → MmapClean s t addrHint length) := by
  obtain ⟨hclean, rfl⟩ | ⟨addr, vmas, hlen, haddr, hz, hadd, hfalse, rfl⟩ := sysMmap_fails hret hfail
  · exact ⟨fun _ => ⟨fun _ _ _ => rfl, rfl, Finset.Subset.refl _, fun _ hi hnot => absurd hi hnot,
      fun _ _ _ hr' hv ha hne => not_free_of_moved h hr' ha (by rwa [Nat.mod_eq_of_lt hv])⟩,
      fun _ _ => hclean⟩
  have hn : 0 < pageCount addr (pageUp length) := by
    by_contra hzero
    rw [Nat.eq_zero_of_not_pos hzero] at hfalse
    cases hfalse
  obtain ⟨hmem, hback⟩ := mmapRelease_spec t.cr3 (pageCount addr (pageUp length)) addr
    (mapNewPages t.cr3 (mmapMapFlags prot) (pageCount addr (pageUp length)) addr s).2
  -- without a free frame the loop does nothing
  have hloop : s.freePages = ∅ →
      (mapNewPages t.cr3 (mmapMapFlags prot) (pageCount addr (pageUp length)) addr s).2 = s := by
    intro hempty
    obtain ⟨n, hn⟩ := Nat.exists_eq_succ_of_ne_zero hn.ne'
    rw [hn, mapNewPages, mapNewPage_empty h.used_zero hempty, if_neg Bool.false_ne_true]
  have hareas := liveArea_vmaRemove_vmaAdd hadd
  constructor
  · rintro (hl | hclean)
    · exact absurd hl hlen
    obtain ⟨l, v, l', hvmas, hunused, -⟩ := vmaAdd_eq_some hadd
    obtain ⟨hempty, hpages, hin⟩ := hclean addr haddr hz ⟨v, by simp [hvmas], hunused⟩
    rw [hloop hempty] at hmem hback ⊢
    have hfree : (mmapRelease t.cr3 (pageCount addr (pageUp length)) addr s).freePages = s.freePages := by
      ext i
      rw [hback i, or_iff_left]
      rintro ⟨hlt, p, hp, a, ha, ha0, hap, rfl⟩
      obtain h0 | hid | hlarge := hpages p hp a ha
      · exact ha0 h0
      · exact hap hid
      · omega
    refine ⟨fun r' v _ => ?_, hareas.2 hin, hfree.subset, fun i hi hnot => ?_, fun r' v a hr' hv ha hne => ?_⟩
    · dsimp only
      rw [hmem]
    · exact absurd (hfree ▸ hi) hnot
    · dsimp only at ha ⊢
      rw [hmem] at ha
      rw [hfree]
      exact not_free_of_moved h hr' ha (by rwa [Nat.mod_eq_of_lt hv])
  · intro hrange hundone
    have hempty : s.freePages = ∅ := by
      by_contra hne
      refine not_mmapUndone_of_free _ h hr (mmapMapFlags_lt prot) (Finset.nonempty_iff_ne_empty.2 hne) hn ?_
        hundone
      intro p hp
      obtain ⟨k, hk, rfl⟩ := mem_pagesFrom.1 hp
      have hle := (wrap_le (w := 64) (n := addr + pageUp length) (by push_cast; rfl)).trans
        (hrange addr haddr)
      rw [pageCount] at hk
      omega
    refine .inr fun addr' haddr' _ _ => ?_
    obtain rfl := Option.some.inj (haddr.symm.trans haddr')
    refine ⟨hempty, fun p hp a ha => ?_, hareas.1 hundone.areas⟩
    by_contra hc
    simp only [not_or, not_le] at hc
    rw [hloop hempty] at hback
    have hfree := hundone.free
    dsimp only at hfree
    rw [hloop hempty, hempty] at hfree
    have hmem := (hback (a / 4096)).2 (.inr ⟨hc.2.2, p, hp, a, ha, hc.1, hc.2.1, rfl⟩)
    exact Finset.notMem_empty _ (hfree hmem)

end

/-- The first address space of the example machine, with 128 MB of memory of which all but four frames are
taken. -/
def crowdedVm : Vm :=
  { (vmmCreateAddressSpace demoKernel.boot demoVm).2 with
    pmm := ⟨fun i => decide (i ≠ 512 ∧ i ≠ 1024 ∧ i ≠ 1025 ∧ i ≠ 1026), 2 ^ 15, 2 ^ 15 - 4⟩ }

theorem totalPages_crowded : crowdedVm.pmm.totalPages = 2 ^ 15 := rfl

theorem freePages_crowded : crowdedVm.freePages = {512, 1024, 1025, 1026} := by
  ext i
  rw [Vm.mem_freePages, crowdedVm]
  simp only [decide_eq_false_iff_not, Finset.mem_insert, Finset.mem_singleton]
  omega

theorem directInv_crowded (D : ℕ → Prop) : DirectInv demoKernel True D (· = 7 * 4096) crowdedVm := by
  rw [crowdedVm, created_demo_eq]
  refine (directInv_demoSpace D).ext ⟨fun a ha => ⟨ha.1, decide_eq_true ?_⟩, fun _ _ _ => rfl⟩
  have hused := of_decide_eq_true ha.2
  omega

theorem frameInv_crowded : FrameInv demoKernel True (· = 7 * 4096) crowdedVm :=
  (directInv_crowded fun _ => False).toFrameInv

/-- The pages from `MMAP_BASE` on are behind the memory of the machine. -/
theorem not_direct_mmap {p : ℕ} (hp : p ∈ mmapPages mmapBase (5 * 4096)) :
    ¬Direct demoKernel crowdedVm.pmm.totalPages demoKernel.Page (pageOf p) := by
  have hpages : mmapPages mmapBase (5 * 4096) = pagesFrom mmapBase 5 := by decide
  rw [hpages] at hp
  obtain ⟨k, hk, rfl⟩ := mem_pagesFrom.1 hp
  rw [totalPages_crowded]
  have hpage : pageOf (mmapBase + k * 4096) = mmapBase + k * 4096 := by
    rw [pageOf, mmapBase]
    omega
  rw [hpage, mmapBase]
  rintro (⟨-, hlt, -⟩ | ⟨j, hj, heq⟩ | ⟨-, hlt⟩)
  · omega
  · simp only [demoKernel] at heq
    omega
  · omega

/-- The first frame is 512, and with the next one a page can be mapped. -/
theorem pageReady_crowded : crowdedVm.alloc.1 = 512 * 4096 ∧ PageReady crowdedVm (7 * 4096) mmapBase := by
  have hinv := frameInv_crowded
  obtain ⟨hempty, -⟩ | ⟨i, hi, hmin, haddr, hne, herase⟩ := Vm.alloc_lowest hinv.used_zero
  · rw [freePages_crowded] at hempty
    exact absurd hempty (by decide)
  obtain rfl : i = 512 := by
    have hle := hmin 512 (by rw [freePages_crowded]; decide)
    rw [freePages_crowded] at hi
    simp only [Finset.mem_insert, Finset.mem_singleton] at hi
    omega
  refine ⟨haddr, ⟨512, hi⟩, ?_⟩
  have hfree : crowdedVm.alloc.2.freePages = {1024, 1025, 1026} := by
    rw [herase, freePages_crowded]
    decide
  rw [hfree]
  exact hinv.mappable_of_lowest rfl (by decide) (by decide : 1024 ∈ _) (by decide) (by decide)

/-- `SYS_MMAP` of five pages in that state. -/
theorem sysMmap_crowded :
    ∃ vmas, sysMmap crowdedVm ⟨7 * 4096, 0, vmaInitList⟩ 0 (5 * 4096) 3 =
      some ⟨sysError, mmapRelease (7 * 4096) 5 mmapBase (mapNewPages (7 * 4096) 7 5 mmapBase crowdedVm).2,
        ⟨7 * 4096, 0, vmas⟩⟩ := by
  have haddr : mmapAddr ⟨7 * 4096, 0, vmaInitList⟩ 0 (pageUp (5 * 4096)) = some mmapBase := by decide +kernel
  obtain ⟨vmas, hvmas⟩ : ∃ vmas, vmaAdd mmapBase (wrap 64 (mmapBase + pageUp (5 * 4096))) (mmapVmaFlags 3) 0
      vmaInitList = some vmas := ⟨_, rfl⟩
  have hcount : pageCount mmapBase (pageUp (5 * 4096)) = 5 := by decide +kernel
  have hflags : mmapMapFlags 3 = 7 := by decide
  have hfail : ¬(mapNewPages (7 * 4096) 7 5 mmapBase crowdedVm).1 = true := by
    intro hok
    have hcard := mapNewPages_card frameInv_crowded rfl (by decide : 7 < 4096) hok
    rw [freePages_crowded] at hcard
    exact absurd hcard (by decide)
  refine ⟨vmaRemove vmas mmapBase (wrap 64 (mmapBase + pageUp (5 * 4096))), ?_⟩
  rw [sysMmap, if_neg (by decide)]
  dsimp only
  rw [haddr]
  dsimp only
  rw [if_neg (by decide), hvmas, hcount, hflags]
  dsimp only
  rw [if_neg hfail]

end PlantOS.Task
