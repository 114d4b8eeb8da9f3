import PlantOS.Mm.VmmTaken
import PlantOS.Task.UserMemoryInvariant

/-!
# New pages

What `pmm_alloc_page`, `memset` and `vmm_map_page_in` do together for one page of a process: the frame is
taken and cleared whenever one is free, and the page is mapped if there are also frames for its tables. The
page-fault handler does this once, and the loops of `SYS_SBRK` and `SYS_MMAP` are runs of it.
-/

namespace PlantOS.Task

open PlantOS.Mm

/-- The frames for the page `va` and for its missing tables are free. -/
def PageReady (s : Vm) (cr3 va : ℕ) : Prop :=
  s.freePages.Nonempty ∧ Mappable s.mem s.alloc.2.freePages cr3 va

/-- Frames that were allocated before, other than tables, have their contents; `f` is a new frame of
zeros, and all other frames taken are tables. -/
structure Clears (K : Kernel) (excl : Prop) (roots : ℕ → Prop) (s s' : Vm) (f : ℕ) : Prop where
  inv : FrameInv K excl roots s'
  fresh : s.Fresh s' f
  zero : s'.mem f = fun _ => 0
  not_table : ¬IsTable s'.mem roots f
  used : ∀ a, s.Used a → s'.Used a
  data : ∀ a, s.Used a → ¬IsTable s.mem roots a → ¬IsTable s'.mem roots a ∧ s'.mem a = s.mem a
  keep : ∀ a, IsTable s.mem roots a → IsTable s'.mem roots a
  total : s'.pmm.totalPages = s.pmm.totalPages
  free : s'.freePages ⊆ s.freePages.erase (f / 4096)
  table : ∀ i ∈ s.freePages, i ≠ f / 4096 → i ∉ s'.freePages → IsTable s'.mem roots (i * 4096)

section

variable {K : Kernel} {excl : Prop} {roots : ℕ → Prop} {s : Vm} {r : ℕ}

/-- A page for which there is no frame is left alone. -/
theorem mapNewPage_empty (h0 : s.Used 0) (hempty : s.freePages = ∅) (va flags : ℕ) :
    mapNewPage s r va flags = (false, s) := by
  obtain ⟨-, heq⟩ | ⟨i, hi, -⟩ := Vm.alloc_lowest h0
  · rw [mapNewPage, heq, if_pos rfl]
  · rw [hempty] at hi
    cases hi

/-- With a frame for the page, it is cleared, and mapped if the tables can be made. -/
theorem mapNewPage_free (h : FrameInv K excl roots s) (hr : roots r) (hfree : s.freePages.Nonempty)
    (va : ℕ) {flags : ℕ} (hflags : flags < 4096) :
    (mapNewPage s r va flags).1 = true ∧ Clears K excl roots s (mapNewPage s r va flags).2 s.alloc.1 ∧
      (PageReady s r va → MapsOne roots s (mapNewPage s r va flags).2 r va (s.alloc.1 ||| flags)) ∧
      (¬PageReady s r va → SamePhys roots s (mapNewPage s r va flags).2) := by
  obtain ⟨hempty, -⟩ | ⟨i, -, -, hi, hne, herase⟩ := Vm.alloc_lowest h.used_zero
  · rw [hempty] at hfree
    exact absurd hfree Finset.not_nonempty_empty
  obtain rfl : s.alloc.1 / 4096 = i := by omega
  obtain heq | ⟨-, hfresh, hext⟩ := Vm.alloc_cases h.used_zero
  · rw [heq] at hne
    exact absurd rfl hne
  have haddr : pteAddr s.alloc.1 = s.alloc.1 :=
    Nat.div_mul_cancel (Nat.dvd_of_mod_eq_zero hfresh.aligned)
  rw [mapNewPage, if_neg hne]
  -- the state in which the frame is taken and cleared
  set u := s.alloc.2.setPage s.alloc.1 fun _ => 0 with hu
  have hext' : s.Ext u := hext.setPage fun hused => (hfresh.not_used hused).elim
  have hfresh' : s.Fresh u s.alloc.1 := ⟨hfresh.not_used, hfresh.used⟩
  have hloose := h.loose_of_fresh hext' hfresh'
  have hmap := vmmMapPageIn_spec (h.ext hext') hr va (haddr.symm ▸ hloose) hflags
  have hgrow := TablesGrow.of_ext h hext'
  have htake := vmmMapPageIn_takesTables (h.ext hext') hr va s.alloc.1 flags
  have hfreeu : u.freePages = s.freePages.erase (s.alloc.1 / 4096) := herase
  obtain ⟨hu', hsame⟩ := h.walkable.ext hext'
  obtain ⟨-, heffect⟩ := hu'.vmmMapPageIn hr va s.alloc.1 flags
  have hready : (pageTableFor u r va flags).1 ≠ 0 ↔ PageReady s r va := by
    rw [hu'.pageTableFor_ne_zero hr, h.walkable.mappable_ext hr hext']
    exact (and_iff_right hfree).symm
  refine ⟨rfl, ⟨hmap.inv, ⟨hfresh.not_used, hmap.used _ hfresh'.used⟩, ?_,
    (hmap.data _ hloose.used hloose.not_table).1, fun a ha => hmap.used a (hext'.used a ha),
    fun a ha hta => ?_, fun a ha => htake.keep a (hgrow.isTable ha),
    htake.total.trans (Vm.totalPages_alloc s), hfreeu ▸ htake.subset, fun i hi hne hnot => ?_⟩,
    fun hpage => ?_, fun hpage => ?_⟩
  · rw [(hmap.data _ hloose.used hloose.not_table).2, hu, Vm.mem_setPage_self]
  · obtain ⟨hta', hmem⟩ := hgrow.data a ha hta
    obtain ⟨hta'', hmem'⟩ := hmap.data a (hext'.used a ha) hta'
    exact ⟨hta'', hmem'.trans hmem⟩
  · exact htake.table i (hfreeu ▸ Finset.mem_erase.2 ⟨hne, hi⟩) hnot
  · rw [if_neg (hready.2 hpage), haddr] at heffect
    intro r' v hr'
    rw [heffect r' v hr', hsame r' v hr']
  · rw [if_pos (not_not.1 fun hz => hpage (hready.1 hz))] at heffect
    exact fun r' v hr' => (heffect r' v hr').trans (hsame r' v hr')

/-! ## The loops -/

/-- One iteration of a loop that maps new pages. -/
def newPage (cr3 flags : ℕ) (s : Vm) (va : ℕ) : Vm := (mapNewPage s cr3 va flags).2

theorem pagesFrom_append (va n : ℕ) : pagesFrom va (n + 1) = pagesFrom va n ++ [va + n * 4096] := by
  rw [pagesFrom, pagesFrom, List.range_succ, List.map_append, List.map_singleton]

/-- The state in which the loop comes to the page number `k`. -/
def loopState (cr3 flags va : ℕ) (s : Vm) (k : ℕ) : Vm := Run.run (newPage cr3 flags) s (pagesFrom va k)

theorem loopState_succ (cr3 flags va : ℕ) (s : Vm) (k : ℕ) :
    loopState cr3 flags va s (k + 1) = newPage cr3 flags (loopState cr3 flags va s k) (va + k * 4096) := by
  rw [loopState, pagesFrom_append, Run.run_append]
  rfl

theorem pagesFrom_add (va j m : ℕ) :
    pagesFrom va (j + m) = pagesFrom va j ++ pagesFrom (va + j * 4096) m := by
  induction m with
  | zero => exact (List.append_nil _).symm
  | succ m ih =>
    rw [← Nat.add_assoc, pagesFrom_append, ih, pagesFrom_append, List.append_assoc, Nat.add_mul,
      Nat.add_assoc]

/-- A condition on the loop, page by page. -/
theorem admits_pagesFrom {ok : Vm → ℕ → Prop} {cr3 flags va n : ℕ} :
    Run.Admits (newPage cr3 flags) ok s (pagesFrom va n) ↔
      ∀ k < n, ok (loopState cr3 flags va s k) (va + k * 4096) := by
  induction n with
  | zero => exact iff_of_true trivial fun k hk => absurd hk (Nat.not_lt_zero k)
  | succ n ih =>
    rw [pagesFrom_append, Run.admits_append, ih, Nat.forall_lt_succ_right]
    exact and_congr_right fun _ => and_iff_left trivial

/-- A loop maps new pages at `ps` in the address space `r`: what was allocated stays so and keeps its
contents, and other addresses have the translation they had. -/
structure AddsPages (K : Kernel) (excl : Prop) (roots : ℕ → Prop) (s s' : Vm) (r : ℕ) (ps : List ℕ) :
    Prop where
  inv : FrameInv K excl roots s'
  used : ∀ a, s.Used a → s'.Used a
  data : ∀ a, s.Used a → ¬IsTable s.mem roots a → ¬IsTable s'.mem roots a ∧ s'.mem a = s.mem a
  keep : ∀ a, IsTable s.mem roots a → IsTable s'.mem roots a
  total : s'.pmm.totalPages = s.pmm.totalPages
  free : s'.freePages ⊆ s.freePages
  phys : ∀ r' v, roots r' → (r' = r → ∀ p ∈ ps, pagePath v ≠ pagePath p) →
    physAddr s'.mem r' v = physAddr s.mem r' v

theorem AddsPages.refl (h : FrameInv K excl roots s) (r : ℕ) (ps : List ℕ) :
    AddsPages K excl roots s s r ps :=
  ⟨h, fun _ ha => ha, fun _ _ ht => ⟨ht, rfl⟩, fun _ ha => ha, rfl, Finset.Subset.refl _,
    fun _ _ _ _ => rfl⟩

theorem AddsPages.trans {s' s'' : Vm} {ps qs : List ℕ} (h : AddsPages K excl roots s s' r ps)
    (h' : AddsPages K excl roots s' s'' r qs) : AddsPages K excl roots s s'' r (ps ++ qs) where
  inv := h'.inv
  used a ha := h'.used a (h.used a ha)
  data a ha ht := by
    obtain ⟨ht', hmem⟩ := h.data a ha ht
    obtain ⟨ht'', hmem'⟩ := h'.data a (h.used a ha) ht'
    exact ⟨ht'', hmem'.trans hmem⟩
  keep a ha := h'.keep a (h.keep a ha)
  total := h'.total.trans h.total
  free := h'.free.trans h.free
  phys r' v hr' hv := by
    rw [h'.phys r' v hr' fun heq p hp => hv heq p (List.mem_append_right ps hp),
      h.phys r' v hr' fun heq p hp => hv heq p (List.mem_append_left qs hp)]

theorem addsPages_newPage (h : FrameInv K excl roots s) (hr : roots r) {flags : ℕ} (hflags : flags < 4096)
    (va : ℕ) : AddsPages K excl roots s (newPage r flags s va) r [va] := by
  obtain hempty | hfree := s.freePages.eq_empty_or_nonempty
  · rw [newPage, mapNewPage_empty h.used_zero hempty]
    exact .refl h r [va]
  · obtain ⟨-, hclears, hmaps, hsame⟩ := mapNewPage_free h hr hfree va hflags
    refine ⟨hclears.inv, hclears.used, hclears.data, hclears.keep, hclears.total,
      hclears.free.trans (Finset.erase_subset _ _), fun r' v hr' hv => ?_⟩
    by_cases hready : PageReady s r va
    · rw [newPage, hmaps hready r' v hr', if_neg]
      exact fun hc => hv hc.1 va List.mem_cons_self hc.2
    · exact hsame hready r' v hr'

/-- The run lemma for the loops. -/
theorem addsPages_run (h : FrameInv K excl roots s) (hr : roots r) {flags : ℕ} (hflags : flags < 4096)
    (ps : List ℕ) : AddsPages K excl roots s (Run.run (newPage r flags) s ps) r ps := by
  induction ps generalizing s with
  | nil => exact .refl h r []
  | cons p ps ih =>
    have hstep := addsPages_newPage h hr hflags p
    exact hstep.trans (ih hstep.inv)

/-- What the loop does from its page number `j` on. -/
theorem addsPages_loopState (h : FrameInv K excl roots s) (hr : roots r) {flags : ℕ} (hflags : flags < 4096)
    (va j m : ℕ) : AddsPages K excl roots (loopState r flags va s j) (loopState r flags va s (j + m)) r
      (pagesFrom (va + j * 4096) m) := by
  rw [loopState, loopState, pagesFrom_add, Run.run_append]
  exact addsPages_run (addsPages_run h hr hflags _).inv hr hflags _

/-- The kernel reaches its frames in every state in which a loop over the pages `ps` comes to a page, and when
it ends. (What an iteration does before it writes the entry of its page makes no user entry.) -/
def LoopReaches (D roots : ℕ → Prop) (cr3 flags : ℕ) (s : Vm) (ps : List ℕ) : Prop :=
  ∀ qs, qs <+: ps → KernelReaches D roots (Run.run (newPage cr3 flags) s qs).mem

/-- The loop does not hide the frames that it uses itself, if no page is asked for at their addresses. -/
theorem loopReaches {D : ℕ → Prop} {flags : ℕ} {ps : List ℕ} (h : DirectInv K excl D roots s) (hr : roots r)
    (hflags : flags < 4096) (hD : ∀ p ∈ ps, ¬D (pageOf p)) : LoopReaches D roots r flags s ps := by
  intro qs hqs
  suffices hrun : DirectInv K excl D roots (Run.run (newPage r flags) s qs) from hrun.kernelReaches
  -- The induction is over the pages that have been mapped so far.
  replace hD : ∀ p ∈ qs, ¬D (pageOf p) := fun p hp => hD p (hqs.subset hp)
  clear hqs
  induction qs generalizing s with
  | nil => exact h
  | cons p qs ih =>
    rw [List.forall_mem_cons] at hD
    exact ih (mapNewPage_spec h hr hflags hD.1).1 hD.2

/-- The loops stop at the first page without a frame. As no frame is released, going on would change
nothing. -/
theorem mapNewPages_eq_run (h : FrameInv K excl roots s) (hr : roots r) {flags : ℕ} (hflags : flags < 4096)
    (n va : ℕ) : (mapNewPages r flags n va s).2 = Run.run (newPage r flags) s (pagesFrom va n) := by
  induction n generalizing s va with
  | zero => rfl
  | succ n ih =>
    rw [mapNewPages, pagesFrom_succ, Run.run_cons]
    obtain hempty | hfree := s.freePages.eq_empty_or_nonempty
    · have hskip : ∀ ps, Run.run (newPage r flags) s ps = s := by
        intro ps
        induction ps with
        | nil => rfl
        | cons p ps ihp => rw [Run.run_cons, newPage, mapNewPage_empty h.used_zero hempty, ihp]
      rw [newPage, mapNewPage_empty h.used_zero hempty, if_neg Bool.false_ne_true, hskip]
    · rw [if_pos (mapNewPage_free h hr hfree va hflags).1]
      exact ih (addsPages_newPage h hr hflags va).inv (va + 4096)

/-- Every page takes a frame. -/
theorem mapNewPages_card (h : FrameInv K excl roots s) (hr : roots r) {flags : ℕ} (hflags : flags < 4096)
    {n va : ℕ} (hok : (mapNewPages r flags n va s).1 = true) : n ≤ s.freePages.card := by
  induction n generalizing s va with
  | zero => exact Nat.zero_le _
  | succ n ih =>
    rw [mapNewPages] at hok
    obtain ⟨hempty, -⟩ | ⟨i, hi, -, haddr, -⟩ := Vm.alloc_lowest h.used_zero
    · rw [mapNewPage_empty h.used_zero hempty, if_neg Bool.false_ne_true] at hok
      cases hok
    · obtain ⟨htrue, hclears, -⟩ := mapNewPage_free h hr ⟨i, hi⟩ va hflags
      rw [if_pos htrue] at hok
      have hdiv : s.alloc.1 / 4096 = i := by omega
      have hle := Finset.card_le_card hclears.free
      rw [hdiv, Finset.card_erase_of_mem hi] at hle
      have hpos := Finset.card_pos.2 ⟨i, hi⟩
      have := ih hclears.inv hok
      omega

end

/-- The first address space of the example machine has no user pages. -/
theorem directInv_demoSpace (D : ℕ → Prop) : DirectInv demoKernel True D (· = 7 * 4096) demoSpace where
  toFrameInv := frameInv_demoSpace
  clear r p e hr he := by
    obtain ⟨-, -, pdpt, pd, hb⟩ := created_demo
    rw [created_demo_eq] at hb
    subst hr
    have hleaf := he.1
    rw [hb.leafAt_eq_none] at hleaf
    cases hleaf

end PlantOS.Task
