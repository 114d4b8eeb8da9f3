import PlantOS.Mm.VmmDestroy
import PlantOS.Mm.VmmEnough

/-!
# The frames that are taken

The effect of the page-table functions on the set of free frames: `get_or_create_table` takes the frame of the
table that it makes and no other, and so `vmm_map_page_in` takes frames for page tables only.
-/

namespace PlantOS.Mm

section

variable {K : Kernel} {excl : Prop} {s : Vm} {roots : ℕ → Prop} {r : ℕ}

theorem Vm.totalPages_alloc (s : Vm) : s.alloc.2.pmm.totalPages = s.pmm.totalPages := by
  rw [Vm.alloc, pmmAllocPage]
  split <;> rfl

theorem Vm.mem_freePages_free {a i : ℕ} :
    i ∈ (s.free a).freePages ↔ i ∈ s.freePages ∨ (i < s.pmm.totalPages ∧ i = a / 4096) := by
  rw [mem_freePages, mem_freePages, totalPages_free, Vm.free, pmmFreePage]
  dsimp only
  split_ifs with hc
  · simp only [Pmm.drop, Function.update_apply]
    by_cases hi : i = a / 4096
    · simp [hi, hc.1]
    · simp [hi]
  · constructor
    · exact .inl
    · rintro (hi | ⟨hlt, rfl⟩)
      · exact hi
      · exact ⟨hlt, by simpa [hlt] using hc⟩

/-- The frames taken from `s` to `s'` are page tables, and the tables that were there are kept. -/
structure TakesTables (roots : ℕ → Prop) (s s' : Vm) : Prop where
  keep : ∀ a, IsTable s.mem roots a → IsTable s'.mem roots a
  total : s'.pmm.totalPages = s.pmm.totalPages
  subset : s'.freePages ⊆ s.freePages
  table : ∀ i ∈ s.freePages, i ∉ s'.freePages → IsTable s'.mem roots (i * 4096)

theorem TakesTables.trans {s' s'' : Vm} (h : TakesTables roots s s') (h' : TakesTables roots s' s'') :
    TakesTables roots s s'' where
  keep a ha := h'.keep a (h.keep a ha)
  total := h'.total.trans h.total
  subset := h'.subset.trans h.subset
  table i hi hnot := by
    by_cases hi' : i ∈ s'.freePages
    · exact h'.table i hi' hnot
    · exact h'.keep _ (h.table i hi hi')

theorem TablesGrow.isTable {s' : Vm} {a : ℕ} (h : TablesGrow K excl roots s s') (ha : IsTable s.mem roots a) :
    IsTable s'.mem roots a := by
  obtain ⟨r, p, hr, hp⟩ := ha
  exact ⟨r, p, hr, h.table r p a hr hp⟩

theorem getOrCreateTable_takesTables {q : List ℕ} {t i flags : ℕ} (h : FrameInv K excl roots s)
    (hr : roots r) (ht : tableAt s.mem r q = some t) (hi : i < 512) (hq : q.length < 3)
    (hlt : flags < 4096) (hpres : Present flags) (hhuge : ¬Huge flags) :
    TakesTables roots s (getOrCreateTable s t i flags).2 := by
  obtain ⟨hgrow, hres⟩ := getOrCreateTable_spec h hr ht hi hq hlt hpres hhuge
  have hout := getOrCreateTable_outcome h.used_zero t i hlt
  generalize getOrCreateTable s t i flags = R at hgrow hres hout ⊢
  cases hout with
  | found => exact ⟨fun _ => hgrow.isTable, rfl, subset_rfl, fun j hj hnot => absurd hj hnot⟩
  | full _ _ hgains =>
    have hsame := hgains.freePages_none
    exact ⟨fun _ => hgrow.isTable, hgains.total, hsame.subset, fun j hj hnot => absurd (hsame ▸ hj) hnot⟩
  | @made u g w _ hgains hne _ =>
    refine ⟨fun _ => hgrow.isTable, hgains.total, fun j hj => (hgains.mem_freePages.1 hj).1,
      fun j hj hnot => ?_⟩
    have hj' : j * 4096 = g := by
      by_contra hjg
      exact hnot (hgains.mem_freePages.2 ⟨hj, mt Finset.mem_singleton.1 hjg⟩)
    rw [hj']
    exact ⟨r, i :: q, hr, hres.resolve_left hne⟩

/-- Looking for the page table of an address takes frames for tables only. -/
theorem pageTableFor_takesTables (h : FrameInv K excl roots s) (hr : roots r) (virt flags : ℕ) :
    TakesTables roots s (pageTableFor s r virt flags).2 := by
  have hwalk := pageTableFor_walk (s := s) (r := r) (I := FrameInv K excl roots)
    (R := TakesTables roots) TakesTables.trans (fun hu ht hi hq hlt hp hh => by
      obtain ⟨hgrow, hres⟩ := getOrCreateTable_spec hu hr ht hi hq hlt hp hh
      exact ⟨hgrow.inv, getOrCreateTable_takesTables hu hr ht hi hq hlt hp hh, hres⟩) h virt flags
  exact hwalk.2.1

/-- `vmm_map_page_in` takes frames for tables only. -/
theorem vmmMapPageIn_takesTables (h : FrameInv K excl roots s) (hr : roots r) (virt phys flags : ℕ) :
    TakesTables roots s (vmmMapPageIn s r virt phys flags) := by
  have htake := pageTableFor_takesTables h hr virt flags
  obtain ⟨hwalk, -, hres⟩ := h.walkable.pageTableFor hr virt flags
  rw [vmmMapPageIn_eq]
  split_ifs with hz
  · exact htake
  · have hkeep := (tableAt_setLeaf (k := virt / 2 ^ 12 % 512) (e := pteAddr phys ||| flags) hwalk.forest hr
      (hres.resolve_left hz) rfl).2
    have htable : ∀ a, IsTable (pageTableFor s r virt flags).2.mem roots a →
        IsTable ((pageTableFor s r virt flags).2.set (pageTableFor s r virt flags).1 (virt / 2 ^ 12 % 512)
          (pteAddr phys ||| flags)).mem roots a := by
      rintro a ⟨r', p, hr', hp⟩
      exact ⟨r', p, hr', (hkeep r' p hr').trans hp⟩
    exact ⟨fun a ha => htable a (htake.keep a ha), htake.total, htake.subset,
      fun i hi hnot => htable _ (htake.table i hi hnot)⟩

end

end PlantOS.Mm
