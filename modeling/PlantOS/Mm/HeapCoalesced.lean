import PlantOS.Mm.HeapRun

/-!
# Fragmentation of the kernel heap

The block list of every state of a run is coalesced, so a range of the heap that meets no live allocation
lies in one free block. `kmalloc` looks at every block, and hence fails only if no such range has room for
the rounded size and a header; when nothing is allocated there is one block, as after `heap_init`.

Reference: `mm/heap.c`.
-/

namespace PlantOS.Mm

open Word BlockHeap

/-- The byte belongs to a live block or to its header. -/
def HeapRun.Covered (s : HeapRun) (x : ℕ) : Prop :=
  ∃ p ∈ s.live, p - 32 ≤ x ∧ x < p + (s.heap.mem (p - 32)).size

section

variable {mem : ℕ → HeapBlock} {prev a stop : ℕ} {bs : List Blk}

/-- The block behind a free block is allocated. -/
theorem seg_next_allocated (h : Seg mem prev a bs 0 stop) (hc : Coalesced bs) {x : ℕ × Blk}
    (hx : x ∈ place 32 a bs) (hfree : x.2.free = true) (hnext : (mem x.1).next ≠ 0) :
    (mem (mem x.1).next).isFree = false := by
  induction bs generalizing prev a with
  | nil => cases hx
  | cons b bs ih =>
    obtain ⟨hhead, hbs⟩ := coalesced_cons.1 hc
    obtain rfl | hx := List.mem_cons.1 hx
    · cases bs with
      | nil =>
        rw [h.1] at hnext
        exact absurd rfl hnext
      | cons c bs =>
        have hlink : (mem a).next = a + 32 + b.size := by
          rw [h.1]
          rfl
        rw [hlink, h.2.1]
        exact (hhead c rfl).resolve_left fun hb => Bool.false_ne_true (hb.symm.trans hfree)
    · exact ih h.2 hbs hx

end

section

variable {s : HeapRun} {bs : List Blk}

/-- The blocks of the list that are not free are the live ones. -/
theorem HeapRun.Rep.covered (hs : s.Rep bs) {x : ℕ × Blk} (hx : x ∈ place 32 s.heap.heapStart bs)
    (hb : x.2.free = false) {y : ℕ} (hlo : x.1 ≤ y) (hhi : y < x.1 + 32 + x.2.size) : s.Covered y := by
  have hmem := (seg_mem hs.heap.seg hx).2.1
  refine ⟨x.1 + 32, (hs.live _).2 ⟨x.1, ?_, rfl⟩, ?_⟩
  · exact List.mem_map.2 ⟨x, List.mem_filter.2 ⟨hx, by simp [hb]⟩, rfl⟩
  · rw [Nat.add_sub_cancel, show (s.heap.mem x.1).size = x.2.size from congrArg Blk.size hmem]
    exact ⟨hlo, hhi⟩

/-- `kmalloc` fails only if no range without live bytes has room for the block. -/
theorem HeapRun.Rep.kmalloc_null (hs : s.Rep bs) (hc : Coalesced bs) {size lo hi : ℕ} {h' : Heap}
    (hsize : size ≠ 0) (hnull : kmalloc s.heap size = some (0, h')) (hlo : s.heap.heapStart ≤ lo)
    (hhi : hi ≤ s.heap.heapStart + s.heap.heapTotalSize) (hgap : ∀ x, lo ≤ x → x < hi → ¬s.Covered x) :
    hi - lo < kmallocAlign size + 32 := by
  obtain hlt | hle := Nat.lt_or_ge lo hi
  swap
  · omega
  obtain ⟨hsmall, -⟩ | ⟨xs, b, ys, h'', -, -, -, hsome, -⟩ := kmalloc_spec hs.heap size
  · rw [← hs.heap.extent_eq] at hhi
    have happart : ∀ x ∈ place 32 s.heap.heapStart bs, x.2.free = false →
        hi ≤ x.1 ∨ x.1 + 32 + x.2.size ≤ lo := by
      intro x hx hxf
      by_contra hmeet
      push Not at hmeet
      exact hgap (max lo x.1) (le_max_left ..) (max_lt hlt hmeet.1)
        (hs.covered hx hxf (le_max_right ..) (max_lt hmeet.2 (by omega)))
    obtain ⟨b, hb, hfree, hfit⟩ := hc.gap_le hlo hlt hhi happart (by decide)
    have := (hsmall.resolve_left hsize) b hb hfree
    omega
  · have heq := congrArg Prod.fst (Option.some.inj (hnull.symm.trans hsome))
    dsimp only at heq
    omega

end

/-- The kernel heap does not fragment needlessly. In every state that calls of `kmalloc` and `kfree` reach
from `heap_init`, no block behind a free block is free, `kmalloc` of a size up to 2^63 returns `NULL` only if
every range of the heap without a byte of a live block or its header is shorter than the rounded size and a
header, and if nothing is live the heap is one free block of the initial size. -/
theorem heap_coalesced {kernelEnd : ℕ} {mem : ℕ → HeapBlock} {pmm : Pmm} {ops : List HeapOp}
    (hk : 0 < kernelEnd) (hk' : kernelEnd < 2 ^ 63) (hp : pmm.totalPages ≤ 2 ^ 52)
    (hops : Run.AdmitsM heapStep HeapOp.Ok ⟨(heapInit kernelEnd mem pmm).1, ∅⟩ ops) :
    ∃ s blocks, Run.runM heapStep ⟨(heapInit kernelEnd mem pmm).1, ∅⟩ ops = some s ∧
      HeapTiled s.heap s.live blocks ∧
      (∀ a ∈ blocks, (s.heap.mem a).isFree = true → (s.heap.mem a).next ≠ 0 →
        (s.heap.mem (s.heap.mem a).next).isFree = false) ∧
      (∀ size h', 1 ≤ size → size ≤ 2 ^ 63 → kmalloc s.heap size = some (0, h') →
        ∀ lo hi, s.heap.heapStart ≤ lo → hi ≤ s.heap.heapStart + s.heap.heapTotalSize →
          (∀ x, lo ≤ x → x < hi → ¬s.Covered x) → hi - lo < (size + 15) / 16 * 16 + 32) ∧
      (s.live = ∅ → blocks = [s.heap.heapStart] ∧ (s.heap.mem s.heap.heapStart).isFree = true ∧
        (s.heap.mem s.heap.heapStart).size = heapInitialPages * 4096 - 32) := by
  -- Every operation keeps the extent, and that no two neighbours are free.
  have hstep : ∀ s op, (∃ bs, HeapRun.Rep s bs ∧ extent 32 bs = 8388608 ∧ Coalesced bs) → HeapOp.Ok s op →
      ∃ s', heapStep s op = some s' ∧ ∃ bs, HeapRun.Rep s' bs ∧ extent 32 bs = 8388608 ∧ Coalesced bs := by
    rintro s op ⟨bs, hs, hext, hc⟩ hop
    obtain ⟨s', bs', hstep, hs', hext', hc'⟩ := hs.step hop
    exact ⟨s', hstep, bs', hs', hext'.trans hext, hc' hc⟩
  obtain ⟨s, hrun, bs, hs, hext, hc⟩ := Run.runM_invariant hstep
    ⟨_, HeapRun.Rep.init hk hk' hp, rfl, List.isChain_singleton _⟩ hops
  refine ⟨s, _, hrun, hs.tiled, fun a ha hfree hnext => ?_, ?_, fun hlive => ?_⟩
  · obtain ⟨x, hx, rfl⟩ := List.mem_map.1 ha
    have hblk := (seg_mem hs.heap.seg hx).2.1
    exact seg_next_allocated hs.heap.seg hc hx ((congrArg Blk.free hblk).symm.trans hfree) hnext
  · intro size h' hpos hle hnull lo hi hlo hhi hgap
    have halign : kmallocAlign size = (size + 15) / 16 * 16 := by
      rw [kmallocAlign, wrap_of_lt (n := size + 15) (by push_cast; rfl) (by omega)]
    rw [← halign]
    exact hs.kmalloc_null hc (by omega) hnull hlo hhi hgap
  · -- no block is live, so all are free
    have hfree : ∀ b ∈ bs, b.free = true := by
      intro b hb
      by_contra hbf
      obtain ⟨x, hx⟩ := exists_mem_place 32 hb s.heap.heapStart
      obtain ⟨p, hp, -⟩ := hs.covered hx (Bool.eq_false_iff.2 hbf) (Nat.le_refl x) (by simp only; omega)
      rw [hlive] at hp
      exact Finset.notMem_empty p hp
    obtain ⟨b, rfl⟩ := hc.eq_singleton hs.heap.ne_nil hfree
    have hb := hs.heap.seg.1
    rw [extent_cons, extent_nil] at hext
    refine ⟨rfl, ?_, ?_⟩
    · rw [hb]
      exact hfree b List.mem_cons_self
    · rw [hb, heapInitialPages]
      dsimp only
      omega

/-- Two allocations that are freed in the order of their calls, on a machine with 64 MB. -/
theorem heap_coalesced_freed :
    ∃ s, Run.runM heapStep
        ⟨(heapInit 0x300000 (fun _ => ⟨0, false, 0, 0, 0⟩) ⟨fun _ => false, 16384, 0⟩).1, ∅⟩
        [.kmalloc 100, .kmalloc 200, .kfree 3149856, .kfree 3150000] = some s ∧
      s.live = ∅ ∧ (s.heap.mem s.heap.heapStart).size = 2048 * 4096 - 32 := by
  obtain ⟨s, blocks, hrun, -, -, -, hempty⟩ := @heap_coalesced 0x300000 (fun _ => ⟨0, false, 0, 0, 0⟩)
    ⟨fun _ => false, 16384, 0⟩ [.kmalloc 100, .kmalloc 200, .kfree 3149856, .kfree 3150000] (by decide)
    (by decide) (by decide) (by decide)
  have hlive : (Run.runM heapStep
      ⟨(heapInit 0x300000 (fun _ => ⟨0, false, 0, 0, 0⟩) ⟨fun _ => false, 16384, 0⟩).1, ∅⟩
      [.kmalloc 100, .kmalloc 200, .kfree 3149856, .kfree 3150000]).any (fun s => s.live = ∅) := by
    decide +kernel
  rw [hrun] at hlive
  have hnil : s.live = ∅ := by simpa using hlive
  exact ⟨s, hrun, hnil, (hempty hnil).2.2⟩

end PlantOS.Mm
