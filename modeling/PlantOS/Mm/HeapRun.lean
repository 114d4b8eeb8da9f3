import PlantOS.Mm.HeapInvariant

/-!
# Runs of the kernel heap

A run starts from `heap_init` and takes calls of `kmalloc` and `kfree`, together with stores of the
callers into memory they own. The ghost set `live` holds the pointers handed out and not freed since.
Every such run returns, and the block list tiles the heap region in every state it reaches.
-/

namespace PlantOS.Mm

open Word BlockHeap

/-- The heap and the pointers that are live. -/
structure HeapRun where
  heap : Heap
  live : Finset ℕ

/-- The steps of a run. `store p junk` stands for stores into the payload at `p`, after which any word
there may read as `junk`. -/
inductive HeapOp where
  | kmalloc (size : ℕ)
  | kfree (ptr : ℕ)
  | store (ptr : ℕ) (junk : ℕ → HeapBlock)

/-- One step of a run; `none` if the call does not return. -/
def heapStep (s : HeapRun) : HeapOp → Option HeapRun
  | .kmalloc size => (kmalloc s.heap size).map fun r =>
      ⟨r.2, if r.1 = 0 then s.live else insert r.1 s.live⟩
  | .kfree ptr => (kfree s.heap ptr).map fun h => ⟨h, s.live.erase ptr⟩
  | .store ptr junk => some
      ⟨{ s.heap with mem := fun a =>
          if a + 32 ≤ ptr ∨ ptr + (s.heap.mem (ptr - 32)).size ≤ a then s.heap.mem a else junk a },
        s.live⟩

/-- Sizes are 64-bit; `kfree` takes `NULL` or a live pointer; callers store into live payloads. -/
def HeapOp.Ok (s : HeapRun) : HeapOp → Prop
  | .kmalloc size => size < 2 ^ 64
  | .kfree ptr => ptr = 0 ∨ ptr ∈ s.live
  | .store ptr _ => ptr ∈ s.live

instance (s : HeapRun) : DecidablePred (HeapOp.Ok s)
  | .kmalloc size => inferInstanceAs (Decidable (size < 2 ^ 64))
  | .kfree ptr => inferInstanceAs (Decidable (ptr = 0 ∨ ptr ∈ s.live))
  | .store ptr _ => inferInstanceAs (Decidable (ptr ∈ s.live))

/-! ## What the invariant says -/

/-- The links starting at `a` visit exactly the given blocks, and `prev` is the inverse of `next`. -/
def Linked (mem : ℕ → HeapBlock) : (prev a : ℕ) → List ℕ → Prop
  | _, a, [] => a = 0
  | prev, a, x :: xs => a = x ∧ x ≠ 0 ∧ (mem x).prev = prev ∧ Linked mem x (mem x).next xs

/-- The block list of `h`, at the addresses `blocks`, tiles the heap; `live` are the payloads of the
blocks that are not free. -/
structure HeapTiled (h : Heap) (live : Finset ℕ) (blocks : List ℕ) : Prop where
  linked : Linked h.mem 0 h.heapStart blocks
  nonempty : blocks ≠ []
  next_eq : ∀ a ∈ blocks, (h.mem a).next = 0 ∨ (h.mem a).next = a + 32 + (h.mem a).size
  last_ends : ∀ a ∈ blocks, (h.mem a).next = 0 →
    a + 32 + (h.mem a).size = h.heapStart + h.heapTotalSize
  magic : ∀ a ∈ blocks, (h.mem a).magic = heapMagic
  live_iff : ∀ p, p ∈ live ↔ ∃ a ∈ blocks, (h.mem a).isFree = false ∧ p = a + 32
  disjoint : ∀ p ∈ live, ∀ q ∈ live, p ≠ q →
    p + (h.mem (p - 32)).size ≤ q ∨ q + (h.mem (q - 32)).size ≤ p
  aligned : ∀ p ∈ live, p % 16 = 0
  used : h.heapUsed = ((blocks.filter fun a => !(h.mem a).isFree).map fun a => (h.mem a).size).sum
  count : h.heapAllocCount = (blocks.filter fun a => !(h.mem a).isFree).length

/-- The addresses of the blocks of a layout. -/
def blockAddrs (a : ℕ) (bs : List Blk) : List ℕ := (place 32 a bs).map Prod.fst

/-- A header read as a block. -/
def HeapBlock.blk (b : HeapBlock) : Blk := ⟨b.size, b.isFree⟩

section Seg

variable {mem : ℕ → HeapBlock} {prev a stop : ℕ} {bs : List Blk}

theorem linked_of_seg (h : Seg mem prev a bs 0 stop) (ha : 0 < a) :
    Linked mem prev (if bs = [] then 0 else a) (blockAddrs a bs) := by
  induction bs generalizing prev a with
  | nil => simp [Linked, blockAddrs, place]
  | cons b bs ih =>
    have := ih h.2 (by omega)
    refine ⟨by simp, by simp only; omega, by rw [h.1], ?_⟩
    rw [h.1]
    exact this

/-- The header at each block's address. -/
theorem seg_mem (h : Seg mem prev a bs 0 stop) {x : ℕ × Blk} (hx : x ∈ place 32 a bs) :
    (mem x.1).magic = heapMagic ∧ (mem x.1).blk = x.2 ∧
      ((mem x.1).next = 0 ∧ x.1 + 32 + x.2.size = stop ∨ (mem x.1).next = x.1 + 32 + x.2.size) := by
  induction bs generalizing prev a with
  | nil => simp [place] at hx
  | cons b bs ih =>
    simp only [place, List.mem_cons] at hx
    rcases hx with rfl | hx
    · refine ⟨by rw [h.1], by rw [h.1]; rfl, ?_⟩
      rw [h.1]
      by_cases hbs : bs = []
      · subst hbs
        exact .inl ⟨by simp, h.2⟩
      · exact .inr (by simp [hbs])
    · exact ih h.2 hx

theorem map_blk_of_seg (h : Seg mem prev a bs 0 stop) :
    (blockAddrs a bs).map (fun x => (mem x).blk) = bs := by
  induction bs generalizing prev a with
  | nil => rfl
  | cons b bs ih =>
    simp only [blockAddrs, place, List.map_cons, List.cons.injEq]
    exact ⟨by rw [h.1]; rfl, ih h.2⟩

end Seg

/-- Block addresses are aligned if all sizes are. -/
theorem place_aligned {a : ℕ} {bs : List Blk} (ha : a % 16 = 0) (hbs : ∀ b ∈ bs, b.size % 16 = 0)
    {x : ℕ × Blk} (hx : x ∈ place 32 a bs) : x.1 % 16 = 0 := by
  induction bs generalizing a with
  | nil => simp [place] at hx
  | cons b bs ih =>
    have hb := hbs b (by simp)
    simp only [place, List.mem_cons] at hx
    rcases hx with rfl | hx
    · exact ha
    · exact ih (by omega) (fun c hc => hbs c (by simp [hc])) hx

/-- The heap represents the blocks `bs`, and `live` are its payloads. -/
structure HeapRun.Rep (s : HeapRun) (bs : List Blk) : Prop where
  heap : HeapRep s.heap bs
  live : ∀ p, p ∈ s.live ↔ ∃ a ∈ liveAddrs 32 s.heap.heapStart bs, p = a + 32

/-- The invariant of a run. -/
def HeapRun.Inv (s : HeapRun) : Prop := ∃ bs, s.Rep bs

/-- The representation invariant yields the tiling of the heap region. -/
theorem HeapRun.Rep.tiled {s : HeapRun} {bs : List Blk} (hs : s.Rep bs) :
    HeapTiled s.heap s.live (blockAddrs s.heap.heapStart bs) := by
  obtain ⟨hr, hlive⟩ := hs
  have hstart := hr.start_le
  have hmem : ∀ a ∈ blockAddrs s.heap.heapStart bs,
      ∃ b, (a, b) ∈ place 32 s.heap.heapStart bs := by
    intro a ha
    simpa [blockAddrs] using ha
  have hhead : ∀ a b, (a, b) ∈ place 32 s.heap.heapStart bs →
      (s.heap.mem a).size = b.size ∧ (s.heap.mem a).isFree = b.free := by
    intro a b hab
    have := (seg_mem hr.seg hab).2.1
    exact ⟨congrArg Blk.size this, congrArg Blk.free this⟩
  -- a live pointer is the payload of a placed block
  have hplaced : ∀ p, p ∈ s.live ↔
      ∃ a b, (a, b) ∈ place 32 s.heap.heapStart bs ∧ b.free = false ∧ p = a + 32 := by
    intro p
    simp only [hlive, liveAddrs, List.mem_map, List.mem_filter]
    constructor
    · rintro ⟨_, ⟨⟨a, b⟩, ⟨hab, hb⟩, rfl⟩, rfl⟩
      exact ⟨a, b, hab, by simpa using hb, rfl⟩
    · rintro ⟨a, b, hab, hb, rfl⟩
      exact ⟨a, ⟨(a, b), ⟨hab, by simp [hb]⟩, rfl⟩, rfl⟩
  refine ⟨?_, ?_, ?_, ?_, ?_, ?_, ?_, ?_, ?_, ?_⟩
  · have := linked_of_seg hr.seg (by omega)
    rwa [if_neg hr.ne_nil] at this
  · obtain ⟨b, bs, rfl⟩ := List.exists_cons_of_ne_nil hr.ne_nil
    simp [blockAddrs, place]
  · intro a ha
    obtain ⟨b, hab⟩ := hmem a ha
    rw [(hhead a b hab).1]
    exact (seg_mem hr.seg hab).2.2.imp_left And.left
  · intro a ha h0
    obtain ⟨b, hab⟩ := hmem a ha
    rw [(hhead a b hab).1]
    rcases (seg_mem hr.seg hab).2.2 with ⟨-, hend⟩ | hnext
    · exact hend
    · simp only at hnext
      omega
  · intro a ha
    obtain ⟨b, hab⟩ := hmem a ha
    exact (seg_mem hr.seg hab).1
  · intro p
    rw [hplaced]
    constructor
    · rintro ⟨a, b, hab, hb, rfl⟩
      exact ⟨a, List.mem_map.mpr ⟨_, hab, rfl⟩, by rw [(hhead a b hab).2, hb], rfl⟩
    · rintro ⟨a, ha, hfree, rfl⟩
      obtain ⟨b, hab⟩ := hmem a ha
      exact ⟨a, b, hab, by rw [← (hhead a b hab).2, hfree], rfl⟩
  · intro p hp q hq hne
    obtain ⟨a, b, hab, -, rfl⟩ := (hplaced p).mp hp
    obtain ⟨c, d, hcd, -, rfl⟩ := (hplaced q).mp hq
    rw [Nat.add_sub_cancel, Nat.add_sub_cancel, (hhead a b hab).1, (hhead c d hcd).1]
    have hsep := place_disjoint 32 hab hcd (by simp only [ne_eq, Prod.mk.injEq]; omega)
    simp only at hsep
    omega
  · intro p hp
    obtain ⟨a, b, hab, -, rfl⟩ := (hplaced p).mp hp
    have := place_aligned hr.start_aligned hr.sizes hab
    simp only at this
    omega
  · rw [hr.used]
    conv_lhs => rw [← map_blk_of_seg hr.seg]
    rw [usedBytes, List.filter_map, List.map_map]
    rfl
  · rw [hr.count]
    conv_lhs => rw [← map_blk_of_seg hr.seg]
    rw [allocs, List.filter_map, List.length_map]
    rfl

/-! ## Steps and runs -/

/-- Stores into live payloads reach no header. -/
theorem HeapRep.store {h : Heap} {xs ys : List Blk} {b : Blk} (hr : HeapRep h (xs ++ b :: ys))
    (mem' : ℕ → HeapBlock)
    (hmem : ∀ a, a ≤ h.heapStart + extent 32 xs ∨ h.heapStart + extent 32 xs + 32 + b.size ≤ a →
      mem' a = h.mem a) :
    HeapRep { h with mem := mem' } (xs ++ b :: ys) := by
  have hseg := hr.seg
  obtain ⟨hb, hys⟩ := (seg_append.mp hseg).2
  refine { hr with seg := ?_ }
  show Seg mem' 0 h.heapStart (xs ++ b :: ys) 0 (h.heapStart + h.heapTotalSize)
  refine seg_replace hseg (by simp) (by simp) (fun a _ ha => hmem a (.inl (by omega))) ⟨?_, ?_⟩
  · rw [hmem _ (.inl (Nat.le_refl _))]
    exact hb
  · exact seg_frame hys fun a ha _ => hmem a (.inr ha)

/-- A step returns. It moves no boundary of the region and leaves no neighbouring free blocks if there were
none. -/
theorem HeapRun.Rep.step {s : HeapRun} {bs : List Blk} (hs : s.Rep bs) {op : HeapOp} (hop : op.Ok s) :
    ∃ s' bs', heapStep s op = some s' ∧ s'.Rep bs' ∧ extent 32 bs' = extent 32 bs ∧
      (Coalesced bs → Coalesced bs') := by
  obtain ⟨hr, hlive⟩ := hs
  have hstart := hr.start_le
  cases op with
  | kmalloc size =>
    -- Nothing fits, or a free block is carved and its address becomes live.
    rcases kmalloc_spec hr size with ⟨-, hnone⟩ | ⟨xs, b, ys, h', rfl, hfree, -, hsome, hs', hr'⟩
    · exact ⟨s, bs, by simp [heapStep, hnone], ⟨hr, hlive⟩, rfl, id⟩
    · refine ⟨⟨h', insert (s.heap.heapStart + extent 32 xs + 32) s.live⟩, _, ?_, ⟨hr', fun p => ?_⟩, ?_,
        fun hc => hc.carve hfree _ _⟩
      · simp only [heapStep, hsome, Option.map_some]
        rw [if_neg (by omega)]
      · rw [Finset.mem_insert, hlive, hs']
        simp only [liveAddrs_append, liveAddrs_cons, hfree, if_true, List.nil_append, liveAddrs_carve,
          extent_carve, List.mem_append, List.mem_singleton, ← Nat.add_assoc]
        aesop
      · rw [extent_append, extent_append, extent_carve, extent_append, extent_cons]
  | kfree ptr =>
    rcases hop with rfl | hptr
    · refine ⟨⟨s.heap, s.live.erase 0⟩, bs, by simp [heapStep, kfree], ⟨hr, fun p => ?_⟩, rfl, id⟩
      rw [Finset.mem_erase, hlive]
      refine and_iff_right_of_imp ?_
      rintro ⟨a, -, hp⟩
      omega
    · obtain ⟨a, ha, rfl⟩ := (hlive ptr).mp hptr
      obtain ⟨xs, b, ys, rfl, hb, rfl⟩ := exists_of_mem_liveAddrs 32 ha
      obtain ⟨h', hfree, hs', hr'⟩ := kfree_spec hr hb
      refine ⟨⟨h', s.live.erase (s.heap.heapStart + extent 32 xs + 32)⟩, _, by simp [heapStep, hfree],
        ⟨hr', fun p => ?_⟩, (release_spec 32 xs ys b 0).1, fun hc => hc.release⟩
      rw [Finset.mem_erase, hlive, hs', (release_spec 32 xs ys b _).2.1]
      simp only [liveAddrs_append, liveAddrs_cons, hb, Bool.false_eq_true, if_false,
        List.mem_append, List.mem_singleton]
      -- Two live blocks do not overlap, so only the address of this one goes.
      constructor
      · rintro ⟨hne, a, hx | rfl | hy, rfl⟩
        · exact ⟨a, .inl hx, rfl⟩
        · exact absurd rfl hne
        · exact ⟨a, .inr hy, rfl⟩
      · rintro ⟨a, hx | hy, rfl⟩
        · have := (liveAddrs_bounds 32 hx).2
          exact ⟨by omega, a, .inl hx, rfl⟩
        · have := (liveAddrs_bounds 32 hy).1
          exact ⟨by omega, a, .inr (.inr hy), rfl⟩
  | store ptr junk =>
    obtain ⟨a, ha, rfl⟩ := (hlive ptr).mp hop
    obtain ⟨xs, b, ys, rfl, hb, rfl⟩ := exists_of_mem_liveAddrs 32 ha
    have hsize : (s.heap.mem (s.heap.heapStart + extent 32 xs)).size = b.size := by
      rw [(seg_append.mp hr.seg).2.1]
    refine ⟨_, _, rfl, ⟨hr.store _ fun x hx => ?_, hlive⟩, rfl, id⟩
    rw [Nat.add_sub_cancel, hsize]
    exact if_pos (hx.imp (by omega) id)

/-- A call of `kmalloc` or `kfree`, or a store of a caller, returns and keeps the invariant. -/
theorem HeapRun.Inv.step {s : HeapRun} (hs : s.Inv) {op : HeapOp} (hop : op.Ok s) :
    ∃ s', heapStep s op = some s' ∧ s'.Inv := by
  obtain ⟨bs, hrep⟩ := hs
  obtain ⟨s', bs', hstep, hrep', -⟩ := hrep.step hop
  exact ⟨s', hstep, bs', hrep'⟩

/-- Nothing wraps in the computation of the heap's address. -/
theorem heapPlacement_eq {kernelEnd totalPages : ℕ} (hk : kernelEnd < 2 ^ 63)
    (hp : totalPages ≤ 2 ^ 52) :
    heapPlacement kernelEnd totalPages
      = (kernelEnd + 4095) / 4096 * 4096 + ((totalPages + 7) / 8 + 4095) / 4096 * 4096 := by
  have h1 : wrap 64 ((totalPages : ℤ) + 7) = totalPages + 7 := wrap_of_lt (by omega) (by omega)
  have h2 : wrap 64 ((kernelEnd : ℤ) + 4096 - 1) = kernelEnd + 4095 :=
    wrap_of_lt (by omega) (by omega)
  have h3 : wrap 64 ((((totalPages + 7) / 8 : ℕ) : ℤ) + 4096 - 1) = (totalPages + 7) / 8 + 4095 :=
    wrap_of_lt (by omega) (by omega)
  simp only [heapPlacement, h1, h2, h3]
  exact wrap_of_lt (by push_cast; rfl) (by omega)

/-- `heap_init` leaves one free block that covers the heap. -/
theorem HeapRun.Rep.init {kernelEnd : ℕ} {mem : ℕ → HeapBlock} {pmm : Pmm} (hk : 0 < kernelEnd)
    (hk' : kernelEnd < 2 ^ 63) (hp : pmm.totalPages ≤ 2 ^ 52) :
    HeapRun.Rep ⟨(heapInit kernelEnd mem pmm).1, ∅⟩ [⟨8388576, true⟩] := by
  have hplace : 4096 ≤ heapPlacement kernelEnd pmm.totalPages ∧
      heapPlacement kernelEnd pmm.totalPages % 16 = 0 ∧
      heapPlacement kernelEnd pmm.totalPages + 8388608 < 2 ^ 64 := by
    rw [heapPlacement_eq hk' hp]
    omega
  obtain ⟨hlow, halign, hhigh⟩ := hplace
  have htotal : (heapInit kernelEnd mem pmm).1.heapTotalSize = 8388608 := by
    simp [heapInit, heapInitialPages]
  have hstart : (heapInit kernelEnd mem pmm).1.heapStart = heapPlacement kernelEnd pmm.totalPages := by
    simp only [heapInit]
  refine ⟨⟨⟨?_, ?_⟩, ?_, ?_, ?_, ?_, ?_, ?_, ?_, ?_⟩, fun p => ?_⟩
  · simp only [heapInit, heapInitialPages, Function.update_self, if_true]
  · rw [hstart, htotal, Seg]
    show heapPlacement kernelEnd pmm.totalPages + 32 + 8388576 = _
    omega
  · rw [hstart]
    exact hlow
  · rw [hstart]
    exact halign
  · rw [htotal]
    omega
  · rw [hstart, htotal]
    exact hhigh
  · simp
  · simp [heapInit, usedBytes_cons]
  · simp [heapInit, allocs_cons]
  · simp only [heapInit]
  · simp [liveAddrs, place]

/-- Every run of `kmalloc` and `kfree` from `heap_init` returns, and the block list tiles the heap
region: the links visit adjacent blocks up to the end of the region, payloads of live allocations are
disjoint and aligned, and the statistics count the blocks that are not free. -/
theorem heap_tiled {kernelEnd : ℕ} {mem : ℕ → HeapBlock} {pmm : Pmm} {ops : List HeapOp}
    (hk : 0 < kernelEnd) (hk' : kernelEnd < 2 ^ 63) (hp : pmm.totalPages ≤ 2 ^ 52)
    (hops : Run.AdmitsM heapStep HeapOp.Ok ⟨(heapInit kernelEnd mem pmm).1, ∅⟩ ops) :
    ∃ s, Run.runM heapStep ⟨(heapInit kernelEnd mem pmm).1, ∅⟩ ops = some s ∧
      ∃ blocks, HeapTiled s.heap s.live blocks := by
  have hstep : ∀ s op, HeapRun.Inv s → HeapOp.Ok s op → ∃ s', heapStep s op = some s' ∧ s'.Inv :=
    fun _ _ hs hop => hs.step hop
  obtain ⟨s, hrun, bs, hrep⟩ := Run.runM_invariant hstep ⟨_, HeapRun.Rep.init hk hk' hp⟩ hops
  exact ⟨s, hrun, _, hrep.tiled⟩

/-- Two allocations, of which the first is freed, on a machine with 64 MB. -/
theorem heap_tiled_alloc_free :
    ∃ s, Run.runM heapStep
        ⟨(heapInit 0x300000 (fun _ => ⟨0, false, 0, 0, 0⟩) ⟨fun _ => false, 16384, 0⟩).1, ∅⟩
        [.kmalloc 100, .kmalloc (2 ^ 64 - 1), .kfree 3149856] = some s ∧
      ∃ blocks, HeapTiled s.heap s.live blocks :=
  heap_tiled (by decide) (by decide) (by decide) (by decide)

end PlantOS.Mm
