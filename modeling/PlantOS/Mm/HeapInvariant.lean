import PlantOS.Mm.Heap

/-!
# The kernel heap refines a list of blocks

`Seg` says that a stretch of memory holds the headers of a list of blocks, doubly linked and laid out
without gaps. `kmalloc` and `kfree` then act on that list as `BlockHeap.carve` and `BlockHeap.release`,
and the representation invariant of the heap follows for every run.
-/

namespace PlantOS.Mm

open Word BlockHeap

/-! ## Headers in memory -/

/-- Memory holds the headers of the blocks `bs` from address `a` up to `stop`. The first one's `prev` is
`prev`, the last one's `next` is `nxt`. -/
def Seg (mem : ℕ → HeapBlock) : (prev a : ℕ) → List Blk → (nxt stop : ℕ) → Prop
  | _, a, [], _, stop => a = stop
  | prev, a, b :: bs, nxt, stop =>
    mem a = ⟨heapMagic, b.free, b.size, if bs = [] then nxt else a + 32 + b.size, prev⟩ ∧
      Seg mem a (a + 32 + b.size) bs nxt stop

/-- The address of the last block of a layout, or `prev` if there is none. -/
def lastAddr : (prev a : ℕ) → List Blk → ℕ
  | prev, _, [] => prev
  | _, a, b :: bs => lastAddr a (a + 32 + b.size) bs

variable {mem mem' : ℕ → HeapBlock}

theorem seg_stop {prev a nxt stop : ℕ} {bs : List Blk} (h : Seg mem prev a bs nxt stop) :
    stop = a + extent 32 bs := by
  induction bs generalizing prev a with
  | nil => simpa [Seg] using h.symm
  | cons b bs ih =>
    have := ih h.2
    rw [extent_cons]
    omega

theorem seg_append {prev a nxt stop : ℕ} {xs ys : List Blk} :
    Seg mem prev a (xs ++ ys) nxt stop ↔
      Seg mem prev a xs (if ys = [] then nxt else a + extent 32 xs) (a + extent 32 xs) ∧
        Seg mem (lastAddr prev a xs) (a + extent 32 xs) ys nxt stop := by
  induction xs generalizing prev a with
  | nil => simp [Seg, lastAddr]
  | cons x xs ih =>
    have e : a + 32 + x.size + extent 32 xs = a + extent 32 (x :: xs) := by
      rw [extent_cons]
      omega
    simp only [List.cons_append, Seg, lastAddr, ih, e, and_assoc]
    refine and_congr_left' ?_
    cases xs <;> cases ys <;> simp [Nat.add_assoc]

/-- A segment survives a change of memory outside of it. -/
theorem seg_frame {prev a nxt stop : ℕ} {bs : List Blk} (h : Seg mem prev a bs nxt stop)
    (hmem : ∀ x, a ≤ x → x < stop → mem' x = mem x) : Seg mem' prev a bs nxt stop := by
  induction bs generalizing prev a with
  | nil => exact h
  | cons b bs ih =>
    have hstop := seg_stop h
    rw [extent_cons] at hstop
    refine ⟨by rw [hmem a (Nat.le_refl a) (by omega)]; exact h.1, ih h.2 fun x hx hxs => ?_⟩
    exact hmem x (by omega) hxs

/-- Setting the `prev` field of the first block moves the segment behind another block. -/
theorem seg_relink {prev q a nxt stop : ℕ} {bs : List Blk} (h : Seg mem prev a bs nxt stop)
    (hfirst : bs ≠ [] → mem' a = { mem a with prev := q })
    (hmem : ∀ x, a < x → x < stop → mem' x = mem x) : Seg mem' q a bs nxt stop := by
  cases bs with
  | nil => exact h
  | cons b bs =>
    refine ⟨by rw [hfirst (by simp), h.1], seg_frame h.2 fun x hx hxs => hmem x (by omega) hxs⟩

/-- Replace everything behind the blocks `xs`. -/
theorem seg_replace {prev a stop : ℕ} {xs ys zs : List Blk} (h : Seg mem prev a (xs ++ ys) 0 stop)
    (hys : ys ≠ []) (hzs : zs ≠ []) (hmem : ∀ x, a ≤ x → x < a + extent 32 xs → mem' x = mem x)
    (hseg : Seg mem' (lastAddr prev a xs) (a + extent 32 xs) zs 0 stop) :
    Seg mem' prev a (xs ++ zs) 0 stop := by
  rw [seg_append, if_neg hys] at h
  rw [seg_append, if_neg hzs]
  exact ⟨seg_frame h.1 hmem, hseg⟩

/-! ## Allocation -/

/-- `h'` differs from `h` in memory only. -/
def Heap.MemOnly (h h' : Heap) : Prop := h' = { h with mem := h'.mem }

theorem Heap.MemOnly.trans {h₁ h₂ h₃ : Heap} (h12 : h₁.MemOnly h₂) (h23 : h₂.MemOnly h₃) :
    h₁.MemOnly h₃ := by
  unfold Heap.MemOnly at *
  rw [h12] at h23
  exact h23

theorem memOnly_write (h : Heap) (a : ℕ) (f : HeapBlock → HeapBlock) : h.MemOnly (h.write a f) := rfl

theorem memOnly_setPrev (h : Heap) (a p : ℕ) : h.MemOnly (h.setPrev a p) := by
  unfold Heap.setPrev
  split <;> rfl

theorem memOnly_kmallocSplit (h : Heap) (block size : ℕ) :
    h.MemOnly (kmallocSplit h block size) := by
  simp only [kmallocSplit]
  exact ((memOnly_write h _ _).trans (memOnly_setPrev _ _ _)).trans (memOnly_write _ _ _)

theorem write_mem (h : Heap) (a x : ℕ) (f : HeapBlock → HeapBlock) :
    (h.write a f).mem x = if x = a then f (h.mem a) else h.mem x := by
  simp only [Heap.write, Function.update_apply]

theorem setPrev_mem (h : Heap) (a p x : ℕ) :
    (h.setPrev a p).mem x = if x = a ∧ a ≠ 0 then { h.mem x with prev := p } else h.mem x := by
  unfold Heap.setPrev
  by_cases ha : a = 0
  · simp [ha]
  · by_cases hx : x = a
    · subst hx
      simp [ha, Heap.write]
    · simp [ha, hx, Heap.write]

/-- The memory after the split of `kmalloc`, for a next block that is neither of the two. -/
theorem kmallocSplit_mem {h : Heap} {block size : ℕ} (hsize : block + 32 + size < 2 ^ 64)
    (hnext : (h.mem block).next ≠ block) (hnew : (h.mem block).next ≠ block + 32 + size) (x : ℕ) :
    (kmallocSplit h block size).mem x =
      if x = block then { h.mem block with next := block + 32 + size, size := size }
      else if x = block + 32 + size then
        ⟨heapMagic, true, wrap 64 ((h.mem block).size - size - 32), (h.mem block).next, block⟩
      else if x = (h.mem block).next ∧ x ≠ 0 then { h.mem x with prev := block + 32 + size }
      else h.mem x := by
  have hn : wrap 64 ((block : ℤ) + 32 + size) = block + 32 + size :=
    wrap_of_lt (by omega) hsize
  have hb : block ≠ block + 32 + size := by omega
  simp only [kmallocSplit, write_mem, setPrev_mem, hn, if_neg hb]
  by_cases hx : x = block
  · simp [hx, hnext.symm]
  · by_cases hx' : x = block + 32 + size
    · simp [hx', hnew.symm, hb.symm]
    · by_cases hxn : x = (h.mem block).next
      · simp [hxn, hnext, hnew]
      · simp [hx, hx', hxn]

/-- `kmalloc`'s choice, carved out of the free block `b`. -/
theorem seg_kmallocTake {h : Heap} {start stop size : ℕ} {xs ys : List Blk} {b : Blk}
    (hseg : Seg h.mem 0 start (xs ++ b :: ys) 0 stop) (hstart : 4096 ≤ start) (hstop : stop < 2 ^ 64)
    (hsize : size ≤ b.size) :
    Seg (kmallocTake h (start + extent 32 xs) size).mem 0 start
        (xs ++ (carve 32 16 size b ++ ys)) 0 stop ∧
      (kmallocTake h (start + extent 32 xs) size).heapUsed
        = wrap 64 (h.heapUsed + usedBytes (carve 32 16 size b)) := by
  have hs := seg_stop hseg
  have hsplit := (seg_append.mp hseg).2
  set m := start + extent 32 xs with hm
  obtain ⟨hb, hys⟩ := hsplit
  have hey := seg_stop hys
  set lp := lastAddr 0 start xs
  have hguard : wrap 64 ((size : ℤ) + 32 + 16) = size + 48 := wrap_of_lt (by omega) (by omega)
  have hbs : (h.mem m).size = b.size := by rw [hb]
  by_cases hcut : size + 48 ≤ b.size
  · -- the block is split; `n` is the new header
    have hc : carve 32 16 size b = [⟨size, false⟩, ⟨b.size - size - 32, true⟩] := by
      rw [carve, if_pos (by omega)]
    have hnm : (h.mem m).next ≠ m := by rw [hb]; simp only; split <;> omega
    have hnn : (h.mem m).next ≠ m + 32 + size := by rw [hb]; simp only; split <;> omega
    have hmem := @kmallocSplit_mem h m size (by omega) hnm hnn
    have htake : ∀ x, (kmallocTake h m size).mem x
        = if x = m then { (kmallocSplit h m size).mem m with isFree := false }
          else (kmallocSplit h m size).mem x := by
      intro x
      simp only [kmallocTake, hguard, hbs, if_pos hcut, write_mem]
    have hrest : wrap 64 (((h.mem m).size : ℤ) - size - 32) = b.size - size - 32 :=
      wrap_of_lt (by omega) (by omega)
    have hat_m : (kmallocTake h m size).mem m
        = ⟨heapMagic, false, size, m + 32 + size, lp⟩ := by
      rw [htake, if_pos rfl, hmem, if_pos rfl, hb]
    have hoff : ∀ x, x ≠ m → (kmallocTake h m size).mem x = (kmallocSplit h m size).mem x :=
      fun x hx => by rw [htake, if_neg hx]
    have hat_n : (kmallocTake h m size).mem (m + 32 + size)
        = ⟨heapMagic, true, b.size - size - 32, (h.mem m).next, m⟩ := by
      rw [hoff _ (by omega), hmem, if_neg (by omega), if_pos rfl, hrest]
    refine ⟨seg_replace hseg (by simp) (by simp [hc]) (fun x hx hxm => ?_) ?_, ?_⟩
    · have hxn : x ≠ (h.mem m).next ∨ x = 0 := by rw [hb]; simp only; split <;> omega
      rw [hoff x (by omega), hmem, if_neg (by omega), if_neg (by omega), if_neg (by tauto)]
    · rw [hc]
      show Seg _ lp m (⟨size, false⟩ :: ⟨b.size - size - 32, true⟩ :: ys) 0 stop
      have e : m + 32 + size + 32 + (b.size - size - 32) = m + 32 + b.size := by omega
      refine ⟨by rw [hat_m]; simp, ?_, ?_⟩
      · rw [hat_n, hb, e]
      · rw [e]
        refine seg_relink hys (fun hne => ?_) fun x hx hxs => ?_
        · have hnext : (h.mem m).next = m + 32 + b.size := by rw [hb]; simp [hne]
          rw [hoff _ (by omega), hmem, if_neg (by omega), if_neg (by omega),
            if_pos ⟨hnext.symm, by omega⟩]
        · have hxn : x ≠ (h.mem m).next ∨ x = 0 := by rw [hb]; simp only; split <;> omega
          rw [hoff x (by omega), hmem, if_neg (by omega), if_neg (by omega), if_neg (by tauto)]
    · have hu : (kmallocTake h m size).heapUsed
          = wrap 64 (h.heapUsed + ((kmallocTake h m size).mem m).size) := by
        simp only [kmallocTake, hguard, hbs, if_pos hcut]
        rw [memOnly_kmallocSplit h m size]
        rfl
      rw [hu, hat_m, hc]
      simp [usedBytes_cons]
  · -- the whole block is taken
    have hc : carve 32 16 size b = [⟨b.size, false⟩] := by rw [carve, if_neg (by omega)]
    have htake : ∀ x, (kmallocTake h m size).mem x
        = if x = m then { h.mem m with isFree := false } else h.mem x := by
      intro x
      simp only [kmallocTake, hguard, hbs, if_neg hcut, write_mem]
    refine ⟨seg_replace hseg (by simp) (by simp [hc]) (fun x hx hxm => ?_) ?_, ?_⟩
    · rw [htake, if_neg (by omega)]
    · rw [hc]
      show Seg _ lp m (⟨b.size, false⟩ :: ys) 0 stop
      refine ⟨by rw [htake, if_pos rfl, hb], ?_⟩
      exact seg_frame hys fun x hx hxs => by rw [htake, if_neg (by omega)]
    · simp only [kmallocTake, hguard, hbs, if_neg hcut, write_mem, if_true]
      rw [hc]
      simp [usedBytes_cons, Heap.write]

/-- The walk of `kmalloc` finds a free block that is large enough, or there is none. -/
theorem kmallocLoop_spec {h : Heap} {prev a stop size fuel : ℕ} {bs : List Blk}
    (hseg : Seg h.mem prev a bs 0 stop) (ha : 0 < a) (hstop : stop < 2 ^ 64)
    (hfuel : bs.length < fuel) :
    ((∀ b ∈ bs, b.free = true → b.size < size) ∧
        kmallocLoop size fuel (if bs = [] then 0 else a) h = some (0, h.unlock)) ∨
      ∃ xs b ys, bs = xs ++ b :: ys ∧ b.free = true ∧ size ≤ b.size ∧
        kmallocLoop size fuel (if bs = [] then 0 else a) h
          = some (a + extent 32 xs + 32, (kmallocTake h (a + extent 32 xs) size).unlock) := by
  induction bs generalizing prev a fuel with
  | nil =>
    obtain ⟨fuel, rfl⟩ : ∃ f, fuel = f + 1 := ⟨fuel - 1, by simp at hfuel; omega⟩
    exact .inl ⟨by simp, by simp [kmallocLoop]⟩
  | cons b bs ih =>
    obtain ⟨fuel, rfl⟩ : ∃ f, fuel = f + 1 := ⟨fuel - 1, by simp at hfuel; omega⟩
    obtain ⟨hb, hbs⟩ := hseg
    have hstop' := seg_stop hbs
    have hmagic : (h.mem a).magic = heapMagic := by rw [hb]
    have hfree : (h.mem a).isFree = b.free := by rw [hb]
    have hbsize : (h.mem a).size = b.size := by rw [hb]
    have hnext : (h.mem a).next = if bs = [] then 0 else a + 32 + b.size := by rw [hb]
    rw [if_neg (by simp : ¬(b :: bs = []))]
    simp only [kmallocLoop, if_neg (by omega : ¬a = 0), hmagic, ne_eq, not_true_eq_false, if_false,
      hfree, hbsize, hnext]
    by_cases hfit : b.free = true ∧ size ≤ b.size
    · rw [if_pos hfit]
      refine .inr ⟨[], b, bs, rfl, hfit.1, hfit.2, ?_⟩
      have : wrap 64 ((a : ℤ) + 32) = a + 32 := wrap_of_lt (by omega) (by omega)
      simp [this]
    · rw [if_neg hfit]
      rcases ih hbs (by omega) (by simp at hfuel; omega) with
        ⟨hall, hnone⟩ | ⟨xs, c, ys, rfl, hcf, hcs, hres⟩
      · refine .inl ⟨fun c hc hcf => ?_, hnone⟩
        rcases List.mem_cons.1 hc with rfl | hc
        · exact not_le.1 fun hle => hfit ⟨hcf, hle⟩
        · exact hall c hc hcf
      · refine .inr ⟨b :: xs, c, ys, rfl, hcf, hcs, ?_⟩
        rw [hres]
        have e : a + 32 + b.size + extent 32 xs = a + extent 32 (b :: xs) := by
          rw [extent_cons]
          omega
        rw [e]

/-! ## Release -/

theorem memOnly_kfreeJoinNext (h : Heap) (block : ℕ) : h.MemOnly (kfreeJoinNext h block) := by
  simp only [kfreeJoinNext]
  split
  · exact ((memOnly_write h _ _).trans (memOnly_write _ _ _)).trans (memOnly_setPrev _ _ _)
  · rfl

theorem memOnly_kfreeJoinPrev (h : Heap) (block : ℕ) : h.MemOnly (kfreeJoinPrev h block) := by
  simp only [kfreeJoinPrev]
  split
  · exact ((memOnly_write h _ _).trans (memOnly_write _ _ _)).trans (memOnly_setPrev _ _ _)
  · rfl

/-- Coalescing the free block at `m` with its successor, both in memory and in the list. -/
theorem seg_kfreeJoinNext {h : Heap} {prev m stop : ℕ} {b : Blk} {ys : List Blk}
    (hseg : Seg h.mem prev m (⟨b.size, true⟩ :: ys) 0 stop) (hm : 0 < m) (hstop : stop < 2 ^ 64) :
    Seg (kfreeJoinNext h m).mem prev m ((joinNext 32 b ys).1 :: (joinNext 32 b ys).2) 0 stop ∧
      ∀ x < m, (kfreeJoinNext h m).mem x = h.mem x := by
  obtain ⟨hb, hys⟩ := hseg
  cases ys with
  | nil =>
    have hid : kfreeJoinNext h m = h := by simp [kfreeJoinNext, hb]
    rw [hid]
    exact ⟨⟨hb, hys⟩, fun _ _ => rfl⟩
  | cons y ys =>
    obtain ⟨hy, hzs⟩ := hys
    have hstop' := seg_stop hzs
    simp only at hb hy hzs hstop'
    set n := m + 32 + b.size with hn
    have hnext : (h.mem m).next = n := by rw [hb]; simp
    have hyfree : (h.mem n).isFree = y.free := by rw [hy]
    by_cases hfree : y.free
    · have hsize : wrap 64 (((h.mem m).size : ℤ) + (32 + ((h.mem n).size : ℕ)))
          = b.size + 32 + y.size := by
        rw [hb, hy]
        exact wrap_of_lt (by push_cast; omega) (by omega)
      have hnn : (h.mem n).next = if ys = [] then 0 else n + 32 + y.size := by rw [hy]
      have hmem : ∀ x, (kfreeJoinNext h m).mem x
          = if x = m then ⟨heapMagic, true, b.size + 32 + y.size, (h.mem n).next, prev⟩
            else if x = (h.mem n).next ∧ x ≠ 0 then { h.mem x with prev := m }
            else h.mem x := by
        intro x
        have hcond : n ≠ 0 ∧ (h.mem n).isFree = true := ⟨by omega, by rw [hyfree]; exact hfree⟩
        have hnm : n ≠ m := by omega
        have hnnm : (h.mem n).next ≠ m := by rw [hnn]; split <;> omega
        simp only [kfreeJoinNext, hnext]
        rw [if_pos hcond]
        simp only [write_mem, setPrev_mem, if_true, hsize, if_neg hnm]
        by_cases hx : x = m
        · simp [hx, hnnm.symm, hb]
        · by_cases hxn : x = (h.mem n).next
          · simp [hxn, hnnm]
          · simp [hx, hxn]
      have hj : joinNext 32 b (y :: ys) = (⟨b.size + 32 + y.size, true⟩, ys) := by
        simp [joinNext, hfree]
      have e : m + 32 + (b.size + 32 + y.size) = n + 32 + y.size := by omega
      rw [hj]
      refine ⟨⟨by rw [hmem, if_pos rfl, hnn, e], ?_⟩, fun x hx => ?_⟩
      · simp only
        rw [e]
        refine seg_relink hzs (fun hne => ?_) fun x hx hxs => ?_
        · rw [hmem, if_neg (by omega), if_pos ⟨by rw [hnn, if_neg hne], by omega⟩]
        · have hxn : ¬(x = (h.mem n).next ∧ x ≠ 0) := by rw [hnn]; split <;> omega
          rw [hmem, if_neg (by omega), if_neg hxn]
      · have hxn : ¬(x = (h.mem n).next ∧ x ≠ 0) := by rw [hnn]; split <;> omega
        rw [hmem, if_neg (by omega), if_neg hxn]
    · have hid : kfreeJoinNext h m = h := by
        simp only [kfreeJoinNext, hnext, hyfree, hfree, and_false, if_false, Bool.false_eq_true]
      have hj : joinNext 32 b (y :: ys) = (⟨b.size, true⟩, y :: ys) := by simp [joinNext, hfree]
      rw [hid, hj]
      exact ⟨⟨hb, hy, hzs⟩, fun _ _ => rfl⟩

/-- Coalescing the free block behind `xs` with its predecessor. -/
theorem seg_kfreeJoinPrev {h : Heap} {start stop : ℕ} {xs ys : List Blk} {b : Blk}
    (hseg : Seg h.mem 0 start (xs ++ b :: ys) 0 stop) (hstart : 0 < start)
    (hstop : stop < 2 ^ 64) :
    Seg (kfreeJoinPrev h (start + extent 32 xs)).mem 0 start (joinPrev 32 xs b ys) 0 stop := by
  rcases List.eq_nil_or_concat xs with rfl | ⟨xs, p, rfl⟩
  · -- there is no block before it
    have hid : kfreeJoinPrev h (start + extent 32 []) = h := by
      simp only [List.nil_append] at hseg
      simp [kfreeJoinPrev, hseg.1]
    rw [hid]
    exact hseg
  · rw [List.concat_eq_append] at hseg ⊢
    have hseg' : Seg h.mem 0 start (xs ++ p :: b :: ys) 0 stop := by simpa using hseg
    obtain ⟨hp, hbm, hys⟩ := (seg_append.mp hseg').2
    have hstop' := seg_stop hys
    set q := start + extent 32 xs with hq
    have em : start + extent 32 (xs ++ [p]) = q + 32 + p.size := by simp; omega
    rw [em]
    set m := q + 32 + p.size with hmdef
    have hprev : (h.mem m).prev = q := by rw [hbm]
    have hpfree : (h.mem q).isFree = p.free := by rw [hp]
    rw [joinPrev_concat]
    by_cases hfree : p.free
    · rw [if_pos hfree]
      have hnext : (h.mem m).next = if ys = [] then 0 else m + 32 + b.size := by rw [hbm]
      have hsize : wrap 64 (((h.mem q).size : ℤ) + (32 + ((h.mem m).size : ℕ)))
          = p.size + 32 + b.size := by
        rw [hp, hbm]
        exact wrap_of_lt (by push_cast; omega) (by omega)
      -- What the join writes: the header of `p`, and the back link behind `b`.
      have hmem : ∀ x, (kfreeJoinPrev h m).mem x
          = if x = q then { h.mem q with size := p.size + 32 + b.size, next := (h.mem m).next }
            else if x = (h.mem m).next ∧ x ≠ 0 then { h.mem x with prev := q }
            else h.mem x := by
        intro x
        have hcond : q ≠ 0 ∧ (h.mem q).isFree = true := ⟨by omega, by rw [hpfree]; exact hfree⟩
        have hmq : m ≠ q := by omega
        have hnq : (h.mem m).next ≠ q := by rw [hnext]; split <;> omega
        simp only [kfreeJoinPrev, hprev]
        rw [if_pos hcond]
        simp only [write_mem, setPrev_mem, if_true, hsize, if_neg hmq, hprev]
        by_cases hx : x = q
        · simp [hx, hnq.symm]
        · by_cases hxn : x = (h.mem m).next
          · simp [hxn, hnq]
          · simp [hx, hxn]
      refine seg_replace hseg' (by simp) (by simp) (fun x hx hxq => ?_) ?_
      · have hxn : ¬(x = (h.mem m).next ∧ x ≠ 0) := by rw [hnext]; split <;> omega
        rw [hmem, if_neg (by omega), if_neg hxn]
      · have e : q + 32 + (p.size + 32 + b.size) = m + 32 + b.size := by omega
        refine ⟨?_, ?_⟩
        · show (kfreeJoinPrev h m).mem q = _
          rw [hmem, if_pos rfl, hp, hnext, hfree]
          simp only
          rw [e]
        · show Seg _ q (q + 32 + (p.size + 32 + b.size)) ys 0 stop
          rw [e]
          refine seg_relink hys (fun hne => ?_) fun x hx hxs => ?_
          · rw [hmem, if_neg (by omega), if_pos ⟨by rw [hnext, if_neg hne], by omega⟩]
          · have hxn : ¬(x = (h.mem m).next ∧ x ≠ 0) := by rw [hnext]; split <;> omega
            rw [hmem, if_neg (by omega), if_neg hxn]
    · rw [if_neg hfree]
      have hid : kfreeJoinPrev h m = h := by
        simp only [kfreeJoinPrev, hprev, hpfree, hfree, and_false, if_false, Bool.false_eq_true]
      rw [hid]
      exact hseg'

/-! ## The representation invariant -/

/-- The heap represents the list of blocks `bs`. -/
structure HeapRep (h : Heap) (bs : List Blk) : Prop where
  seg : Seg h.mem 0 h.heapStart bs 0 (h.heapStart + h.heapTotalSize)
  start_le : 4096 ≤ h.heapStart
  start_aligned : h.heapStart % 16 = 0
  total_pos : 0 < h.heapTotalSize
  stop_lt : h.heapStart + h.heapTotalSize < 2 ^ 64
  sizes : ∀ b ∈ bs, b.size % 16 = 0
  used : h.heapUsed = usedBytes bs
  count : h.heapAllocCount = allocs bs
  unlocked : h.heapLock = false

namespace HeapRep

variable {h : Heap} {bs : List Blk}

theorem extent_eq (hr : HeapRep h bs) : extent 32 bs = h.heapTotalSize := by
  have := seg_stop hr.seg
  omega

theorem ne_nil (hr : HeapRep h bs) : bs ≠ [] := by
  rintro rfl
  have := hr.extent_eq
  have := hr.total_pos
  simp at *
  omega

theorem used_lt (hr : HeapRep h bs) : usedBytes bs < 2 ^ 64 := by
  have := usedBytes_le_extent 32 bs
  have := hr.extent_eq
  have := hr.stop_lt
  omega

theorem allocs_lt (hr : HeapRep h bs) : allocs bs < 2 ^ 64 := by
  have := allocs_le_length bs
  have := length_mul_le_extent 32 bs
  have := hr.extent_eq
  have := hr.stop_lt
  omega

end HeapRep

/-- Joining blocks keeps sizes multiples of 16. -/
theorem release_sizes {xs ys : List Blk} {b : Blk} (h : ∀ c ∈ xs ++ b :: ys, c.size % 16 = 0) :
    ∀ c ∈ release 32 xs b ys, c.size % 16 = 0 := by
  have hb := h b (by simp)
  have hnext : (joinNext 32 b ys).1.size % 16 = 0 ∧
      ∀ c ∈ (joinNext 32 b ys).2, c.size % 16 = 0 := by
    cases ys with
    | nil => simpa [joinNext] using hb
    | cons y ys =>
      have hy := h y (by simp)
      simp only [joinNext]
      split
      · exact ⟨by simp only; omega, fun c hc => h c (by simp [hc])⟩
      · exact ⟨hb, fun c hc => h c (by simp [List.mem_cons.mp hc])⟩
  intro c hc
  rcases List.eq_nil_or_concat xs with rfl | ⟨xs, p, rfl⟩
  · simp only [release, joinPrev_nil, List.mem_cons] at hc
    rcases hc with rfl | hc
    · exact hnext.1
    · exact hnext.2 c hc
  · rw [List.concat_eq_append] at h hc
    have hp := h p (by simp)
    rw [release, joinPrev_concat] at hc
    split at hc
    · simp only [List.mem_append, List.mem_cons] at hc
      rcases hc with hc | rfl | hc
      · exact h c (by simp [hc])
      · simp only
        omega
      · exact hnext.2 c hc
    · simp only [List.mem_append, List.mem_cons] at hc
      rcases hc with hc | rfl | rfl | hc
      · exact h c (by simp [hc])
      · exact hp
      · exact hnext.1
      · exact hnext.2 c hc

theorem Heap.unlock_locked {h : Heap} (hl : h.heapLock = false) :
    ({ h with heapLock := true } : Heap).unlock = h := by
  rw [Heap.unlock, ← hl]

/-- `kmalloc` returns; it hands out the block it carves from a free one that is large enough, or `NULL` if
there is none. -/
theorem kmalloc_spec {h : Heap} {bs : List Blk} (hr : HeapRep h bs) (size : ℕ) :
    ((size = 0 ∨ ∀ b ∈ bs, b.free = true → b.size < kmallocAlign size) ∧ kmalloc h size = some (0, h)) ∨
      ∃ xs b ys h', bs = xs ++ b :: ys ∧ b.free = true ∧ kmallocAlign size ≤ b.size ∧
        kmalloc h size = some (h.heapStart + extent 32 xs + 32, h') ∧
        h'.heapStart = h.heapStart ∧
        HeapRep h' (xs ++ (carve 32 16 (kmallocAlign size) b ++ ys)) := by
  by_cases hsize : size = 0
  · exact .inl ⟨.inl hsize, by simp [kmalloc, hsize]⟩
  -- The walk cannot run out of fuel: every block has a header, and all are in the heap.
  have hlen : bs.length < h.heapTotalSize / 32 + 1 := by
    have := length_mul_le_extent 32 bs
    have := hr.extent_eq
    omega
  have hstart := hr.start_le
  have hloop := @kmallocLoop_spec { h with heapLock := true } _ _ _ (kmallocAlign size) _ _
    hr.seg (by omega) hr.stop_lt hlen
  simp only [kmalloc, if_neg hsize, hr.unlocked, Bool.false_eq_true, if_false]
  rw [if_neg hr.ne_nil] at hloop
  rcases hloop with ⟨hall, hnone⟩ | ⟨xs, b, ys, rfl, hfree, hfit, hres⟩
  · -- no block fits, and only the lock was taken and released
    refine .inl ⟨.inr hall, hnone.trans ?_⟩
    rw [Heap.unlock_locked hr.unlocked]
  · refine .inr ⟨xs, b, ys, _, rfl, hfree, hfit, hres, ?_⟩
    obtain ⟨hseg, hused⟩ :=
      seg_kmallocTake (h := { h with heapLock := true }) hr.seg hr.start_le hr.stop_lt hfit
    set h' := kmallocTake { h with heapLock := true } (h.heapStart + extent 32 xs) (kmallocAlign size)
    have hfields : h'.heapStart = h.heapStart ∧ h'.heapTotalSize = h.heapTotalSize ∧
        h'.heapAllocCount = wrap 64 (h.heapAllocCount + 1) := by
      simp only [h', kmallocTake]
      split
      · rw [memOnly_kmallocSplit]
        exact ⟨rfl, rfl, rfl⟩
      · exact ⟨rfl, rfl, rfl⟩
    obtain ⟨hs, ht, hc⟩ := hfields
    have hused_lt := hr.used_lt
    have halloc_lt := hr.allocs_lt
    have hext := hr.extent_eq
    have hstop := hr.stop_lt
    have hal : kmallocAlign size % 16 = 0 := by simp [kmallocAlign]
    refine ⟨hs, ⟨?_, ?_, ?_, ?_, ?_, ?_, ?_, ?_, rfl⟩⟩
    · show Seg h'.mem 0 h'.heapStart _ 0 (h'.heapStart + h'.heapTotalSize)
      rw [hs, ht]
      exact hseg
    · exact hs.symm ▸ hr.start_le
    · exact hs.symm ▸ hr.start_aligned
    · exact ht.symm ▸ hr.total_pos
    · show h'.heapStart + h'.heapTotalSize < 2 ^ 64
      rw [hs, ht]
      exact hr.stop_lt
    · have hb16 := hr.sizes b (by simp)
      intro c hcm
      simp only [List.mem_append] at hcm
      rcases hcm with hcx | hcc | hcy
      · exact hr.sizes c (by simp [hcx])
      · simp only [carve] at hcc
        split at hcc
        · simp only [List.mem_cons, List.not_mem_nil, or_false] at hcc
          rcases hcc with rfl | rfl
          · exact hal
          · simp only
            omega
        · simp only [List.mem_cons, List.not_mem_nil, or_false] at hcc
          rw [hcc]
          exact hb16
      · exact hr.sizes c (by simp [hcy])
    · show h'.heapUsed = _
      -- The counters do not wrap, as they count bytes and blocks of the heap.
      rw [hused]
      have hcarve := usedBytes_le_extent 32 (carve 32 16 (kmallocAlign size) b)
      rw [extent_carve] at hcarve
      have hxs := usedBytes_le_extent 32 xs
      have hys := usedBytes_le_extent 32 ys
      rw [extent_append, extent_cons] at hext
      have h0 : h.heapUsed = usedBytes xs + usedBytes ys := by
        rw [hr.used]
        simp [usedBytes_cons, hfree]
      simp only [usedBytes_append]
      exact wrap_of_lt (by push_cast; omega) (by omega)
    · show h'.heapAllocCount = _
      have h0 : h.heapAllocCount = allocs xs + allocs ys := by
        rw [hr.count]
        simp [allocs_cons, hfree]
      have hlen := length_mul_le_extent 32 (xs ++ b :: ys)
      have hxs := allocs_le_length xs
      have hys := allocs_le_length ys
      rw [hc]
      simp only [allocs_append, allocs_carve]
      refine wrap_of_lt (by push_cast; omega) ?_
      simp only [List.length_append, List.length_cons] at hlen
      omega

/-- `kfree` of an allocated block returns and releases it. -/
theorem kfree_spec {h : Heap} {xs ys : List Blk} {b : Blk} (hr : HeapRep h (xs ++ b :: ys))
    (hb : b.free = false) :
    ∃ h', kfree h (h.heapStart + extent 32 xs + 32) = some h' ∧ h'.heapStart = h.heapStart ∧
      HeapRep h' (release 32 xs b ys) := by
  have hstart := hr.start_le
  have hstop := hr.stop_lt
  have hext := hr.extent_eq
  rw [extent_append, extent_cons] at hext
  obtain ⟨hbm, hys⟩ := (seg_append.mp hr.seg).2
  set m := h.heapStart + extent 32 xs with hm
  -- The header is found 32 bytes before the pointer.
  have hblock : wrap 64 (((m + 32 : ℕ) : ℤ) - 32) = m := wrap_of_lt (by omega) (by omega)
  set h₁ : Heap := { h.write m fun b => { b with isFree := true } with
    heapUsed := wrap 64 (h.heapUsed - (h.mem m).size)
    heapAllocCount := wrap 64 (h.heapAllocCount - 1) } with hh₁
  have hkfree : kfree h (m + 32) = some (kfreeJoinPrev (kfreeJoinNext h₁ m) m) := by
    have hmagic : (h.mem m).magic = heapMagic := by rw [hbm]
    have hlive : (h.mem m).isFree = false := by rw [hbm, hb]
    simp only [kfree, if_neg (by omega : ¬m + 32 = 0), hr.unlocked, hblock, hmagic, hlive, ne_eq,
      not_true_eq_false, Bool.false_eq_true, if_false]
    rfl
  have hmem₁ : ∀ x, h₁.mem x = if x = m then { h.mem m with isFree := true } else h.mem x :=
    fun x => write_mem h m x fun b => { b with isFree := true }
  -- First the block is marked, then it is joined with the next one, then with the one before it.
  have hseg₁ : Seg h₁.mem 0 h.heapStart (xs ++ ⟨b.size, true⟩ :: ys) 0
      (h.heapStart + h.heapTotalSize) := by
    refine seg_replace hr.seg (by simp) (by simp) (fun x hx hxm => ?_) ⟨?_, ?_⟩
    · rw [hmem₁, if_neg (by omega)]
    · rw [hmem₁, if_pos rfl, hbm]
    · exact seg_frame hys fun x hx hxs => by rw [hmem₁, if_neg (by omega)]
  obtain ⟨hseg₂, hlow⟩ :=
    seg_kfreeJoinNext (seg_append.mp hseg₁).2 (by omega : 0 < m) hr.stop_lt
  have hseg₃ := seg_kfreeJoinPrev
    (seg_replace hseg₁ (by simp) (by simp) (fun x hx hxm => hlow x hxm) hseg₂)
    (by omega) hr.stop_lt
  set h₂ := kfreeJoinPrev (kfreeJoinNext h₁ m) m with hh₂
  have honly : h₁.MemOnly h₂ := (memOnly_kfreeJoinNext h₁ m).trans (memOnly_kfreeJoinPrev _ m)
  have hfields : h₂.heapStart = h.heapStart ∧ h₂.heapTotalSize = h.heapTotalSize ∧
      h₂.heapUsed = wrap 64 (h.heapUsed - (h.mem m).size) ∧
      h₂.heapAllocCount = wrap 64 (h.heapAllocCount - 1) ∧ h₂.heapLock = h.heapLock := by
    rw [honly]
    exact ⟨rfl, rfl, rfl, rfl, rfl⟩
  obtain ⟨hs, ht, hu, hc, hl⟩ := hfields
  obtain ⟨-, -, hused, hallocs⟩ := release_spec 32 xs ys b 0
  refine ⟨h₂, hkfree, hs, ⟨?_, ?_, ?_, ?_, ?_, ?_, ?_, ?_, ?_⟩⟩
  · rw [hs, ht]
    exact hseg₃
  · rw [hs]; exact hr.start_le
  · rw [hs]; exact hr.start_aligned
  · rw [ht]; exact hr.total_pos
  · rw [hs, ht]; exact hr.stop_lt
  · exact release_sizes hr.sizes
  · have h0 := hr.used
    have hlt := hr.used_lt
    simp only [usedBytes_append, usedBytes_cons, hb, Bool.false_eq_true, if_false] at h0 hlt
    rw [hu, hused, hbm]
    exact wrap_of_lt (by push_cast; omega) (by omega)
  · have h0 := hr.count
    have hlt := hr.allocs_lt
    simp only [allocs_append, allocs_cons, hb, Bool.false_eq_true, if_false] at h0 hlt
    rw [hc, hallocs]
    exact wrap_of_lt (by push_cast; omega) (by omega)
  · rw [hl]; exact hr.unlocked

end PlantOS.Mm
