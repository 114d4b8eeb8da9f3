import Mathlib.Data.List.Chain
import Mathlib.Algebra.BigOperators.Group.List.Basic
import Mathlib.Algebra.GroupWithZero.Nat

/-!
# Boundary-tag heaps as lists of blocks

A heap region cut into blocks, in address order, each a header of `hdr` bytes followed by its data. The
region is determined by the list of blocks and its first address, so an allocator that keeps the list
tiled is a function on lists: `carve` replaces a free block by an allocated one and its remainder,
`release` frees a block and joins it with free neighbours. Both keep the list `Coalesced`, without
neighbouring free blocks; in such a list a range that meets no allocated block lies in a single block.
-/

namespace BlockHeap

/-- A block: the size of its data area and whether it is free. -/
structure Blk where
  size : ℕ
  free : Bool
deriving DecidableEq

variable (hdr : ℕ)

/-- The bytes covered by consecutive blocks, headers included. -/
def extent : List Blk → ℕ
  | [] => 0
  | b :: bs => hdr + b.size + extent bs

/-- The blocks laid out from address `a`. -/
def place : ℕ → List Blk → List (ℕ × Blk)
  | _, [] => []
  | a, b :: bs => (a, b) :: place (a + hdr + b.size) bs

/-- The addresses of the allocated blocks of a layout. -/
def liveAddrs (a : ℕ) (bs : List Blk) : List ℕ :=
  ((place hdr a bs).filter fun x => !x.2.free).map Prod.fst

/-- The total size of the allocated blocks. -/
def usedBytes (bs : List Blk) : ℕ := ((bs.filter fun b => !b.free).map Blk.size).sum

/-- The number of allocated blocks. -/
def allocs (bs : List Blk) : ℕ := (bs.filter fun b => !b.free).length

/-! ## Layouts -/

@[simp] theorem extent_nil : extent hdr [] = 0 := rfl

@[simp] theorem extent_cons (b : Blk) (bs : List Blk) :
    extent hdr (b :: bs) = hdr + b.size + extent hdr bs := rfl

@[simp] theorem extent_append (xs ys : List Blk) :
    extent hdr (xs ++ ys) = extent hdr xs + extent hdr ys := by
  induction xs with
  | nil => simp
  | cons x xs ih => simp only [List.cons_append, extent_cons, ih]; omega

theorem place_append (a : ℕ) (xs ys : List Blk) :
    place hdr a (xs ++ ys) = place hdr a xs ++ place hdr (a + extent hdr xs) ys := by
  induction xs generalizing a with
  | nil => simp [place]
  | cons x xs ih =>
    simp only [List.cons_append, place, ih, extent_cons]
    rw [show a + hdr + x.size + extent hdr xs = a + (hdr + x.size + extent hdr xs) by omega]

/-- A placed block lies inside the region. -/
theorem place_bounds {a : ℕ} {bs : List Blk} {x : ℕ × Blk} (hx : x ∈ place hdr a bs) :
    a ≤ x.1 ∧ x.1 + hdr + x.2.size ≤ a + extent hdr bs := by
  induction bs generalizing a with
  | nil => simp [place] at hx
  | cons b bs ih =>
    simp only [place, List.mem_cons] at hx
    rw [extent_cons]
    rcases hx with rfl | hx
    · exact ⟨Nat.le_refl _, by simp only; omega⟩
    · have := ih hx
      omega

/-- Placed blocks follow one another without overlap. -/
theorem place_pairwise (a : ℕ) (bs : List Blk) :
    (place hdr a bs).Pairwise fun x y => x.1 + hdr + x.2.size ≤ y.1 := by
  induction bs generalizing a with
  | nil => exact List.Pairwise.nil
  | cons b bs ih => exact List.Pairwise.cons (fun y hy => (place_bounds hdr hy).1) (ih _)

/-- Two placed blocks do not overlap. -/
theorem place_disjoint {a : ℕ} {bs : List Blk} {x y : ℕ × Blk} (hx : x ∈ place hdr a bs)
    (hy : y ∈ place hdr a bs) (hne : x ≠ y) :
    x.1 + hdr + x.2.size ≤ y.1 ∨ y.1 + hdr + y.2.size ≤ x.1 := by
  let R (x y : ℕ × Blk) : Prop := x.1 + hdr + x.2.size ≤ y.1 ∨ y.1 + hdr + y.2.size ≤ x.1
  have : Std.Symm R := ⟨fun _ _ h => h.symm⟩
  have hpw : (place hdr a bs).Pairwise R := (place_pairwise hdr a bs).imp Or.inl
  exact hpw.forall hx hy hne

theorem liveAddrs_append (a : ℕ) (xs ys : List Blk) :
    liveAddrs hdr a (xs ++ ys) = liveAddrs hdr a xs ++ liveAddrs hdr (a + extent hdr xs) ys := by
  simp [liveAddrs, place_append]

theorem liveAddrs_cons (a : ℕ) (b : Blk) (bs : List Blk) :
    liveAddrs hdr a (b :: bs)
      = (if b.free then [] else [a]) ++ liveAddrs hdr (a + hdr + b.size) bs := by
  cases hb : b.free <;> simp [liveAddrs, place, hb]

@[simp] theorem liveAddrs_nil (a : ℕ) : liveAddrs hdr a [] = [] := rfl

@[simp] theorem usedBytes_append (xs ys : List Blk) :
    usedBytes (xs ++ ys) = usedBytes xs + usedBytes ys := by simp [usedBytes]

theorem usedBytes_cons (b : Blk) (bs : List Blk) :
    usedBytes (b :: bs) = (if b.free then 0 else b.size) + usedBytes bs := by
  cases hb : b.free <;> simp [usedBytes, hb]

@[simp] theorem usedBytes_nil : usedBytes [] = 0 := rfl

@[simp] theorem allocs_append (xs ys : List Blk) : allocs (xs ++ ys) = allocs xs + allocs ys := by
  simp [allocs]

theorem allocs_cons (b : Blk) (bs : List Blk) :
    allocs (b :: bs) = (if b.free then 0 else 1) + allocs bs := by
  cases hb : b.free <;> simp [allocs, hb]; omega

@[simp] theorem allocs_nil : allocs [] = 0 := rfl

/-- An allocated address belongs to a block of the list. -/
theorem exists_of_mem_liveAddrs {a x : ℕ} {bs : List Blk} (hx : x ∈ liveAddrs hdr a bs) :
    ∃ xs b ys, bs = xs ++ b :: ys ∧ b.free = false ∧ x = a + extent hdr xs := by
  induction bs generalizing a with
  | nil => simp at hx
  | cons b bs ih =>
    rw [liveAddrs_cons, List.mem_append] at hx
    rcases hx with hx | hx
    · cases hb : b.free
      · exact ⟨[], b, bs, rfl, hb, by simpa [hb] using hx⟩
      · simp [hb] at hx
    · obtain ⟨xs, c, ys, rfl, hc, rfl⟩ := ih hx
      exact ⟨b :: xs, c, ys, rfl, hc, by rw [extent_cons]; omega⟩

/-- A block of the list has a place. -/
theorem exists_mem_place {bs : List Blk} {b : Blk} (hb : b ∈ bs) (a : ℕ) : ∃ x, (x, b) ∈ place hdr a bs := by
  induction bs generalizing a with
  | nil => cases hb
  | cons c bs ih =>
    obtain rfl | hb := List.mem_cons.1 hb
    · exact ⟨a, List.mem_cons_self⟩
    · obtain ⟨x, hx⟩ := ih hb (a + hdr + c.size)
      exact ⟨x, List.mem_cons_of_mem _ hx⟩

/-- Allocated addresses lie inside the region, headers included. -/
theorem liveAddrs_bounds {a x : ℕ} {bs : List Blk} (hx : x ∈ liveAddrs hdr a bs) :
    a ≤ x ∧ x + hdr ≤ a + extent hdr bs := by
  simp only [liveAddrs, List.mem_map, List.mem_filter] at hx
  obtain ⟨y, ⟨hy, -⟩, rfl⟩ := hx
  have := place_bounds hdr hy
  omega

/-- The number of blocks is bounded by the bytes they cover. -/
theorem length_mul_le_extent (bs : List Blk) : bs.length * hdr ≤ extent hdr bs := by
  induction bs with
  | nil => simp
  | cons b bs ih =>
    rw [extent_cons, List.length_cons, Nat.succ_mul]
    omega

theorem usedBytes_le_extent (bs : List Blk) : usedBytes bs ≤ extent hdr bs := by
  induction bs with
  | nil => simp
  | cons b bs ih =>
    rw [usedBytes_cons, extent_cons]
    split <;> omega

theorem allocs_le_length (bs : List Blk) : allocs bs ≤ bs.length := List.length_filter_le _ _

/-! ## Allocation -/

/-- An allocated block of `size` bytes cut from `b`; what is left becomes a free block if at least
`slack` bytes of data remain in it. -/
def carve (slack size : ℕ) (b : Blk) : List Blk :=
  if size + hdr + slack ≤ b.size then [⟨size, false⟩, ⟨b.size - size - hdr, true⟩]
  else [⟨b.size, false⟩]

variable {hdr} {slack size : ℕ} {b : Blk}

theorem extent_carve : extent hdr (carve hdr slack size b) = hdr + b.size := by
  unfold carve
  split
  · simp only [extent_cons, extent_nil]; omega
  · simp

theorem liveAddrs_carve (a : ℕ) : liveAddrs hdr a (carve hdr slack size b) = [a] := by
  unfold carve
  split <;> simp [liveAddrs_cons]

theorem allocs_carve : allocs (carve hdr slack size b) = 1 := by
  unfold carve
  split <;> simp [allocs_cons]

/-! ## Release -/

variable (hdr)

/-- The freed block `b` followed by `ys`, joined with a free successor. -/
def joinNext (b : Blk) : List Blk → Blk × List Blk
  | [] => (⟨b.size, true⟩, [])
  | y :: ys => if y.free then (⟨b.size + hdr + y.size, true⟩, ys) else (⟨b.size, true⟩, y :: ys)

/-- The free block `b` preceded by `xs` and followed by `ys`, joined with a free predecessor. -/
def joinPrev (xs : List Blk) (b : Blk) (ys : List Blk) : List Blk :=
  match xs.getLast? with
  | none => b :: ys
  | some p => if p.free then xs.dropLast ++ ⟨p.size + hdr + b.size, true⟩ :: ys else xs ++ b :: ys

/-- Freeing the block `b` between `xs` and `ys`. -/
def release (xs : List Blk) (b : Blk) (ys : List Blk) : List Blk :=
  joinPrev hdr xs (joinNext hdr b ys).1 (joinNext hdr b ys).2

@[simp] theorem joinPrev_nil (b : Blk) (ys : List Blk) : joinPrev hdr [] b ys = b :: ys := rfl

theorem joinPrev_concat (xs : List Blk) (p b : Blk) (ys : List Blk) :
    joinPrev hdr (xs ++ [p]) b ys
      = if p.free then xs ++ ⟨p.size + hdr + b.size, true⟩ :: ys else xs ++ p :: b :: ys := by
  simp [joinPrev]

/-- Joining and freeing move no allocated block and count none twice: anything that is additive over
blocks, blind to headers inside free space, is that of `xs` and `ys`. -/
theorem joinPrev_free {xs ys : List Blk} {b : Blk} (hb : b.free = true) (a : ℕ) :
    extent hdr (joinPrev hdr xs b ys) = extent hdr xs + (hdr + b.size) + extent hdr ys ∧
    liveAddrs hdr a (joinPrev hdr xs b ys)
      = liveAddrs hdr a xs ++ liveAddrs hdr (a + extent hdr xs + hdr + b.size) ys ∧
    usedBytes (joinPrev hdr xs b ys) = usedBytes xs + usedBytes ys ∧
    allocs (joinPrev hdr xs b ys) = allocs xs + allocs ys := by
  rcases List.eq_nil_or_concat xs with rfl | ⟨xs, p, rfl⟩
  · simp [liveAddrs_cons, usedBytes_cons, allocs_cons, hb]
  · rw [List.concat_eq_append, joinPrev_concat]
    split
    · rename_i hp
      refine ⟨by simp only [extent_append, extent_cons, extent_nil]; omega, ?_, ?_, ?_⟩
      · simp only [liveAddrs_append, liveAddrs_cons, hp, if_true, List.nil_append, extent_append,
          extent_cons, extent_nil, liveAddrs_nil, List.append_nil]
        congr 2
        omega
      · simp [usedBytes_cons, hp]
      · simp [allocs_cons, hp]
    · rename_i hp
      refine ⟨by simp only [extent_append, extent_cons, extent_nil]; omega, ?_, ?_, ?_⟩
      · simp only [liveAddrs_append, liveAddrs_cons, hp, hb, extent_append, extent_cons, extent_nil,
          List.append_assoc]
        simp [Nat.add_assoc]
      · simp [usedBytes_cons, hp, hb, Nat.add_assoc]
      · simp [allocs_cons, hp, hb, Nat.add_assoc]

theorem joinNext_free (b : Blk) (ys : List Blk) (a : ℕ) :
    (joinNext hdr b ys).1.free = true ∧
    hdr + (joinNext hdr b ys).1.size + extent hdr (joinNext hdr b ys).2
      = hdr + b.size + extent hdr ys ∧
    liveAddrs hdr (a + hdr + (joinNext hdr b ys).1.size) (joinNext hdr b ys).2
      = liveAddrs hdr (a + hdr + b.size) ys ∧
    usedBytes (joinNext hdr b ys).2 = usedBytes ys ∧
    allocs (joinNext hdr b ys).2 = allocs ys := by
  cases ys with
  | nil => simp [joinNext]
  | cons y ys =>
    cases hy : y.free
    · simp [joinNext, hy]
    · simp only [joinNext, hy, if_true, extent_cons, liveAddrs_cons, usedBytes_cons, allocs_cons,
        List.nil_append, Nat.zero_add, and_true, true_and]
      refine ⟨by omega, ?_⟩
      congr 1
      omega

/-- The layout after freeing a block: same bytes, all other allocated blocks where they were. -/
theorem release_spec (xs ys : List Blk) (b : Blk) (a : ℕ) :
    extent hdr (release hdr xs b ys) = extent hdr (xs ++ b :: ys) ∧
    liveAddrs hdr a (release hdr xs b ys)
      = liveAddrs hdr a xs ++ liveAddrs hdr (a + extent hdr xs + hdr + b.size) ys ∧
    usedBytes (release hdr xs b ys) = usedBytes xs + usedBytes ys ∧
    allocs (release hdr xs b ys) = allocs xs + allocs ys := by
  obtain ⟨hfree, hext, hlive, hused, hall⟩ := joinNext_free hdr b ys (a + extent hdr xs)
  obtain ⟨h1, h2, h3, h4⟩ :=
    @joinPrev_free hdr xs (joinNext hdr b ys).2 _ hfree a
  refine ⟨?_, ?_, ?_, ?_⟩
  · rw [release, h1, extent_append, extent_cons]
    omega
  · rw [release, h2, hlive]
  · rw [release, h3, hused]
  · rw [release, h4, hall]

/-! ## No neighbouring free blocks -/

/-- Of two neighbouring blocks, one at least is allocated. -/
def Coalesced (bs : List Blk) : Prop := bs.IsChain fun b c => b.free = false ∨ c.free = false

theorem coalesced_append {xs ys : List Blk} :
    Coalesced (xs ++ ys) ↔ Coalesced xs ∧ Coalesced ys ∧
      ∀ x ∈ xs.getLast?, ∀ y ∈ ys.head?, x.free = false ∨ y.free = false :=
  List.isChain_append

theorem coalesced_cons {b : Blk} {bs : List Blk} :
    Coalesced (b :: bs) ↔ (∀ c ∈ bs.head?, b.free = false ∨ c.free = false) ∧ Coalesced bs :=
  List.isChain_cons

variable {hdr} {xs ys : List Blk}

theorem Coalesced.carve (h : Coalesced (xs ++ b :: ys)) (hb : b.free = true) (slack size : ℕ) :
    Coalesced (xs ++ (carve hdr slack size b ++ ys)) := by
  obtain ⟨hxs, hbys, hlast⟩ := coalesced_append.1 h
  obtain ⟨hhead, hys⟩ := coalesced_cons.1 hbys
  rw [BlockHeap.carve]
  split
  · refine coalesced_append.2 ⟨hxs, coalesced_cons.2 ⟨fun _ _ => .inl rfl, coalesced_cons.2 ⟨?_, hys⟩⟩, ?_⟩
    · exact fun c hc => .inr ((hhead c hc).resolve_left (by simp [hb]))
    · rintro x - y hy
      obtain rfl := Option.some.inj hy
      exact .inr rfl
  · refine coalesced_append.2 ⟨hxs, coalesced_cons.2 ⟨fun _ _ => .inl rfl, hys⟩, ?_⟩
    rintro x - y hy
    obtain rfl := Option.some.inj hy
    exact .inr rfl

/-- What follows a freed block after it has been joined with its successor is allocated. -/
theorem Coalesced.joinNext (h : Coalesced ys) (b : Blk) :
    Coalesced (joinNext hdr b ys).2 ∧ ∀ c ∈ (BlockHeap.joinNext hdr b ys).2.head?, c.free = false := by
  cases ys with
  | nil => exact ⟨h, by simp [BlockHeap.joinNext]⟩
  | cons y ys =>
    obtain ⟨hhead, hys⟩ := coalesced_cons.1 h
    rw [BlockHeap.joinNext]
    split
    · rename_i hy
      exact ⟨hys, fun c hc => (hhead c hc).resolve_left (by simp [hy])⟩
    · rename_i hy
      refine ⟨h, fun c hc => ?_⟩
      obtain rfl := Option.some.inj hc
      exact Bool.eq_false_iff.2 hy

theorem Coalesced.joinPrev (hxs : Coalesced xs) (hys : Coalesced ys)
    (hhead : ∀ c ∈ ys.head?, c.free = false) (b : Blk) : Coalesced (joinPrev hdr xs b ys) := by
  have hcons : ∀ c, Coalesced (c :: ys) := fun c => coalesced_cons.2 ⟨fun y hy => .inr (hhead y hy), hys⟩
  rcases List.eq_nil_or_concat xs with rfl | ⟨xs, p, rfl⟩
  · exact hcons b
  · rw [List.concat_eq_append, joinPrev_concat]
    rw [List.concat_eq_append] at hxs
    obtain ⟨hxs', -, hlast⟩ := coalesced_append.1 hxs
    split
    · rename_i hp
      refine coalesced_append.2 ⟨hxs', hcons _, fun x hx c hc => .inl ?_⟩
      exact (hlast x hx p rfl).resolve_right (by simp [hp])
    · rename_i hp
      have hpf : p.free = false := Bool.eq_false_iff.2 hp
      refine coalesced_append.2 ⟨hxs', coalesced_cons.2 ⟨fun _ _ => .inl hpf, hcons b⟩, fun x hx c hc => ?_⟩
      obtain rfl := Option.some.inj hc
      exact .inr hpf

/-- Freeing a block keeps the free blocks apart. -/
theorem Coalesced.release (h : Coalesced (xs ++ b :: ys)) : Coalesced (release hdr xs b ys) := by
  obtain ⟨hxs, hbys, -⟩ := coalesced_append.1 h
  obtain ⟨hrest, hhead⟩ := (coalesced_cons.1 hbys).2.joinNext b
  exact hxs.joinPrev hrest hhead _

/-- If all blocks are free there is only one. -/
theorem Coalesced.eq_singleton {bs : List Blk} (h : Coalesced bs) (hne : bs ≠ [])
    (hfree : ∀ b ∈ bs, b.free = true) : ∃ b, bs = [b] := by
  match bs, hne with
  | [b], _ => exact ⟨b, rfl⟩
  | b :: c :: bs, _ =>
    have hb := hfree b (by simp)
    have hc := hfree c (by simp)
    have hchain := (coalesced_cons.1 h).1 c rfl
    rw [hb, hc] at hchain
    simp at hchain

/-- A range that meets no allocated block lies in one free block. -/
theorem Coalesced.gap_le {bs : List Blk} (h : Coalesced bs) {a lo hi : ℕ} (ha : a ≤ lo) (hlt : lo < hi)
    (hhi : hi ≤ a + extent hdr bs)
    (hgap : ∀ x ∈ place hdr a bs, x.2.free = false → hi ≤ x.1 ∨ x.1 + hdr + x.2.size ≤ lo) (hpos : 0 < hdr) :
    ∃ b ∈ bs, b.free = true ∧ hi - lo ≤ hdr + b.size := by
  induction bs generalizing a with
  | nil =>
    rw [extent_nil] at hhi
    omega
  | cons b bs ih =>
    obtain ⟨hhead, hbs⟩ := coalesced_cons.1 h
    have hrest : ∀ x ∈ place hdr (a + hdr + b.size) bs, x.2.free = false →
        hi ≤ x.1 ∨ x.1 + hdr + x.2.size ≤ lo := fun x hx => hgap x (List.mem_cons_of_mem _ hx)
    rw [extent_cons] at hhi
    by_cases hle : a + hdr + b.size ≤ lo
    · obtain ⟨c, hc, hres⟩ := ih hbs hle (by omega) hrest
      exact ⟨c, List.mem_cons_of_mem b hc, hres⟩
    · -- the range begins in `b`, and the block behind it, which is allocated, ends it
      have hb : b.free = true := by
        by_contra hb
        have := hgap (a, b) List.mem_cons_self (Bool.eq_false_iff.2 hb)
        dsimp only at this
        omega
      refine ⟨b, List.mem_cons_self, hb, ?_⟩
      cases bs with
      | nil =>
        rw [extent_nil] at hhi
        omega
      | cons c bs =>
        have hc := (hhead c rfl).resolve_left (by simp [hb])
        have := hrest (a + hdr + b.size, c) List.mem_cons_self hc
        dsimp only at this
        omega

end BlockHeap
