import PlantOS.Common.Run
import PlantOS.Common.WriteBack
import Mathlib.Algebra.GroupWithZero.Nat
import Mathlib.Data.List.FinRange

/-!
# The buffer cache

Model of `fs/bcache.c` over the ATA driver's two sector operations. A sector's contents are of an
arbitrary type `α`; the zero sector written by `memset` is `default`. Machine counters are `uint32_t`
and wrap.

The main result is `bcache_coherent`: the cache and the disk together are a flat array of sectors, for
every sequence of operations.

Reference: `fs/bcache.c`, `drivers/ata.c`.
-/

namespace PlantOS.Fs

/-! ## The ATA disk -/

/-- A disk of sectors. `fault n` decides whether the `n`-th request fails in `ata_poll`, before any data
is transferred. -/
structure AtaDisk (α : Type*) where
  sectors : ℕ → α
  fault : ℕ → Bool
  served : ℕ

variable {α : Type*}

/-- `ata_read_sectors(lba, 1, buf)`: the sector, or `none` for the result `-1`. -/
def ataReadSectors (d : AtaDisk α) (lba : ℕ) : Option α × AtaDisk α :=
  (if d.fault d.served then none else some (d.sectors lba), { d with served := d.served + 1 })

/-- `ata_write_sectors(lba, 1, data)`: the result code and the disk. -/
def ataWriteSectors (d : AtaDisk α) (lba : ℕ) (data : α) : ℤ × AtaDisk α :=
  if d.fault d.served then (-1, { d with served := d.served + 1 })
  else (0, { d with sectors := Function.update d.sectors lba data, served := d.served + 1 })

/-- Every request on the disk succeeds. -/
def AtaDisk.Reliable (d : AtaDisk α) : Prop := ∀ n, d.fault n = false

/-! ## The cache -/

/-- `BCACHE_SIZE`. -/
def bcacheSize : ℕ := 64

instance : NeZero bcacheSize := ⟨by decide⟩

/-- `struct bcache_entry`. -/
structure BcacheEntry (α : Type*) where
  lba : ℕ
  data : α
  valid : Bool
  dirty : Bool
  accessTick : ℕ

/-- The zeroed entry left by `memset`. -/
instance [Inhabited α] : Inhabited (BcacheEntry α) := ⟨⟨0, default, false, false, 0⟩⟩

/-- The state of `bcache.c`, together with the disk behind it. -/
structure Bcache (α : Type*) where
  cache : Fin bcacheSize → BcacheEntry α
  tickCounter : ℕ
  hits : ℕ
  misses : ℕ
  disk : AtaDisk α

/-- Increment of a `uint32_t`. -/
def succ32 (n : ℕ) : ℕ := (n + 1) % 2 ^ 32

/-- `bcache_init`. -/
def bcacheInit [Inhabited α] (disk : AtaDisk α) : Bcache α :=
  { cache := fun _ => default, tickCounter := 0, hits := 0, misses := 0, disk }

/-- `cache[i] = e`. -/
def Bcache.setEntry (b : Bcache α) (i : Fin bcacheSize) (e : BcacheEntry α) : Bcache α :=
  { b with cache := Function.update b.cache i e }

/-- `bcache_find`: the first valid entry tagged `lba`. -/
def bcacheFind (b : Bcache α) (lba : ℕ) : Option (Fin bcacheSize) :=
  (List.finRange bcacheSize).find? fun i => (b.cache i).valid && (b.cache i).lba == lba

/-- The index with the lowest `access_tick`, as `bcache_evict` looks for it. -/
def bcacheLru (b : Bcache α) : Fin bcacheSize :=
  (List.finRange bcacheSize).tail.foldl
    (fun lru i => if (b.cache i).accessTick < (b.cache lru).accessTick then i else lru) 0

/-- `if (e->dirty) { ata_write_sectors(e->lba, 1, e->data); e->dirty = false; }`. The result of the write
is ignored. -/
def bcacheFlushEntry (b : Bcache α) (i : Fin bcacheSize) : Bcache α :=
  let e := b.cache i
  if e.dirty then
    { b.setEntry i { e with dirty := false } with disk := (ataWriteSectors b.disk e.lba e.data).2 }
  else b

/-- `bcache_evict`: the first unused entry, or else the least recently used one after flushing it. -/
def bcacheEvict (b : Bcache α) : Fin bcacheSize × Bcache α :=
  match (List.finRange bcacheSize).find? fun i => !(b.cache i).valid with
  | some i => (i, b)
  | none =>
    let lru := bcacheLru b
    let b := bcacheFlushEntry b lru
    (lru, b.setEntry lru { b.cache lru with valid := false })

/-- `e->access_tick = ++tick_counter`. -/
def bcacheTouch (b : Bcache α) (i : Fin bcacheSize) : Bcache α :=
  { b.setEntry i { b.cache i with accessTick := succ32 b.tickCounter } with
    tickCounter := succ32 b.tickCounter }

/-- `bcache_read`: the cached data, or `none` for `NULL`. -/
def bcacheRead (b : Bcache α) (lba : ℕ) : Option α × Bcache α :=
  match bcacheFind b lba with
  | some i => (some (b.cache i).data, bcacheTouch { b with hits := succ32 b.hits } i)
  | none =>
    let (i, b) := bcacheEvict { b with misses := succ32 b.misses }
    match ataReadSectors b.disk lba with
    | (none, disk) => (none, { b with disk })
    | (some data, disk) =>
      let e := { b.cache i with lba, data, valid := true, dirty := false }
      (some data, bcacheTouch ({ b with disk }.setEntry i e) i)

/-- `bcache_mark_dirty`. -/
def bcacheMarkDirty (b : Bcache α) (lba : ℕ) : Bcache α :=
  match bcacheFind b lba with
  | some i => b.setEntry i { b.cache i with dirty := true }
  | none => b

/-- The entry `bcache_write` stores into: the one tagged `lba`, or a newly tagged one. -/
def bcacheClaim (b : Bcache α) (lba : ℕ) : Fin bcacheSize × Bcache α :=
  match bcacheFind b lba with
  | some i => (i, b)
  | none =>
    let (i, b) := bcacheEvict b
    (i, bcacheTouch (b.setEntry i { b.cache i with lba, valid := true }) i)

/-- `bcache_write`, which always returns 0. -/
def bcacheWrite (b : Bcache α) (lba : ℕ) (data : α) : ℤ × Bcache α :=
  let (i, b) := bcacheClaim b lba
  (0, bcacheTouch (b.setEntry i { b.cache i with data, dirty := true }) i)

/-- The loop of `bcache_sync` over the entries `is`, with the count of flushed entries. -/
def bcacheSyncLoop : List (Fin bcacheSize) → ℤ → Bcache α → ℤ × Bcache α
  | [], flushed, b => (flushed, b)
  | i :: is, flushed, b =>
    let e := b.cache i
    if e.valid && e.dirty then
      let (r, disk) := ataWriteSectors b.disk e.lba e.data
      if r < 0 then (-1, { b with disk })
      else bcacheSyncLoop is (flushed + 1) ({ b with disk }.setEntry i { e with dirty := false })
    else bcacheSyncLoop is flushed b

/-- `bcache_sync`. -/
def bcacheSync (b : Bcache α) : ℤ × Bcache α := bcacheSyncLoop (List.finRange bcacheSize) 0 b

/-- `bcache_invalidate`. -/
def bcacheInvalidate [Inhabited α] (b : Bcache α) : Bcache α :=
  { (bcacheSync b).2 with cache := fun _ => default }

/-! ## The cache as a write-back cache

`Bcache.lines` forgets the access ticks. Every operation is then a sequence of the moves of
`WriteBack.Coherent`.
-/

/-- The entry as a line of a write-back cache. -/
def BcacheEntry.line (e : BcacheEntry α) : WriteBack.Line ℕ α := ⟨e.lba, e.data, e.valid, e.dirty⟩

/-- The lines of the cache. -/
def Bcache.lines (b : Bcache α) (i : Fin bcacheSize) : WriteBack.Line ℕ α := (b.cache i).line

/-- Cache and disk represent the sectors `v`, and the disk serves every request. -/
structure Bcache.Represents (b : Bcache α) (v : ℕ → α) : Prop where
  coherent : WriteBack.Coherent b.lines b.disk.sectors v
  reliable : b.disk.Reliable

@[simp] theorem lines_setEntry (b : Bcache α) (i : Fin bcacheSize) (e : BcacheEntry α) :
    (b.setEntry i e).lines = Function.update b.lines i e.line := by
  funext j
  by_cases hj : j = i
  · subst hj
    simp [Bcache.lines, Bcache.setEntry]
  · simp [Bcache.lines, Bcache.setEntry, hj]

@[simp] theorem disk_setEntry (b : Bcache α) (i : Fin bcacheSize) (e : BcacheEntry α) :
    (b.setEntry i e).disk = b.disk := rfl

@[simp] theorem cache_setEntry_self (b : Bcache α) (i : Fin bcacheSize) (e : BcacheEntry α) :
    (b.setEntry i e).cache i = e := by simp [Bcache.setEntry]

/-- Access ticks are not part of the represented contents. -/
@[simp] theorem lines_bcacheTouch (b : Bcache α) (i : Fin bcacheSize) :
    (bcacheTouch b i).lines = b.lines := by
  have h : (bcacheTouch b i).lines
      = (b.setEntry i { b.cache i with accessTick := succ32 b.tickCounter }).lines := rfl
  rw [h, lines_setEntry]
  exact Function.update_eq_self i b.lines

@[simp] theorem disk_bcacheTouch (b : Bcache α) (i : Fin bcacheSize) :
    (bcacheTouch b i).disk = b.disk := rfl

theorem ataReadSectors_of_reliable {d : AtaDisk α} (h : d.Reliable) (lba : ℕ) :
    ataReadSectors d lba = (some (d.sectors lba), { d with served := d.served + 1 }) := by
  simp [ataReadSectors, h d.served]

theorem ataWriteSectors_of_reliable {d : AtaDisk α} (h : d.Reliable) (lba : ℕ) (data : α) :
    ataWriteSectors d lba data = (0, { d with sectors := Function.update d.sectors lba data,
                                              served := d.served + 1 }) := by
  simp [ataWriteSectors, h d.served]

/-- A found entry is valid and carries the requested tag. -/
theorem bcacheFind_some {b : Bcache α} {lba : ℕ} {i : Fin bcacheSize}
    (h : bcacheFind b lba = some i) : (b.lines i).valid ∧ (b.lines i).key = lba := by
  have hi := List.find?_some h
  simpa [Bcache.lines, BcacheEntry.line] using hi

/-- If none is found, no valid entry carries the tag. -/
theorem bcacheFind_none {b : Bcache α} {lba : ℕ} (h : bcacheFind b lba = none)
    (i : Fin bcacheSize) (hi : (b.lines i).valid) : (b.lines i).key ≠ lba := by
  have := List.find?_eq_none.mp h i (List.mem_finRange i)
  simp only [Bcache.lines, BcacheEntry.line] at hi ⊢
  simpa [hi] using this

/-! ### What eviction does

These facts hold for any disk, whether or not its requests fail.
-/

/-- The disk after an entry has been flushed. -/
def flushDisk (d : AtaDisk α) (l : WriteBack.Line ℕ α) : AtaDisk α :=
  if l.dirty then (ataWriteSectors d l.key l.val).2 else d

/-- `bcache_evict` takes an unused entry, or flushes and drops the least recently used of the valid ones. -/
theorem bcacheEvict_cases (b : Bcache α) :
    ((b.lines (bcacheEvict b).1).valid = false ∧ (bcacheEvict b).2 = b) ∨
    ((∀ i, (b.lines i).valid) ∧ (bcacheEvict b).1 = bcacheLru b ∧
      (bcacheEvict b).2.lines = Function.update b.lines (bcacheLru b)
        { b.lines (bcacheLru b) with valid := false, dirty := false } ∧
      (bcacheEvict b).2.disk = flushDisk b.disk (b.lines (bcacheLru b))) := by
  simp only [bcacheEvict]
  split
  · rename_i i hi
    have hinv := List.find?_some hi
    exact .inl ⟨by simpa [Bcache.lines, BcacheEntry.line] using hinv, rfl⟩
  · rename_i hnone
    refine .inr ⟨fun i => ?_, rfl, ?_, ?_⟩
    · have := List.find?_eq_none.mp hnone i (List.mem_finRange i)
      simpa [Bcache.lines, BcacheEntry.line] using this
    · set i := bcacheLru b
      cases hd : (b.cache i).dirty with
      | false => simp [bcacheFlushEntry, hd, Bcache.lines, BcacheEntry.line]
      | true =>
        rw [lines_setEntry]
        simp only [bcacheFlushEntry, hd, if_true]
        show Function.update (b.setEntry i _).lines i _ = _
        rw [lines_setEntry, Function.update_idem]
        simp [Bcache.setEntry, Bcache.lines, BcacheEntry.line]
    · rw [disk_setEntry, bcacheFlushEntry, flushDisk]
      exact apply_ite Bcache.disk _ _ _

/-- The entry returned by `bcache_evict` is unused; no other entry becomes valid or changes its tag. -/
theorem bcacheEvict_frees (b : Bcache α) :
    ((bcacheEvict b).2.lines (bcacheEvict b).1).valid = false ∧
      ∀ j, ((bcacheEvict b).2.lines j).valid →
        (b.lines j).valid ∧ ((bcacheEvict b).2.lines j).key = (b.lines j).key := by
  rcases bcacheEvict_cases b with ⟨hinv, heq⟩ | ⟨hvalid, hi, hlines, -⟩
  · rw [heq]
    exact ⟨hinv, fun j hj => ⟨hj, rfl⟩⟩
  · rw [hlines, hi]
    refine ⟨by simp, fun j hj => ⟨hvalid j, ?_⟩⟩
    have hji : j ≠ bcacheLru b := by rintro rfl; simp at hj
    rw [Function.update_of_ne hji]

/-- After the eviction of a missed sector no valid entry carries its tag. -/
theorem bcacheEvict_misses {b : Bcache α} {lba : ℕ} (h : bcacheFind b lba = none)
    (j : Fin bcacheSize) (hj : ((bcacheEvict b).2.lines j).valid) :
    ((bcacheEvict b).2.lines j).key ≠ lba := by
  obtain ⟨hbj, hkey⟩ := (bcacheEvict_frees b).2 j hj
  rw [hkey]
  exact bcacheFind_none h j hbj

/-! ### Coherence of the lines

The moves that do not depend on the disk's answers.
-/

/-- Cache and disk represent the sectors `v`. -/
def Bcache.Coherent (b : Bcache α) (v : ℕ → α) : Prop :=
  WriteBack.Coherent b.lines b.disk.sectors v

namespace Bcache.Coherent

variable {b : Bcache α} {v : ℕ → α}

/-- A missed read fills the evicted entry `i` from the disk. -/
theorem fill (h : b.Coherent v) {i : Fin bcacheSize} {lba : ℕ} {disk : AtaDisk α}
    (hdisk : disk.sectors = b.disk.sectors) (hi : (b.lines i).valid = false)
    (hfree : ∀ j, (b.lines j).valid → (b.lines j).key ≠ lba) :
    (bcacheTouch ({ b with disk }.setEntry i
      { b.cache i with lba, data := disk.sectors lba, valid := true, dirty := false }) i).Coherent v := by
  rw [Coherent, lines_bcacheTouch, lines_setEntry, disk_bcacheTouch, disk_setEntry, hdisk]
  exact WriteBack.Coherent.fill h hi hfree

/-- A write to a cached sector. -/
theorem write_hit (h : b.Coherent v) {lba : ℕ} {i : Fin bcacheSize} (hi : bcacheFind b lba = some i)
    (data : α) : (bcacheWrite b lba data).2.Coherent (Function.update v lba data) := by
  simp only [bcacheWrite, bcacheClaim, hi]
  obtain ⟨hv, hk⟩ := bcacheFind_some hi
  have hline : ({ b.cache i with data, dirty := true } : BcacheEntry α).line
      = ⟨lba, data, true, true⟩ := by
    simp only [Bcache.lines, BcacheEntry.line] at hv hk ⊢
    simp [hk, hv]
  rw [Coherent, lines_bcacheTouch, lines_setEntry, hline]
  exact WriteBack.Coherent.store h data
    (fun j hj hjv hjk => hj (WriteBack.Coherent.unique h j i hjv hv (hjk.trans hk.symm))) fun _ => hk

/-- A write to a sector that is not cached, on top of what eviction has left. -/
theorem write_miss {lba : ℕ} (hnone : bcacheFind b lba = none) (h : (bcacheEvict b).2.Coherent v)
    (data : α) : (bcacheWrite b lba data).2.Coherent (Function.update v lba data) := by
  simp only [bcacheWrite, bcacheClaim, hnone]
  rw [Coherent, lines_bcacheTouch, lines_setEntry, lines_bcacheTouch, lines_setEntry, Function.update_idem]
  have hline : ({ (bcacheTouch ((bcacheEvict b).2.setEntry (bcacheEvict b).1
        { (bcacheEvict b).2.cache (bcacheEvict b).1 with lba, valid := true })
        (bcacheEvict b).1).cache (bcacheEvict b).1 with data, dirty := true } : BcacheEntry α).line
      = ⟨lba, data, true, true⟩ := by
    simp [bcacheTouch, BcacheEntry.line]
  rw [hline]
  refine WriteBack.Coherent.store h data (fun j _ hj => bcacheEvict_misses hnone j hj) fun hi => ?_
  rw [(bcacheEvict_frees b).1] at hi
  exact absurd hi (by simp)

theorem markDirty (h : b.Coherent v) (lba : ℕ) : (bcacheMarkDirty b lba).Coherent v := by
  simp only [bcacheMarkDirty]
  split
  · rename_i i _
    rw [Coherent, lines_setEntry]
    exact WriteBack.Coherent.mark h i
  · exact h

end Bcache.Coherent

namespace Bcache.Represents

variable {b : Bcache α} {v : ℕ → α}

/-- Counters do not matter. -/
theorem congr {b' : Bcache α} (h : b.Represents v) (hl : b'.lines = b.lines)
    (hs : b'.disk.sectors = b.disk.sectors) (hf : b'.disk.fault = b.disk.fault) :
    b'.Represents v :=
  ⟨by rw [hl, hs]; exact h.coherent, fun n => by rw [hf]; exact h.reliable n⟩

/-- `bcache_evict` writes back what it drops. -/
theorem evict (h : b.Represents v) : (bcacheEvict b).2.Represents v := by
  rcases bcacheEvict_cases b with ⟨-, heq⟩ | ⟨hvalid, -, hlines, hdisk⟩
  · rw [heq]
    exact h
  · set i := bcacheLru b
    cases hd : (b.lines i).dirty with
    | false =>
      have hsame : (bcacheEvict b).2.disk = b.disk := by simp [hdisk, flushDisk, hd]
      refine ⟨?_, hsame ▸ h.reliable⟩
      rw [hlines, hsame]
      exact h.coherent.drop hd rfl
    | true =>
      have hw : (bcacheEvict b).2.disk = { b.disk with
          sectors := Function.update b.disk.sectors (b.lines i).key (b.lines i).val
          served := b.disk.served + 1 } := by
        rw [hdisk, flushDisk, if_pos hd, ataWriteSectors_of_reliable h.reliable]
      refine ⟨?_, fun n => ?_⟩
      · rw [hlines, hw, ← Function.update_idem { b.lines i with dirty := false }]
        exact (h.coherent.flush (hvalid i)).drop (by simp) rfl
      · rw [hw]
        exact h.reliable n

/-- `bcache_read` returns the represented sector and keeps the contents. -/
theorem read (h : b.Represents v) (lba : ℕ) :
    (bcacheRead b lba).1 = some (v lba) ∧ (bcacheRead b lba).2.Represents v := by
  simp only [bcacheRead]
  split
  · rename_i i hi
    obtain ⟨hv, hk⟩ := bcacheFind_some hi
    refine ⟨?_, h.congr (by rw [lines_bcacheTouch]; rfl) rfl rfl⟩
    rw [← hk, ← h.coherent.holds i hv]
    rfl
  · rename_i hnone
    set b₀ : Bcache α := { b with misses := succ32 b.misses } with hb₀
    have hrep : (bcacheEvict b₀).2.Represents v := (h.congr rfl rfl rfl : b₀.Represents v).evict
    have hfree := @bcacheEvict_misses _ b₀ lba hnone
    rw [ataReadSectors_of_reliable hrep.reliable]
    refine ⟨?_, Coherent.fill hrep.coherent rfl (bcacheEvict_frees b₀).1 hfree, hrep.reliable⟩
    have hback := hrep.coherent.backed lba fun j hj _ => hfree j hj
    rw [← hback]

/-- `bcache_write` stores one sector. -/
theorem write (h : b.Represents v) (lba : ℕ) (data : α) :
    (bcacheWrite b lba data).2.Represents (Function.update v lba data) := by
  cases hfind : bcacheFind b lba with
  | some i =>
    refine ⟨Coherent.write_hit h.coherent hfind data, ?_⟩
    simp only [bcacheWrite, bcacheClaim, hfind]
    exact h.reliable
  | none =>
    refine ⟨Coherent.write_miss hfind h.evict.coherent data, ?_⟩
    simp only [bcacheWrite, bcacheClaim, hfind]
    exact h.evict.reliable

/-- `bcache_mark_dirty` keeps the contents. -/
theorem markDirty (h : b.Represents v) (lba : ℕ) : (bcacheMarkDirty b lba).Represents v := by
  refine ⟨Coherent.markDirty h.coherent lba, ?_⟩
  simp only [bcacheMarkDirty]
  split <;> exact h.reliable

/-- The loop of `bcache_sync` keeps the contents, leaves the entries of `is` clean and dirties none. -/
theorem syncLoop (h : b.Represents v) (is : List (Fin bcacheSize)) (n : ℤ) :
    (bcacheSyncLoop is n b).2.Represents v ∧
      (∀ j, ((bcacheSyncLoop is n b).2.lines j).valid = (b.lines j).valid) ∧
      (∀ j, (b.lines j).dirty = false → ((bcacheSyncLoop is n b).2.lines j).dirty = false) ∧
      ∀ i ∈ is, (b.lines i).valid → ((bcacheSyncLoop is n b).2.lines i).dirty = false := by
  induction is generalizing b n with
  | nil => exact ⟨h, fun _ => rfl, fun _ hj => hj, fun i hi => by simp at hi⟩
  | cons i is ih =>
    simp only [bcacheSyncLoop]
    by_cases hvd : (b.cache i).valid && (b.cache i).dirty
    · rw [if_pos hvd, ataWriteSectors_of_reliable h.reliable]
      simp only [Int.reduceNeg, lt_self_iff_false, if_false]
      have hvi : (b.lines i).valid := (Bool.and_eq_true_iff.mp hvd).1
      set b' : Bcache α := { b with disk := _ }.setEntry i { b.cache i with dirty := false } with hb'
      have hl : b'.lines = Function.update b.lines i { b.lines i with dirty := false } := by
        rw [hb', lines_setEntry]
        rfl
      have h' : b'.Represents v := ⟨by rw [hl]; exact h.coherent.flush hvi, h.reliable⟩
      have hval : ∀ j, (b'.lines j).valid = (b.lines j).valid := fun j => by
        by_cases hji : j = i
        · subst hji; simp [hl]
        · simp [hl, hji]
      have hdirty : ∀ j, (b.lines j).dirty = false → (b'.lines j).dirty = false := fun j hj => by
        by_cases hji : j = i
        · subst hji; simp [hl]
        · simpa [hl, hji] using hj
      obtain ⟨h1, h2, h3, h4⟩ := ih h' (n + 1)
      refine ⟨h1, fun j => (h2 j).trans (hval j), fun j hj => h3 j (hdirty j hj), fun j hj hv => ?_⟩
      rcases List.mem_cons.mp hj with rfl | hj
      · exact h3 j (by simp [hl])
      · exact h4 j hj (by rw [hval]; exact hv)
    · rw [if_neg hvd]
      obtain ⟨h1, h2, h3, h4⟩ := ih h n
      refine ⟨h1, h2, h3, fun j hj hv => ?_⟩
      rcases List.mem_cons.mp hj with rfl | hj
      · refine h3 j ?_
        simp only [Bcache.lines, BcacheEntry.line] at hv ⊢
        simpa [hv] using hvd
      · exact h4 j hj hv

/-- After `bcache_sync` the disk itself holds the represented sectors. -/
theorem sync (h : b.Represents v) :
    (bcacheSync b).2.Represents v ∧ (bcacheSync b).2.disk.sectors = v := by
  obtain ⟨h1, h2, _, h4⟩ := h.syncLoop (List.finRange bcacheSize) 0
  refine ⟨h1, h1.coherent.back_eq fun i hi => h4 i (List.mem_finRange i) ?_⟩
  rw [← h2 i]
  exact hi

/-- `bcache_invalidate` empties the cache after writing it back. -/
theorem invalidate [Inhabited α] (h : b.Represents v) :
    (bcacheInvalidate b).Represents v ∧ (bcacheInvalidate b).disk.sectors = v := by
  obtain ⟨hrep, hdisk⟩ := h.sync
  have hd : (bcacheInvalidate b).disk = (bcacheSync b).2.disk := rfl
  refine ⟨⟨?_, hrep.reliable⟩, hd ▸ hdisk⟩
  rw [hd, hdisk]
  exact WriteBack.Coherent.of_invalid fun _ => rfl

/-- `bcache_init` represents the disk's contents. -/
theorem init [Inhabited α] {disk : AtaDisk α} (h : disk.Reliable) :
    (bcacheInit disk).Represents disk.sectors :=
  ⟨WriteBack.Coherent.of_invalid fun _ => rfl, h⟩

end Bcache.Represents

/-! ## Runs -/

/-- The calls made on the cache. -/
inductive BcacheOp (α : Type*) where
  | read (lba : ℕ)
  | write (lba : ℕ) (data : α)
  | markDirty (lba : ℕ)
  | sync
  | invalidate

/-- One call. -/
def bcacheStep [Inhabited α] (b : Bcache α) : BcacheOp α → Bcache α
  | .read lba => (bcacheRead b lba).2
  | .write lba data => (bcacheWrite b lba data).2
  | .markDirty lba => bcacheMarkDirty b lba
  | .sync => (bcacheSync b).2
  | .invalidate => bcacheInvalidate b

/-- The flat array of sectors that the cache is meant to be: reads and flushes do not change it. -/
def flatStep (v : ℕ → α) : BcacheOp α → ℕ → α
  | .write lba data => Function.update v lba data
  | _ => v

/-- The data of the latest `bcache_write` to `lba` among the calls `ops`, oldest first, or the initial
contents of the sector if there is none. -/
def latestWrite (initial : α) (lba : ℕ) (ops : List (BcacheOp α)) : α :=
  ops.foldl (fun cur op => match op with
    | .write l data => if l = lba then data else cur
    | _ => cur) initial

/-- The flat disk holds the latest write to every block. -/
theorem run_flatStep (v : ℕ → α) (ops : List (BcacheOp α)) (lba : ℕ) :
    Run.run flatStep v ops lba = latestWrite (v lba) lba ops := by
  induction ops generalizing v with
  | nil => rfl
  | cons op ops ih =>
    rw [Run.run_cons, ih]
    cases op with
    | write l data =>
      by_cases hl : l = lba
      · subst hl; simp [latestWrite, flatStep]
      · simp [latestWrite, flatStep, hl, Function.update_of_ne (Ne.symm hl)]
    | _ => rfl

/-- One call refines its effect on the flat array. -/
theorem Bcache.Represents.step [Inhabited α] {b : Bcache α} {v : ℕ → α} (h : b.Represents v)
    (op : BcacheOp α) : (bcacheStep b op).Represents (flatStep v op) := by
  cases op with
  | read lba => exact (h.read lba).2
  | write lba data => exact h.write lba data
  | markDirty lba => exact h.markDirty lba
  | sync => exact h.sync.1
  | invalidate => exact h.invalidate.1

/-- A run of calls refines the same run on the flat array. -/
theorem Bcache.Represents.run [Inhabited α] {b : Bcache α} {v : ℕ → α} (h : b.Represents v)
    (ops : List (BcacheOp α)) :
    (Run.run bcacheStep b ops).Represents (Run.run flatStep v ops) := by
  induction ops generalizing b v with
  | nil => exact h
  | cons op ops ih => exact ih (h.step op)

/-- **Coherence of the buffer cache.** After any calls `ops` on a reliable disk, `bcache_read` returns
the latest data written to the sector, tags of valid entries are unique, valid clean entries agree with
the disk, and `bcache_sync` and `bcache_invalidate` bring the disk up to date. -/
theorem bcache_coherent [Inhabited α] (disk : AtaDisk α) (hdisk : disk.Reliable)
    (ops : List (BcacheOp α)) :
    let b := Run.run bcacheStep (bcacheInit disk) ops
    (∀ lba, (bcacheRead b lba).1 = some (latestWrite (disk.sectors lba) lba ops)) ∧
    (∀ i j, (b.cache i).valid → (b.cache j).valid → (b.cache i).lba = (b.cache j).lba → i = j) ∧
    (∀ i, (b.cache i).valid → (b.cache i).dirty = false →
      (b.cache i).data = b.disk.sectors (b.cache i).lba) ∧
    (∀ lba, (bcacheSync b).2.disk.sectors lba = latestWrite (disk.sectors lba) lba ops) ∧
    (∀ lba, (bcacheInvalidate b).disk.sectors lba = latestWrite (disk.sectors lba) lba ops) := by
  intro b
  have h : b.Represents (Run.run flatStep disk.sectors ops) :=
    (Bcache.Represents.init hdisk).run ops
  refine ⟨fun lba => ?_, h.coherent.unique, fun i hi hd => h.coherent.clean_eq hi hd,
    fun lba => ?_, fun lba => ?_⟩
  · rw [(h.read lba).1, run_flatStep]
  · rw [h.sync.2, run_flatStep]
  · rw [h.invalidate.2, run_flatStep]

/-- Two writes to sector 3 and a flush on a disk whose sector `n` holds `n`. -/
theorem bcache_coherent_two_writes :
    (⟨id, fun _ => false, 0⟩ : AtaDisk ℕ).Reliable ∧
      (bcacheRead (Run.run bcacheStep (bcacheInit ⟨id, fun _ => false, 0⟩)
        [.write 3 7, .read 5, .write 3 9, .sync]) 3).1 = some 9 :=
  ⟨fun _ => rfl, (bcache_coherent _ (fun _ => rfl) [.write 3 7, .read 5, .write 3 9, .sync]).1 3⟩

end PlantOS.Fs
