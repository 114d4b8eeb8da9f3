import PlantOS.Common.Recency
import PlantOS.Fs.Bcache

/-!
# Replacement in the buffer cache

`bcache.c` keeps recency as the values of a counter: every access gives its entry the next value of
`tick_counter`, and `bcache_evict` drops the entry with the lowest one. `Bcache.slots` reads the entries as
the slots of `Recency`; a hit and a miss are then its two moves, as long as the counter does not wrap.

Reference: `fs/bcache.c`.
-/

namespace PlantOS.Fs

open Recency

variable {α : Type*}

/-! ## Slots -/

/-- The entry, as far as replacement looks at it. -/
def BcacheEntry.slot (e : BcacheEntry α) : Slot ℕ := ⟨e.lba, e.accessTick, e.valid⟩

/-- The slots of the cache. -/
def Bcache.slots (b : Bcache α) (i : Fin bcacheSize) : Slot ℕ := (b.cache i).slot

@[simp] theorem slots_setEntry (b : Bcache α) (i : Fin bcacheSize) (e : BcacheEntry α) :
    (b.setEntry i e).slots = Function.update b.slots i e.slot := by
  funext j
  by_cases hj : j = i
  · subst hj
    simp [Bcache.slots, Bcache.setEntry]
  · simp [Bcache.slots, Bcache.setEntry, hj]

@[simp] theorem slots_bcacheTouch (b : Bcache α) (i : Fin bcacheSize) :
    (bcacheTouch b i).slots =
      Function.update b.slots i { b.slots i with tick := succ32 b.tickCounter } :=
  slots_setEntry b i { b.cache i with accessTick := succ32 b.tickCounter }

/-- What does not change an entry's tag, validity or tick does not matter for replacement. -/
theorem slots_setEntry_of_slot_eq {b : Bcache α} {i : Fin bcacheSize} {e : BcacheEntry α}
    (h : e.slot = b.slots i) : (b.setEntry i e).slots = b.slots := by
  rw [slots_setEntry, h, Function.update_eq_self]

@[simp] theorem tickCounter_bcacheTouch (b : Bcache α) (i : Fin bcacheSize) :
    (bcacheTouch b i).tickCounter = succ32 b.tickCounter := rfl

@[simp] theorem tickCounter_setEntry (b : Bcache α) (i : Fin bcacheSize) (e : BcacheEntry α) :
    (b.setEntry i e).tickCounter = b.tickCounter := rfl

/-! ## Eviction -/

/-- A scan for the lowest value ends at one that is no higher than any it has seen. -/
theorem foldl_lowest_le {ι : Type*} (f : ι → ℕ) (is : List ι) (i : ι) :
    let m := is.foldl (fun m j => if f j < f m then j else m) i
    f m ≤ f i ∧ ∀ j ∈ is, f m ≤ f j := by
  induction is generalizing i with
  | nil => simp
  | cons k is ih =>
    simp only [List.foldl_cons]
    obtain ⟨hk, his⟩ := ih (if f k < f i then k else i)
    by_cases hlt : f k < f i
    · rw [if_pos hlt] at hk his ⊢
      refine ⟨by omega, fun j hj => ?_⟩
      rcases List.mem_cons.mp hj with rfl | hj
      · exact hk
      · exact his j hj
    · rw [if_neg hlt] at hk his ⊢
      refine ⟨hk, fun j hj => ?_⟩
      rcases List.mem_cons.mp hj with rfl | hj
      · omega
      · exact his j hj

/-- `bcache_evict` looks at every entry. -/
theorem bcacheLru_le (b : Bcache α) (i : Fin bcacheSize) :
    (b.cache (bcacheLru b)).accessTick ≤ (b.cache i).accessTick := by
  obtain ⟨h0, hrest⟩ := foldl_lowest_le (fun i => (b.cache i).accessTick)
    (List.finRange bcacheSize).tail 0
  have hmem : i ∈ (0 : Fin bcacheSize) :: (List.finRange bcacheSize).tail := List.mem_finRange i
  rcases List.mem_cons.mp hmem with rfl | hi
  · exact h0
  · exact hrest i hi

@[simp] theorem slots_bcacheFlushEntry (b : Bcache α) (i : Fin bcacheSize) :
    (bcacheFlushEntry b i).slots = b.slots := by
  simp only [bcacheFlushEntry]
  split
  · exact slots_setEntry_of_slot_eq rfl
  · rfl

@[simp] theorem tickCounter_bcacheEvict (b : Bcache α) : (bcacheEvict b).2.tickCounter = b.tickCounter := by
  unfold bcacheEvict
  split
  · rfl
  · simp only [tickCounter_setEntry, bcacheFlushEntry]
    split <;> rfl

/-- `bcache_evict` hands out a reusable entry and changes no other. -/
theorem slots_bcacheEvict (b : Bcache α) :
    Reusable b.slots (bcacheEvict b).1 ∧
      ∀ j, j ≠ (bcacheEvict b).1 → (bcacheEvict b).2.slots j = b.slots j := by
  unfold bcacheEvict
  split
  · rename_i i hi
    have hinv := List.find?_some hi
    exact ⟨.inl (by simpa [Bcache.slots, BcacheEntry.slot] using hinv), fun _ _ => rfl⟩
  · rename_i hnone
    refine ⟨.inr ⟨fun i => ?_, bcacheLru_le b⟩, fun j hj => ?_⟩
    · have := List.find?_eq_none.mp hnone i (List.mem_finRange i)
      simpa [Bcache.slots, BcacheEntry.slot] using this
    · rw [slots_setEntry, Function.update_of_ne hj, slots_bcacheFlushEntry]

/-- Whatever is then stored in the entry, it is as if it had been stored in place of the old one. -/
theorem update_bcacheEvict (b : Bcache α) (s : Slot ℕ) :
    Function.update (bcacheEvict b).2.slots (bcacheEvict b).1 s =
      Function.update b.slots (bcacheEvict b).1 s := by
  funext j
  by_cases hj : j = (bcacheEvict b).1
  · rw [hj, Function.update_self, Function.update_self]
  · rw [Function.update_of_ne hj, Function.update_of_ne hj, (slots_bcacheEvict b).2 j hj]

/-! ## One call -/

theorem succ32_of_lt {n : ℕ} (h : n + 1 < 2 ^ 32) : succ32 n = n + 1 := Nat.mod_eq_of_lt h

/-- The entries hold the most recent of `accesses`, at ticks of at most `n`. -/
structure Bcache.Recent (b : Bcache α) (accesses : List ℕ) (n : ℕ) : Prop where
  tracks : Tracks b.slots b.tickCounter accesses
  tick_le : b.tickCounter ≤ n

namespace Bcache.Recent

variable {b : Bcache α} {accesses : List ℕ} {n : ℕ}

theorem congr {b' : Bcache α} (h : b.Recent accesses n) (hs : b'.slots = b.slots)
    (ht : b'.tickCounter = b.tickCounter) : b'.Recent accesses n :=
  ⟨by rw [hs, ht]; exact h.tracks, by rw [ht]; exact h.tick_le⟩

/-- A found entry is touched. -/
theorem touch (h : b.Recent accesses n) (hn : n + 1 < 2 ^ 32) {lba : ℕ} {i : Fin bcacheSize}
    (hi : (b.slots i).valid ∧ (b.slots i).key = lba) :
    (bcacheTouch b i).Recent (accesses ++ [lba]) (n + 1) := by
  obtain ⟨hv, rfl⟩ := hi
  have hle := h.tick_le
  have ht : succ32 b.tickCounter = b.tickCounter + 1 := succ32_of_lt (by omega)
  have hhit := h.tracks.hit hv (Nat.lt_succ_self b.tickCounter)
  refine ⟨?_, by rw [tickCounter_bcacheTouch, ht]; omega⟩
  rw [slots_bcacheTouch, tickCounter_bcacheTouch, ht]
  rwa [← hv] at hhit

/-- An evicted entry is tagged and touched. -/
theorem fill (h : b.Recent accesses n) (hn : n + 1 < 2 ^ 32) {lba : ℕ} (hnone : bcacheFind b lba = none)
    {b' : Bcache α} (hs : b'.slots = Function.update b.slots (bcacheEvict b).1
      { b'.slots (bcacheEvict b).1 with key := lba, valid := true })
    (ht' : b'.tickCounter = b.tickCounter) :
    (bcacheTouch b' (bcacheEvict b).1).Recent (accesses ++ [lba]) (n + 1) := by
  have hle := h.tick_le
  have ht : succ32 b'.tickCounter = b.tickCounter + 1 := by
    rw [ht']
    exact succ32_of_lt (by omega)
  have hmiss := h.tracks.miss (slots_bcacheEvict b).1 (bcacheFind_none hnone)
    (Nat.lt_succ_self b.tickCounter)
  refine ⟨?_, by rw [tickCounter_bcacheTouch, ht]; omega⟩
  rw [slots_bcacheTouch, tickCounter_bcacheTouch, ht, hs, Function.update_idem]
  simpa using hmiss

theorem read (h : b.Recent accesses n) (hn : n + 1 < 2 ^ 32) {v : ℕ → α} (hrep : b.Represents v) (lba : ℕ) :
    (bcacheRead b lba).2.Recent (accesses ++ [lba]) (n + 1) := by
  simp only [bcacheRead]
  split
  · rename_i i hi
    set b₀ : Bcache α := { b with hits := succ32 b.hits }
    have h₀ : b₀.Recent accesses n := h.congr rfl rfl
    exact h₀.touch hn (bcacheFind_some hi)
  · rename_i hnone
    set b₀ : Bcache α := { b with misses := succ32 b.misses }
    have h₀ : b₀.Recent accesses n := h.congr rfl rfl
    have hrep₀ : b₀.Represents v := hrep.congr rfl rfl rfl
    rw [ataReadSectors_of_reliable hrep₀.evict.reliable]
    refine h₀.fill hn hnone ?_ (tickCounter_bcacheEvict b₀)
    rw [slots_setEntry, Function.update_self]
    exact update_bcacheEvict b₀ _

/-- Storing into an entry and touching it. -/
theorem store (h : b.Recent accesses n) (hn : n + 1 < 2 ^ 32) {lba : ℕ} {i : Fin bcacheSize}
    (hi : (b.slots i).valid ∧ (b.slots i).key = lba) (data : α) :
    (bcacheTouch (b.setEntry i { b.cache i with data, dirty := true }) i).Recent (accesses ++ [lba])
      (n + 1) := by
  have hs : (b.setEntry i { b.cache i with data, dirty := true }).slots = b.slots :=
    slots_setEntry_of_slot_eq rfl
  exact (h.congr hs rfl).touch hn (by rw [hs]; exact hi)

/-- A write gives the entry of a missed sector two ticks. -/
theorem write (h : b.Recent accesses n) (hn : n + 2 < 2 ^ 32) (lba : ℕ) (data : α) :
    (bcacheWrite b lba data).2.Recent (accesses ++ [lba]) (n + 2) := by
  simp only [bcacheWrite, bcacheClaim]
  cases hfind : bcacheFind b lba with
  | some i =>
    have h' := h.store (by omega) (bcacheFind_some hfind) data
    exact ⟨h'.tracks, h'.tick_le.trans (Nat.le_succ _)⟩
  | none =>
    simp only
    set i := (bcacheEvict b).1
    set b₁ := (bcacheEvict b).2.setEntry i { (bcacheEvict b).2.cache i with lba, valid := true } with hb₁
    have h₁ : (bcacheTouch b₁ i).Recent (accesses ++ [lba]) (n + 1) := by
      refine h.fill (by omega) hfind ?_ (tickCounter_bcacheEvict b)
      rw [hb₁, slots_setEntry, Function.update_self]
      exact update_bcacheEvict b _
    have hi : ((bcacheTouch b₁ i).slots i).valid ∧ ((bcacheTouch b₁ i).slots i).key = lba := by
      simp [hb₁, BcacheEntry.slot]
    have h₂ := h₁.store hn hi data
    exact ⟨h₂.tracks.concat_concat, h₂.tick_le⟩

theorem markDirty (h : b.Recent accesses n) (lba : ℕ) : (bcacheMarkDirty b lba).Recent accesses n := by
  simp only [bcacheMarkDirty]
  split
  · exact h.congr (slots_setEntry_of_slot_eq rfl) rfl
  · exact h

theorem syncLoop (h : b.Recent accesses n) (is : List (Fin bcacheSize)) (k : ℤ) :
    (bcacheSyncLoop is k b).2.Recent accesses n := by
  induction is generalizing b k with
  | nil => exact h
  | cons i is ih =>
    simp only [bcacheSyncLoop]
    split
    · split
      · exact h.congr rfl rfl
      · apply ih
        exact h.congr (slots_setEntry_of_slot_eq rfl) rfl
    · exact ih h k

theorem invalidate [Inhabited α] (h : b.Recent accesses n) : (bcacheInvalidate b).Recent [] n :=
  ⟨.of_invalid _ fun _ => rfl, (h.syncLoop (List.finRange bcacheSize) 0).tick_le⟩

end Bcache.Recent

/-! ## Runs -/

/-- The sectors accessed since the last `bcache_invalidate`, oldest first. -/
def accessStep (accesses : List ℕ) : BcacheOp α → List ℕ
  | .read lba => accesses ++ [lba]
  | .write lba _ => accesses ++ [lba]
  | .invalidate => []
  | .markDirty _ => accesses
  | .sync => accesses

/-- The sectors accessed by the calls `ops` since the last `bcache_invalidate` among them, oldest first. -/
def accessed (ops : List (BcacheOp α)) : List ℕ := Run.run accessStep [] ops

/-- The calls of `bcache_read` and `bcache_write`. -/
def BcacheOp.isAccess : BcacheOp α → Bool
  | .read _ => true
  | .write _ _ => true
  | _ => false

/-- One call: an access takes at most two ticks. -/
theorem Bcache.Recent.step [Inhabited α] {b : Bcache α} {v : ℕ → α} {accesses : List ℕ} {n : ℕ}
    (h : b.Recent accesses (2 * n)) (hrep : b.Represents v) (op : BcacheOp α)
    (hn : n + (if op.isAccess then 1 else 0) < 2 ^ 31) :
    (bcacheStep b op).Recent (accessStep accesses op) (2 * (n + if op.isAccess then 1 else 0)) := by
  cases op with
  | read lba =>
    have hn' : n + 1 < 2 ^ 31 := hn
    have h' := h.read (by omega) hrep lba
    exact ⟨h'.tracks, h'.tick_le.trans (Nat.le_succ _)⟩
  | write lba data =>
    have hn' : n + 1 < 2 ^ 31 := hn
    exact h.write (by omega) lba data
  | markDirty lba => exact h.markDirty lba
  | sync => exact h.syncLoop _ 0
  | invalidate => exact h.invalidate

/-- A run of fewer than `2 ^ 31` accesses. -/
theorem recent_run [Inhabited α] {disk : AtaDisk α} (hdisk : disk.Reliable) (ops : List (BcacheOp α))
    (hops : ops.countP BcacheOp.isAccess < 2 ^ 31) :
    (Run.run bcacheStep (bcacheInit disk) ops).Recent (accessed ops)
      (2 * ops.countP BcacheOp.isAccess) := by
  induction ops using List.reverseRecOn with
  | nil => exact ⟨.of_invalid _ fun _ => rfl, Nat.zero_le _⟩
  | append_singleton ops op ih =>
    rw [List.countP_append, List.countP_singleton] at hops ⊢
    rw [Run.run_append, accessed, Run.run_append]
    exact (ih (by omega)).step ((Bcache.Represents.init hdisk).run ops) op hops

/-- A miss of `bcache_read`, as its counter shows it. -/
def bcacheMisses (b : Bcache α) (lba : ℕ) : Prop := (bcacheRead b lba).2.misses ≠ b.misses

theorem succ32_ne (n : ℕ) : succ32 n ≠ n := by
  unfold succ32
  omega

theorem misses_bcacheEvict (b : Bcache α) : (bcacheEvict b).2.misses = b.misses := by
  unfold bcacheEvict
  split
  · rfl
  · simp only [Bcache.setEntry, bcacheFlushEntry]
    split <;> rfl

/-- A block misses if no valid entry holds it. -/
theorem bcacheMisses_iff (b : Bcache α) (lba : ℕ) : bcacheMisses b lba ↔ bcacheFind b lba = none := by
  unfold bcacheMisses bcacheRead
  cases bcacheFind b lba with
  | some i => exact iff_of_false (fun h => h rfl) nofun
  | none =>
    refine iff_of_true ?_ rfl
    have hmisses : (bcacheEvict { b with misses := succ32 b.misses }).2.misses = succ32 b.misses :=
      misses_bcacheEvict _
    simp only [ataReadSectors]
    split
    all_goals
      show (bcacheEvict _).2.misses ≠ _
      rw [hmisses]
      exact succ32_ne _

/-- **Exact LRU.** After any calls on a reliable disk, fewer than `2 ^ 31` of them accesses, the valid
entries hold the most recently accessed sectors since the last `bcache_invalidate`, each of them once, and
`bcache_read` misses a sector exactly if it has not been accessed since, or if at least `BCACHE_SIZE` other
sectors have been accessed after its last access. -/
theorem bcache_exactly_lru [Inhabited α] (disk : AtaDisk α) (hdisk : disk.Reliable)
    (ops : List (BcacheOp α)) (hops : ops.countP BcacheOp.isAccess < 2 ^ 31) :
    let b := Run.run bcacheStep (bcacheInit disk) ops
    (∀ lba, (∃ i, (b.cache i).valid ∧ (b.cache i).lba = lba) ↔
      lba ∈ mostRecent bcacheSize (accessed ops)) ∧
    (∀ i j, (b.cache i).valid → (b.cache j).valid → (b.cache i).lba = (b.cache j).lba → i = j) ∧
    (∀ lba, bcacheMisses b lba ↔
      lba ∉ accessed ops ∨ bcacheSize ≤ (since lba (accessed ops)).toFinset.card) := by
  intro b
  have h : Tracks b.slots b.tickCounter (accessed ops) := (recent_run hdisk ops hops).tracks
  have hheld : ∀ lba, (∃ i, (b.cache i).valid ∧ (b.cache i).lba = lba) ↔
      lba ∈ mostRecent bcacheSize (accessed ops) := fun lba => by
    have := (h.mem_iff lba).symm
    rwa [Fintype.card_fin] at this
  refine ⟨hheld, fun i j => h.unique, fun lba => ?_⟩
  rw [bcacheMisses_iff, ← not_lt, ← not_and_or, ← mem_mostRecent, ← hheld, bcacheFind, List.find?_eq_none]
  simp

/-- Sectors 5 and 7 are accessed, the cache is emptied, and sector 3 is accessed. Of the three, only
sector 3 is then found. -/
theorem bcache_exactly_lru_invalidated :
    let ops : List (BcacheOp ℕ) := [.read 5, .write 7 0, .invalidate, .read 3, .sync]
    let b := Run.run bcacheStep (bcacheInit ⟨id, fun _ => false, 0⟩) ops
    ops.countP BcacheOp.isAccess < 2 ^ 31 ∧
      bcacheMisses b 5 ∧ bcacheMisses b 7 ∧ ¬bcacheMisses b 3 := by
  have hops : [BcacheOp.read 5, .write 7 0, .invalidate, .read 3, .sync].countP
      (@BcacheOp.isAccess ℕ) < 2 ^ 31 := by decide
  have hmiss := (bcache_exactly_lru (⟨id, fun _ => false, 0⟩ : AtaDisk ℕ) (fun _ => rfl) _ hops).2.2
  refine ⟨hops, (hmiss 5).mpr (by decide), (hmiss 7).mpr (by decide), fun h => ?_⟩
  exact absurd ((hmiss 3).mp h) (by decide)

end PlantOS.Fs
