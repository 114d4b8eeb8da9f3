import PlantOS.Fs.Bcache

/-!
# The buffer cache on a failing disk

Every request to the disk may fail. `bcache_write` only stores into the cache, so its result 0 is a promise
that the data will reach the disk or that some later call reports an error. The ghost state
`BcacheSys.owed` records which data is still promised: the latest write to each sector, until a call
reports an error.

`bcache_evict` ignores the result of its write and `bcache_invalidate` that of `bcache_sync`, so both can drop
the only copy of promised data. `bcache_keeps_iff` says that they are the only ways to lose it: a run keeps
its promises exactly if no step of it drops the last copy of promised data (`BcacheSys.Spares`).

Reference: `fs/bcache.c`, `drivers/ata.c`.
-/

namespace PlantOS.Fs

variable {α : Type*}

/-! ## Promised data -/

/-- The cache, with the data promised for each sector. -/
structure BcacheSys (α : Type*) where
  bcache : Bcache α
  owed : ℕ → Option α

/-- The call reports an error: `NULL` from `bcache_read`, a negative result of `bcache_write` or
`bcache_sync`. The other two return nothing. -/
def BcacheOp.fails (b : Bcache α) : BcacheOp α → Bool
  | .read lba => (bcacheRead b lba).1.isNone
  | .write lba data => decide ((bcacheWrite b lba data).1 < 0)
  | .sync => decide ((bcacheSync b).1 < 0)
  | .markDirty _ | .invalidate => false

/-- The data promised after a call that reports no error. -/
def BcacheOp.promise (owed : ℕ → Option α) : BcacheOp α → ℕ → Option α
  | .write lba data => Function.update owed lba (some data)
  | _ => owed

/-- One call. A reported error releases the cache from all earlier promises. -/
def bcacheSysStep [Inhabited α] (s : BcacheSys α) (op : BcacheOp α) : BcacheSys α :=
  { bcache := bcacheStep s.bcache op
    owed := if op.fails s.bcache then fun _ => none else op.promise s.owed }

/-- `bcache_init`: nothing is promised. -/
def bcacheSysInit [Inhabited α] (disk : AtaDisk α) : BcacheSys α := ⟨bcacheInit disk, fun _ => none⟩

/-- All promised data is in a valid entry or on the disk. -/
def BcacheSys.Keeps (s : BcacheSys α) : Prop :=
  ∀ lba d, s.owed lba = some d →
    (∃ i, (s.bcache.cache i).valid ∧ (s.bcache.cache i).lba = lba ∧ (s.bcache.cache i).data = d) ∨
      s.bcache.disk.sectors lba = d

/-! ## The condition -/

/-- The disk serves the request that comes after `n` others. -/
def Bcache.Serves (b : Bcache α) (n : ℕ) : Prop := b.disk.fault (b.disk.served + n) = false

instance (b : Bcache α) (n : ℕ) : Decidable (b.Serves n) := inferInstanceAs (Decidable (_ = _))

/-- Entry `i` waits to be written back. -/
def Bcache.pending (b : Bcache α) (i : Fin bcacheSize) : Bool := (b.cache i).valid && (b.cache i).dirty

/-- How many of the entries `is` that come before `i` are pending: `bcache_sync` writes them before `i`. -/
def Bcache.pendingBefore (b : Bcache α) (is : List (Fin bcacheSize)) (i : Fin bcacheSize) : ℕ :=
  (is.takeWhile (· ≠ i)).countP b.pending

/-- Entry `i` is the only copy of promised data. -/
def BcacheSys.SoleCopy (s : BcacheSys α) (i : Fin bcacheSize) : Prop :=
  s.bcache.pending i ∧ s.owed (s.bcache.cache i).lba = some (s.bcache.cache i).data ∧
    s.bcache.disk.sectors (s.bcache.cache i).lba ≠ (s.bcache.cache i).data

/-- An eviction loses nothing: there is an unused entry, the least recently used one is not the only copy of
promised data, or the disk serves its write. -/
def BcacheSys.EvictSpares (s : BcacheSys α) : Prop :=
  (∃ i, (s.bcache.cache i).valid = false) ∨ ¬s.SoleCopy (bcacheLru s.bcache) ∨ s.bcache.Serves 0

/-- The call drops no last copy of promised data, unless it reports an error. -/
def BcacheSys.Spares (s : BcacheSys α) : BcacheOp α → Prop
  | .read lba => bcacheFind s.bcache lba = none → s.EvictSpares ∨ ¬s.bcache.Serves 1
  | .write lba _ => bcacheFind s.bcache lba = none → s.EvictSpares
  | .invalidate => ∀ i, s.SoleCopy i →
      ∀ n ≤ s.bcache.pendingBefore (List.finRange bcacheSize) i, s.bcache.Serves n
  | .markDirty _ | .sync => True

/-! ## What the calls keep

`Kept s v` is the invariant: cache and disk represent `v`, which has all promised data in it.
-/

/-- The represented sectors hold all promised data. -/
structure BcacheSys.Kept (s : BcacheSys α) (v : ℕ → α) : Prop where
  coherent : s.bcache.Coherent v
  owed : ∀ lba d, s.owed lba = some d → v lba = d

/-- Represented data is in a valid entry or on the disk. -/
theorem BcacheSys.Kept.keeps {s : BcacheSys α} {v : ℕ → α} (h : s.Kept v) : s.Keeps := by
  intro lba d hd
  rw [← h.owed lba d hd]
  by_cases hex : ∃ i, (s.bcache.lines i).valid ∧ (s.bcache.lines i).key = lba
  · obtain ⟨i, hv, hk⟩ := hex
    refine .inl ⟨i, hv, hk, ?_⟩
    rw [← hk]
    exact h.coherent.holds i hv
  · exact .inr (h.coherent.backed lba fun i hi _ hk => hex ⟨i, hi, hk⟩)

/-- Promised data is lost once neither the represented sectors nor the disk have it. -/
theorem Bcache.Coherent.not_keeps {s : BcacheSys α} {v : ℕ → α} (h : s.bcache.Coherent v) (lba : ℕ)
    (d : α) (howed : s.owed lba = some d) (hv : v lba ≠ d) (hdisk : s.bcache.disk.sectors lba ≠ d) :
    ¬s.Keeps := by
  intro hkeeps
  obtain ⟨i, hvalid, rfl, rfl⟩ | heq := hkeeps lba d howed
  · exact hv (h.holds i hvalid).symm
  · exact hdisk heq

/-- Releasing promises keeps the rest. -/
theorem Bcache.Coherent.kept_none {b : Bcache α} {v : ℕ → α} (h : b.Coherent v) :
    BcacheSys.Kept ⟨b, fun _ => none⟩ v :=
  ⟨h, fun _ _ hd => by cases hd⟩

section Evict

variable {b : Bcache α} {v : ℕ → α}

/-- The next eviction drops a dirty entry that the disk does not take. -/
def Bcache.Drops (b : Bcache α) : Prop :=
  (∀ i, (b.cache i).valid) ∧ b.pending (bcacheLru b) ∧ ¬b.Serves 0

/-- Otherwise eviction keeps the contents. -/
theorem Bcache.Coherent.evict (h : b.Coherent v) (hkeep : ¬b.Drops) : (bcacheEvict b).2.Coherent v := by
  rcases bcacheEvict_cases b with ⟨-, heq⟩ | ⟨hvalid, -, hlines, hdisk⟩
  · rw [heq]
    exact h
  set i := bcacheLru b with hlru
  cases hd : (b.lines i).dirty with
  | false =>
    rw [Coherent, hlines, hdisk, flushDisk, hd]
    exact WriteBack.Coherent.drop h hd rfl
  | true =>
    have hserves : b.disk.fault b.disk.served = false := by
      by_contra hf
      exact hkeep ⟨hvalid, Bool.and_eq_true_iff.mpr ⟨hvalid i, hd⟩, hf⟩
    rw [Coherent, hlines, hdisk, flushDisk, if_pos hd, ataWriteSectors, hserves,
      ← Function.update_idem { b.lines i with dirty := false }]
    exact (WriteBack.Coherent.flush h (hvalid i)).drop (by simp) rfl

/-- A dropped sector falls back to what the disk has. -/
theorem Bcache.Coherent.evict_drops (h : b.Coherent v) (hdrops : b.Drops) :
    (bcacheEvict b).2.disk = { b.disk with served := b.disk.served + 1 } ∧
      (bcacheEvict b).2.Coherent (Function.update v (b.cache (bcacheLru b)).lba
        (b.disk.sectors (b.cache (bcacheLru b)).lba)) := by
  obtain ⟨hvalid, hpend, hserves⟩ := hdrops
  rcases bcacheEvict_cases b with ⟨hinv, -⟩ | ⟨-, -, hlines, hdisk⟩
  · exact absurd (hvalid _) (by rw [show (b.cache _).valid = false from hinv]; decide)
  have hdirty : (b.lines (bcacheLru b)).dirty := (Bool.and_eq_true_iff.mp hpend).2
  have hsame : (bcacheEvict b).2.disk = { b.disk with served := b.disk.served + 1 } := by
    rw [hdisk, flushDisk, if_pos hdirty, ataWriteSectors, if_pos (by simpa [Serves] using hserves)]
  refine ⟨hsame, ?_⟩
  rw [Coherent, hlines, hsame]
  exact WriteBack.Coherent.lose h (hvalid _) rfl

/-- Whatever the disk answers, eviction leaves cache and disk coherent. -/
theorem Bcache.Coherent.evict_exists (h : b.Coherent v) : ∃ v', (bcacheEvict b).2.Coherent v' := by
  by_cases hdrops : b.Drops
  · exact ⟨_, (h.evict_drops hdrops).2⟩
  · exact ⟨v, h.evict hdrops⟩

end Evict

/-- `bcache_read` of a sector that is not cached. -/
theorem bcacheRead_miss {b : Bcache α} {lba : ℕ} (hfind : bcacheFind b lba = none) :
    let e := bcacheEvict { b with misses := succ32 b.misses }
    let disk := { e.2.disk with served := e.2.disk.served + 1 }
    bcacheRead b lba =
      if e.2.Serves 0 then
        (some (disk.sectors lba), bcacheTouch ({ e.2 with disk }.setEntry e.1
          { e.2.cache e.1 with lba, data := disk.sectors lba, valid := true, dirty := false }) e.1)
      else (none, { e.2 with disk }) := by
  intro e disk
  by_cases hserves : e.2.Serves 0
  · rw [if_pos hserves]
    have hok : e.2.disk.fault e.2.disk.served = false := hserves
    simp [bcacheRead, hfind, ataReadSectors, e, disk, hok]
  · have hfault : e.2.disk.fault e.2.disk.served = true := by simpa [Bcache.Serves] using hserves
    rw [if_neg hserves]
    simp [bcacheRead, hfind, ataReadSectors, e, disk, hfault]

namespace BcacheSys.Kept

variable {s : BcacheSys α} {v : ℕ → α}

/-- A pending entry that is promised holds the promised data. -/
theorem owed_eq (h : s.Kept v) {i : Fin bcacheSize} {d : α} (hi : s.bcache.pending i)
    (hd : s.owed (s.bcache.cache i).lba = some d) : (s.bcache.cache i).data = d :=
  (h.coherent.holds i (Bool.and_eq_true_iff.mp hi).1).trans (h.owed _ d hd)

/-- An eviction that spares the promised data keeps it. -/
theorem evict (h : s.Kept v) (hspares : s.EvictSpares) :
    ∃ v', Kept ⟨(bcacheEvict s.bcache).2, s.owed⟩ v' := by
  by_cases hdrops : s.bcache.Drops
  swap
  · exact ⟨v, h.coherent.evict hdrops, h.owed⟩
  refine ⟨_, (h.coherent.evict_drops hdrops).2, fun lba d hd => ?_⟩
  by_cases hlba : lba = (s.bcache.cache (bcacheLru s.bcache)).lba
  swap
  · rw [Function.update_of_ne hlba]
    exact h.owed lba d hd
  · rw [hlba, Function.update_self]
    rw [hlba] at hd
    obtain ⟨hvalid, hpend, hserves⟩ := hdrops
    have hdata := h.owed_eq hpend hd
    -- The entry is dropped without being written, so it is not the only copy.
    rcases hspares with ⟨i, hi⟩ | hsole | hserves'
    · exact absurd (hvalid i) (by simp [hi])
    · by_contra hne
      exact hsole ⟨hpend, by rw [hd, hdata], by rwa [hdata]⟩
    · exact absurd hserves' hserves

/-- An eviction that does not spare it drops promised data: `lba` falls back to what the disk has. -/
theorem evict_loses (h : s.Kept v) (hspares : ¬s.EvictSpares) :
    ∃ lba d, s.owed lba = some d ∧ (∃ i, (s.bcache.lines i).valid ∧ (s.bcache.lines i).key = lba) ∧
      s.bcache.disk.sectors lba ≠ d ∧
      (bcacheEvict s.bcache).2.disk = { s.bcache.disk with served := s.bcache.disk.served + 1 } ∧
      (bcacheEvict s.bcache).2.Coherent (Function.update v lba (s.bcache.disk.sectors lba)) := by
  obtain ⟨hvalid, hsole, hserves⟩ : (∀ i, (s.bcache.cache i).valid) ∧
      s.SoleCopy (bcacheLru s.bcache) ∧ ¬s.bcache.Serves 0 := by
    simpa only [EvictSpares, not_or, not_exists, Bool.not_eq_false, not_not] using hspares
  exact ⟨_, _, hsole.2.1, ⟨_, hvalid _, rfl⟩, hsole.2.2,
    h.coherent.evict_drops ⟨hvalid, hsole.1, hserves⟩⟩

/-! ### Writes -/

theorem write [Inhabited α] (h : s.Kept v) {lba : ℕ} {data : α} (hspares : s.Spares (.write lba data)) :
    ∃ v', (bcacheSysStep s (.write lba data)).Kept v' := by
  have howed : ∀ {v' : ℕ → α}, (∀ l d, s.owed l = some d → v' l = d) →
      ∀ l d, Function.update s.owed lba (some data) l = some d → Function.update v' lba data l = d := by
    intro v' hv' l d hd
    by_cases hl : l = lba
    · subst hl
      simpa using hd
    · rw [Function.update_of_ne hl] at hd ⊢
      exact hv' l d hd
  cases hfind : bcacheFind s.bcache lba with
  | some i => exact ⟨_, h.coherent.write_hit hfind data, howed h.owed⟩
  | none =>
    obtain ⟨v', hv'⟩ := h.evict (hspares hfind)
    exact ⟨_, .write_miss hfind hv'.coherent data, howed hv'.owed⟩

theorem write_loses [Inhabited α] (h : s.Kept v) {lba : ℕ} {data : α}
    (hspares : ¬s.Spares (.write lba data)) : ¬(bcacheSysStep s (.write lba data)).Keeps := by
  obtain ⟨hfind, hevict⟩ := Classical.not_imp.mp hspares
  obtain ⟨l, d, howed, ⟨i, hi, hkey⟩, hdisk, hsame, hcoh⟩ := h.evict_loses hevict
  have hl : l ≠ lba := by
    rw [← hkey]
    exact bcacheFind_none hfind i hi
  have hwrite : (bcacheWrite s.bcache lba data).2.disk = (bcacheEvict s.bcache).2.disk := by
    simp only [bcacheWrite, bcacheClaim, hfind, disk_bcacheTouch, disk_setEntry]
  refine Bcache.Coherent.not_keeps (.write_miss hfind hcoh data) l d ?_ ?_ ?_
  · show Function.update s.owed lba (some data) l = some d
    rw [Function.update_of_ne hl, howed]
  · rw [Function.update_of_ne hl, Function.update_self]
    exact hdisk
  · show (bcacheWrite s.bcache lba data).2.disk.sectors l ≠ d
    rw [hwrite, hsame]
    exact hdisk

/-! ### Reads -/

theorem read [Inhabited α] (h : s.Kept v) {lba : ℕ} (hspares : s.Spares (.read lba)) :
    ∃ v', (bcacheSysStep s (.read lba)).Kept v' := by
  cases hfind : bcacheFind s.bcache lba with
  | some i =>
    refine ⟨v, ?_, ?_⟩
    · show (bcacheRead s.bcache lba).2.Coherent v
      simp only [bcacheRead, hfind]
      rw [Bcache.Coherent, lines_bcacheTouch]
      exact h.coherent
    · simp only [bcacheSysStep, BcacheOp.fails, bcacheRead, hfind]
      exact h.owed
  | none =>
    have hmiss := bcacheRead_miss hfind
    set b₀ : Bcache α := { s.bcache with misses := succ32 s.bcache.misses } with hb₀
    have h₀ : Kept ⟨b₀, s.owed⟩ v := ⟨h.coherent, h.owed⟩
    simp only [bcacheSysStep, bcacheStep, BcacheOp.fails, hmiss]
    by_cases hserves : (bcacheEvict b₀).2.Serves 0
    · have hevict : s.EvictSpares := by
        by_contra hn
        obtain ⟨_, _, -, -, -, hdisk, -⟩ := h₀.evict_loses hn
        refine (hspares hfind).resolve_left hn ?_
        rwa [Bcache.Serves, hdisk] at hserves
      obtain ⟨v', hv'⟩ := h₀.evict hevict
      rw [if_pos hserves]
      exact ⟨v', hv'.coherent.fill rfl (bcacheEvict_frees b₀).1 (bcacheEvict_misses hfind), hv'.owed⟩
    · obtain ⟨v', hv'⟩ := h₀.coherent.evict_exists
      rw [if_neg hserves]
      exact ⟨v', Bcache.Coherent.kept_none hv'⟩

theorem read_loses [Inhabited α] (h : s.Kept v) {lba : ℕ} (hspares : ¬s.Spares (.read lba)) :
    ¬(bcacheSysStep s (.read lba)).Keeps := by
  obtain ⟨hfind, hn⟩ := Classical.not_imp.mp hspares
  obtain ⟨hevict, hserves⟩ := not_or.mp hn
  have hmiss := bcacheRead_miss hfind
  set b₀ : Bcache α := { s.bcache with misses := succ32 s.bcache.misses } with hb₀
  have h₀ : Kept ⟨b₀, s.owed⟩ v := ⟨h.coherent, h.owed⟩
  obtain ⟨l, d, howed, -, hdisk, hsame, hcoh⟩ := h₀.evict_loses hevict
  have hserved : (bcacheEvict b₀).2.Serves 0 := by
    rw [Bcache.Serves, hsame]
    exact not_not.mp hserves
  simp only [bcacheSysStep, bcacheStep, BcacheOp.fails, hmiss, if_pos hserved]
  refine Bcache.Coherent.not_keeps
    (hcoh.fill rfl (bcacheEvict_frees b₀).1 (bcacheEvict_misses hfind)) l d howed ?_ ?_
  · rw [Function.update_self]
    exact hdisk
  · show (bcacheEvict b₀).2.disk.sectors l ≠ d
    rw [hsame]
    exact hdisk

end BcacheSys.Kept

/-! ### The loop of `bcache_sync` -/

section Sync

variable {b : Bcache α} {v : ℕ → α} {i : Fin bcacheSize}

/-- Entry `i` has been written back. -/
def Bcache.flushed (b : Bcache α) (i : Fin bcacheSize) : Bcache α :=
  { b with disk := { b.disk with
      sectors := Function.update b.disk.sectors (b.cache i).lba (b.cache i).data
      served := b.disk.served + 1 } }.setEntry i { b.cache i with dirty := false }

theorem bcacheSyncLoop_skip (hi : b.pending i = false) (is : List (Fin bcacheSize)) (n : ℤ) :
    bcacheSyncLoop (i :: is) n b = bcacheSyncLoop is n b :=
  if_neg (by rw [show ((b.cache i).valid && (b.cache i).dirty) = false from hi]; decide)

theorem bcacheSyncLoop_fail (hi : b.pending i) (hserves : ¬b.Serves 0) (is : List (Fin bcacheSize))
    (n : ℤ) : bcacheSyncLoop (i :: is) n b
      = (-1, { b with disk := { b.disk with served := b.disk.served + 1 } }) := by
  have hfault : b.disk.fault b.disk.served = true := by simpa [Bcache.Serves] using hserves
  have hvd : ((b.cache i).valid && (b.cache i).dirty) = true := hi
  simp only [bcacheSyncLoop, hvd, ataWriteSectors, hfault, if_true, Int.reduceNeg, Int.reduceLT]

theorem bcacheSyncLoop_flush (hi : b.pending i) (hserves : b.Serves 0) (is : List (Fin bcacheSize))
    (n : ℤ) : bcacheSyncLoop (i :: is) n b = bcacheSyncLoop is (n + 1) (b.flushed i) := by
  have hfault : b.disk.fault b.disk.served = false := hserves
  have hvd : ((b.cache i).valid && (b.cache i).dirty) = true := hi
  simp only [bcacheSyncLoop, hvd, ataWriteSectors, hfault, if_true, if_false, lt_self_iff_false,
    Bool.false_eq_true, Bcache.flushed]

theorem serves_flushed {n : ℕ} : (b.flushed i).Serves n ↔ b.Serves (n + 1) := by
  show b.disk.fault (b.disk.served + 1 + n) = false ↔ b.disk.fault (b.disk.served + (n + 1)) = false
  rw [Nat.add_right_comm, Nat.add_assoc]

theorem Bcache.Coherent.flushed (h : b.Coherent v) (hi : b.pending i) : (b.flushed i).Coherent v := by
  rw [Coherent, Bcache.flushed, lines_setEntry]
  exact WriteBack.Coherent.flush h (Bool.and_eq_true_iff.mp hi).1

/-- Writing back `i` changes neither the other entries nor what the disk has of them. -/
theorem Bcache.Coherent.flushed_of_ne (h : b.Coherent v) (hi : b.pending i) {j : Fin bcacheSize}
    (hij : j ≠ i) : (b.flushed i).cache j = b.cache j ∧ (b.pending j →
      (b.flushed i).disk.sectors (b.cache j).lba = b.disk.sectors (b.cache j).lba) := by
  refine ⟨Function.update_of_ne hij _ _, fun hj => Function.update_of_ne (fun hkey => hij ?_) _ _⟩
  exact h.unique j i (Bool.and_eq_true_iff.mp hj).1 (Bool.and_eq_true_iff.mp hi).1 hkey

/-- Whatever the disk answers, the loop keeps the contents and only writes represented sectors. -/
theorem Bcache.Coherent.syncLoop (h : b.Coherent v) (is : List (Fin bcacheSize)) (n : ℤ) :
    (bcacheSyncLoop is n b).2.Coherent v ∧ ∀ k, (bcacheSyncLoop is n b).2.disk.sectors k = v k ∨
      (bcacheSyncLoop is n b).2.disk.sectors k = b.disk.sectors k := by
  induction is generalizing b n with
  | nil => exact ⟨h, fun _ => .inr rfl⟩
  | cons i is ih =>
    cases hi : b.pending i with
    | false =>
      rw [bcacheSyncLoop_skip hi]
      exact ih h n
    | true =>
      by_cases hserves : b.Serves 0
      · rw [bcacheSyncLoop_flush hi hserves]
        obtain ⟨hcoh, hsec⟩ := ih (h.flushed hi) (n + 1)
        refine ⟨hcoh, fun k => (hsec k).elim .inl fun hk => ?_⟩
        by_cases hki : k = (b.cache i).lba
        · left
          rw [hk, hki]
          exact (Function.update_self _ _ _).trans (h.holds i (Bool.and_eq_true_iff.mp hi).1)
        · exact .inr (hk.trans (Function.update_of_ne hki _ _))
      · rw [bcacheSyncLoop_fail hi hserves]
        exact ⟨h, fun _ => .inr rfl⟩

/-- The loop brings a pending entry to the disk exactly if the disk serves its write and those before it. -/
theorem Bcache.Coherent.sectors_syncLoop (h : b.Coherent v) {is : List (Fin bcacheSize)}
    (his : is.Nodup) (n : ℤ) {t : Fin bcacheSize} (ht : t ∈ is) (hpend : b.pending t) :
    (bcacheSyncLoop is n b).2.disk.sectors (b.cache t).lba =
      if ∀ m ≤ b.pendingBefore is t, b.Serves m then (b.cache t).data
      else b.disk.sectors (b.cache t).lba := by
  induction is generalizing b n with
  | nil => simp at ht
  | cons i is ih =>
    obtain ⟨hnot, hrest⟩ := List.nodup_cons.mp his
    by_cases hti : t = i
    · subst hti
      have hbefore : b.pendingBefore (t :: is) t = 0 := by simp [pendingBefore]
      rw [hbefore]
      -- `t` is the first pending entry: it is written if the next request is served.
      by_cases hserves : b.Serves 0
      · rw [bcacheSyncLoop_flush hpend hserves, if_pos (by simpa using hserves)]
        have hdata : (b.cache t).data = v (b.cache t).lba := h.holds t (Bool.and_eq_true_iff.mp hpend).1
        have hflushed : (b.flushed t).disk.sectors (b.cache t).lba = (b.cache t).data :=
          Function.update_self _ _ _
        -- Later entries do not write over it: at its sector they have the same data.
        rcases ((h.flushed hpend).syncLoop is (n + 1)).2 (b.cache t).lba with hk | hk
        · rw [hk, hdata]
        · rw [hk, hflushed]
      · rw [bcacheSyncLoop_fail hpend hserves, if_neg (by simpa using hserves)]
    have hmem : t ∈ is := (List.mem_cons.mp ht).resolve_left hti
    have hbefore : ∀ c : Bcache α, c.pendingBefore (i :: is) t
        = c.pendingBefore is t + if c.pending i then 1 else 0 := fun c => by
      simp [pendingBefore, Ne.symm hti, List.countP_cons]
    rw [hbefore]
    -- Another entry comes first. If it is pending, it takes one request.
    cases hi : b.pending i with
    | false =>
      rw [bcacheSyncLoop_skip hi]
      exact ih h hrest n hmem hpend
    | true =>
      by_cases hserves : b.Serves 0
      · rw [bcacheSyncLoop_flush hi hserves]
        obtain ⟨hcache, hdisk⟩ := h.flushed_of_ne hi hti
        have hpend' : (b.flushed i).pending t := by rwa [pending, hcache]
        have hcount : (b.flushed i).pendingBefore is t = b.pendingBefore is t := by
          refine List.countP_congr fun j hj => ?_
          have hji : j ≠ i := fun hji => hnot (hji ▸ (List.takeWhile_subset _ hj))
          rw [pending, (h.flushed_of_ne hi hji).1]
          rfl
        have hsame := ih (h.flushed hi) hrest (n + 1) hmem hpend'
        rw [hcache, hdisk hpend, hcount] at hsame
        rw [hsame]
        refine if_congr ⟨fun hall m hm => ?_, fun hall m hm => ?_⟩ rfl rfl
        · cases m with
          | zero => exact hserves
          | succ m => exact serves_flushed.mp (hall m (Nat.succ_le_succ_iff.mp hm))
        · exact serves_flushed.mpr (hall (m + 1) (Nat.succ_le_succ hm))
      · rw [bcacheSyncLoop_fail hi hserves, if_neg fun hall => hserves (hall 0 (Nat.zero_le _))]

end Sync

namespace BcacheSys.Kept

variable [Inhabited α] {s : BcacheSys α} {v : ℕ → α}

theorem sync (h : s.Kept v) : (bcacheSysStep s .sync).Kept v := by
  refine ⟨(h.coherent.syncLoop _ 0).1, fun lba d hd => ?_⟩
  simp only [bcacheSysStep] at hd
  split at hd
  · cases hd
  · exact h.owed lba d hd

/-- Dropping all entries keeps the promised data if the disk serves the writes of its last copies. -/
theorem invalidate (h : s.Kept v) (hspares : s.Spares .invalidate) :
    ∃ v', (bcacheSysStep s .invalidate).Kept v' := by
  refine ⟨(bcacheSync s.bcache).2.disk.sectors, WriteBack.Coherent.of_invalid fun _ => rfl,
    fun lba d hd => ?_⟩
  have hv : v lba = d := h.owed lba d hd
  obtain ⟨-, hsec⟩ := h.coherent.syncLoop (List.finRange bcacheSize) 0
  rcases hsec lba with hk | hk
  · exact hk.trans hv
  -- The disk still has the old contents, which is enough if no entry for the sector is pending.
  by_cases hex : ∃ i, s.bcache.pending i ∧ (s.bcache.cache i).lba = lba
  · obtain ⟨i, hi, rfl⟩ := hex
    have hdata := h.owed_eq hi hd
    by_contra hne
    have hsole : s.SoleCopy i := ⟨hi, by rw [hdata]; exact hd, by rw [hdata, ← hk]; exact hne⟩
    have hflush := h.coherent.sectors_syncLoop (List.nodup_finRange _) 0 (List.mem_finRange i) hi
    rw [if_pos (hspares i hsole), hdata] at hflush
    exact hne hflush
  · rw [← hv]
    refine hk.trans (h.coherent.backed lba fun i hi hdirty hkey => hex ⟨i, ?_, hkey⟩)
    exact Bool.and_eq_true_iff.mpr ⟨hi, hdirty⟩

/-- If it does not serve one of them, a last copy is lost. -/
theorem invalidate_loses (h : s.Kept v) (hspares : ¬s.Spares .invalidate) :
    ¬(bcacheSysStep s .invalidate).Keeps := by
  obtain ⟨i, hspares⟩ := not_forall.mp hspares
  obtain ⟨hsole, hfault⟩ := Classical.not_imp.mp hspares
  have hflush := h.coherent.sectors_syncLoop (List.nodup_finRange _) 0 (List.mem_finRange i) hsole.1
  rw [if_neg hfault] at hflush
  have hlost : (bcacheSync s.bcache).2.disk.sectors (s.bcache.cache i).lba ≠ (s.bcache.cache i).data := by
    rw [bcacheSync, hflush]
    exact hsole.2.2
  have hempty : (bcacheSysStep s .invalidate).bcache.Coherent (bcacheSync s.bcache).2.disk.sectors :=
    WriteBack.Coherent.of_invalid fun _ => rfl
  exact hempty.not_keeps _ _ hsole.2.1 hlost hlost

/-- A call that spares the promised data keeps it. -/
theorem step (h : ∃ v, s.Kept v) {op : BcacheOp α} (hspares : s.Spares op) :
    ∃ v, (bcacheSysStep s op).Kept v := by
  obtain ⟨v, hv⟩ := h
  cases op with
  | read lba => exact hv.read hspares
  | write lba data => exact hv.write hspares
  | markDirty lba => exact ⟨v, hv.coherent.markDirty lba, hv.owed⟩
  | sync => exact ⟨v, hv.sync⟩
  | invalidate => exact hv.invalidate hspares

/-- A call that does not spare the promised data loses some of it. -/
theorem step_loses (h : ∃ v, s.Kept v) {op : BcacheOp α} (hspares : ¬s.Spares op) :
    ¬(bcacheSysStep s op).Keeps := by
  obtain ⟨v, hv⟩ := h
  cases op with
  | read lba => exact hv.read_loses hspares
  | write lba data => exact hv.write_loses hspares
  | markDirty lba => exact absurd trivial hspares
  | sync => exact absurd trivial hspares
  | invalidate => exact hv.invalidate_loses hspares

end BcacheSys.Kept

/-! ## Runs -/

/-- On any disk, whatever requests fail: acknowledged writes are kept throughout a run, up to the next
reported error, exactly if no call of the run drops the last copy of one. -/
theorem bcache_keeps_iff [Inhabited α] (disk : AtaDisk α) (ops : List (BcacheOp α)) :
    (∀ pre post, ops = pre ++ post → (Run.run bcacheSysStep (bcacheSysInit disk) pre).Keeps) ↔
      Run.Admits bcacheSysStep BcacheSys.Spares (bcacheSysInit disk) ops := by
  have hinit : (bcacheInit disk).Coherent disk.sectors := WriteBack.Coherent.of_invalid fun _ => rfl
  refine (Run.admits_iff_safe (fun s => ∃ v, s.Kept v) ?_ ?_ ?_ ⟨disk.sectors, hinit.kept_none⟩).symm
  · rintro s ⟨v, hv⟩
    exact hv.keeps
  · exact fun s op h => BcacheSys.Kept.step h
  · exact fun s op h => BcacheSys.Kept.step_loses h

/-- A disk of zero sectors that fails the first request. -/
def failsFirst : AtaDisk ℕ := ⟨fun _ => 0, fun n => n == 0, 0⟩

/-- No promised data is in the cache or on the disk for this sector. -/
def BcacheSys.lost (s : BcacheSys ℕ) (lba d : ℕ) : Bool :=
  s.owed lba == some d && s.bcache.disk.sectors lba != d &&
    (List.finRange bcacheSize).all fun i =>
      !((s.bcache.cache i).valid && (s.bcache.cache i).lba == lba && (s.bcache.cache i).data == d)

theorem BcacheSys.not_keeps_of_lost {s : BcacheSys ℕ} {lba d : ℕ} (h : s.lost lba d) : ¬s.Keeps := by
  simp only [lost, Bool.and_eq_true, beq_iff_eq, bne_iff_ne, List.all_eq_true, Bool.not_eq_true',
    Bool.and_eq_false_iff, beq_eq_false_iff_ne] at h
  obtain ⟨⟨howed, hdisk⟩, hcache⟩ := h
  intro hkeeps
  obtain ⟨i, hv, hl, hd⟩ | heq := hkeeps lba d howed
  · rcases hcache i (List.mem_finRange i) with (hn | hn) | hn
    · rw [hv] at hn
      cases hn
    · exact hn hl
    · exact hn hd
  · exact hdisk heq

/-- `bcache_invalidate` drops the data of sector 3 when its write fails; and so does the last of 65 writes,
all of which return 0, with the data of sector 0. -/
theorem bcache_drops_acknowledged :
    ¬(Run.run bcacheSysStep (bcacheSysInit failsFirst) [.write 3 7, .invalidate]).Keeps ∧
    ¬(Run.run bcacheSysStep (bcacheSysInit failsFirst)
      ((List.range 65).map fun n => BcacheOp.write n 7)).Keeps :=
  ⟨BcacheSys.not_keeps_of_lost (show BcacheSys.lost _ 3 7 from by decide +kernel),
    BcacheSys.not_keeps_of_lost (show BcacheSys.lost _ 0 7 from by decide +kernel)⟩

end PlantOS.Fs
