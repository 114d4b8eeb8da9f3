import PlantOS.Common.LinkChain
import PlantOS.Fs.FatVolume
import Mathlib.Order.Interval.Finset.Nat

/-!
# FAT32: following damaged chains

The loops of `fs/fat.c` along a chain of clusters trust the links that they find on the disk. Here the FAT has
arbitrary entries: chains may be cyclic, be shared, or end anywhere.

Freeing a chain destroys the links it follows. It therefore ends on a cyclic chain as well, when it comes back
to an entry that it has cleared (`run_fatFreeChain_path`). Reading a directory follows its chain twice, and
only the walk that counts the clusters has a bound; the second one stores a cluster for each link. Reads may
fail. What is stored fits in the buffer if the first walk comes to the end of the chain within its bound, and
only then if the reads succeed (`ReadDirBounded`).

Reference: `fs/fat.c`, `fat_free_chain`, `fat_read_dir`.
-/

namespace PlantOS.Fs

open Prog FatPrim

variable {m : FatMount}

/-- The link of a cluster: the low 28 bits of its entry. -/
def nextCluster (m : FatMount) (v : ℕ → Sector) (c : ℕ) : ℕ := fatBytes m v c % 2 ^ 28

/-! ## Freeing a chain -/

section

variable {v v' v'' : ℕ → Sector} {s c : ℕ} {l l' : List ℕ}

/-- The clusters on the path from `s`, up to the first repetition or to a link that is no cluster. -/
structure FatPath (m : FatMount) (v : ℕ → Sector) (s : ℕ) (l : List ℕ) : Prop where
  nodup : l.Nodup
  links : LinkChain.IsChain (nextCluster m v) m.InRange (fun c => ¬IsCluster c ∨ c ∈ l) s l

/-- The low 28 bits of exactly the entries of the clusters `l` have been cleared. -/
structure Freed (m : FatMount) (v v' : ℕ → Sector) (l : List ℕ) : Prop where
  freed : ∀ c ∈ l, fatBytes m v' c = fatBytes m v c / 2 ^ 28 * 2 ^ 28
  kept : ∀ c < m.totalClusters + 2, c ∉ l → fatBytes m v' c = fatBytes m v c
  data : ∀ c, m.InRange c → ∀ j < m.sectorsPerCluster, v' (clusterToLba m c + j) = v (clusterToLba m c + j)

namespace Freed

theorem refl : Freed m v v [] where
  freed _ hc := absurd hc List.not_mem_nil
  kept _ _ _ := rfl
  data _ _ _ _ := rfl

/-- What `fat_write_entry(c, FAT32_FREE)` does. -/
theorem single (g : Geometry m) (hc : m.InRange c) :
    Freed m v (Function.update v (fatSector m c) (storeEntry m v c fat32Free)) [c] where
  freed b hb := by
    obtain rfl := List.mem_singleton.1 hb
    rw [fatBytes_storeEntry g v hc.2 hc.2, if_pos rfl, storedEntry, fat32Free, Nat.zero_mod, Nat.add_zero]
  kept b hb hbc := by
    rw [fatBytes_storeEntry g v hb hc.2, if_neg (by simpa using hbc)]
  data b hb j hj := Function.update_of_ne (g.fatSector_ne hc.2 hb hj).symm ..

/-- An entry that is clear already stays as it is. -/
theorem single_clear (g : Geometry m) (hc : m.InRange c) (h0 : nextCluster m v c = 0) :
    Freed m v (Function.update v (fatSector m c) (storeEntry m v c fat32Free)) [] where
  freed _ hb := absurd hb List.not_mem_nil
  kept b hb _ := by
    by_cases hbc : b = c
    · subst hbc
      rw [(single g hc).freed b (List.mem_singleton_self b)]
      exact Nat.div_mul_cancel (Nat.dvd_of_mod_eq_zero h0)
    · exact (single g hc).kept b hb (by simpa using hbc)
  data := (single g hc).data

theorem cons (hc : m.InRange c) (h : Freed m v v' [c]) (h' : Freed m v' v'' l) (hl : ∀ b ∈ l, m.InRange b) :
    Freed m v v'' (c :: l) where
  freed b hb := by
    have hlt : b < m.totalClusters + 2 := by
      obtain rfl | hb := List.mem_cons.1 hb
      · exact hc.2
      · exact (hl b hb).2
    by_cases hbc : b = c
    · subst hbc
      have hfreed := h.freed b (List.mem_singleton_self b)
      by_cases hbl : b ∈ l
      · rw [h'.freed b hbl, hfreed]
        omega
      · rw [h'.kept b hlt hbl, hfreed]
    · have hbl := (List.mem_cons.1 hb).resolve_left hbc
      rw [h'.freed b hbl, h.kept b hlt (by simpa using hbc)]
  kept b hb hbl := by
    obtain ⟨hbc, hbl⟩ := not_or.1 (fun h => hbl (List.mem_cons.2 h))
    rw [h'.kept b hb hbl, h.kept b hb (by simpa using hbc)]
  data b hb j hj := by rw [h'.data b hb j hj, h.data b hb j hj]

end Freed

/-- The meaning of the operations on the sectors of a disk. -/
abbrev diskPrim (m : FatMount) : Handler FatPrim FatPrim.Answer FatError (ℕ → Sector) :=
  fun i => run diskHandler (fatPrim m i)

theorem run_getEntry_disk (v : ℕ → Sector) (c : ℕ) :
    run (diskPrim m) (getEntry c) v = .ok (nextCluster m v c, v) := rfl

theorem run_putEntry_disk (v : ℕ → Sector) (c value : ℕ) : run (diskPrim m) (putEntry c value) v
    = .ok ((0 : ℤ), Function.update v (fatSector m c) (storeEntry m v c value)) := rfl

/-- The loop along a path that ends at one of the clusters `seen` before, which have been cleared, or at a
cluster of the path itself, which is clear by then. -/
theorem run_fatFreeChainLoop_path (g : Geometry m) {seen : ℕ → Prop}
    (hseen : ∀ c, seen c → m.InRange c ∧ nextCluster m v c = 0) (hnodup : l.Nodup)
    (hl : LinkChain.IsChain (nextCluster m v) m.InRange (fun c => ¬IsCluster c ∨ seen c ∨ c ∈ l) s l)
    {n : ℕ} (hn : l.length + 2 ≤ n) :
    ∃ v', run (diskPrim m) (fatFreeChainLoop n s) v = .ok ((), v') ∧ Freed m v v' l := by
  induction l generalizing v s n seen with
  | nil =>
    obtain ⟨n, rfl⟩ : ∃ k, n = k + 1 + 1 := ⟨n - 2, by simp at hn; omega⟩
    -- The chain ends, or it runs into a cluster that is free by now and reads as 0.
    by_cases hs : IsCluster s
    · obtain ⟨hr, h0⟩ := hseen s ((hl.resolve_left (not_not.2 hs)).resolve_right List.not_mem_nil)
      refine ⟨_, ?_, Freed.single_clear g hr h0⟩
      rw [fatFreeChainLoop, if_pos hs, run_bind_ok (run_getEntry_disk v s),
        run_bind_ok (run_putEntry_disk v s _), h0, fatFreeChainLoop, if_neg (by decide), run_pure]
    · exact ⟨v, by rw [fatFreeChainLoop, if_neg hs, run_pure], Freed.refl⟩
  | cons c l ih =>
    obtain ⟨n, rfl⟩ : ∃ k, n = k + 1 := ⟨n - 1, by simp at hn; omega⟩
    obtain ⟨rfl, hr, hl⟩ := hl
    obtain ⟨hnew, hnodup⟩ := List.nodup_cons.1 hnodup
    have hstep := Freed.single (v := v) g hr
    set v₁ := Function.update v (fatSector m s) (storeEntry m v s fat32Free) with hv₁
    have hclear : nextCluster m v₁ s = 0 := by
      rw [nextCluster, hstep.freed s (List.mem_singleton_self s)]
      exact Nat.mul_mod_left _ _
    have hsame : ∀ b, m.InRange b → b ≠ s → nextCluster m v₁ b = nextCluster m v b := fun b hb hne => by
      rw [nextCluster, hstep.kept b hb.2 (by simpa using hne)]
      rfl
    have hin := hl.node_of_mem
    -- Clusters that were freed before this one stay free.
    have hseen₁ : ∀ b, seen b ∨ b = s → m.InRange b ∧ nextCluster m v₁ b = 0 := by
      rintro b hb
      by_cases hbs : b = s
      · exact hbs ▸ ⟨hr, hclear⟩
      · obtain ⟨hbr, hb0⟩ := hseen b (hb.resolve_right hbs)
        exact ⟨hbr, (hsame b hbr hbs).trans hb0⟩
    have hl₁ : LinkChain.IsChain (nextCluster m v₁) m.InRange
        (fun c => ¬IsCluster c ∨ (seen c ∨ c = s) ∨ c ∈ l) (nextCluster m v s) l := by
      refine (hl.congr fun b hb => hsame b (hin b hb) ?_).mono fun b hb => ?_
      · rintro rfl
        exact hnew hb
      · obtain hb | hb | hb := hb
        · exact .inl hb
        · exact .inr (.inl (.inl hb))
        · exact .inr ((List.mem_cons.1 hb).imp_left .inr)
    obtain ⟨v', hrun, hfreed⟩ := ih hseen₁ hnodup hl₁ (by simp at hn; omega)
    refine ⟨v', ?_, hstep.cons hr hfreed hin⟩
    rw [fatFreeChainLoop, if_pos (g.isCluster hr), run_bind_ok (run_getEntry_disk v s),
      run_bind_ok (run_putEntry_disk v s _), ← hv₁, hrun]

/-- Every cluster has a path, however the links are damaged. -/
theorem exists_fatPath
    (hfat : ∀ c < m.totalClusters + 2,
      nextCluster m v c < m.totalClusters + 2 ∨ fat32Eoc ≤ nextCluster m v c)
    (hs : m.InRange s) : ∃ l, FatPath m v s l := by
  have hnext : ∀ c, m.InRange c → m.InRange (nextCluster m v c) ∨ ¬IsCluster (nextCluster m v c) := by
    intro c hc
    obtain hlt | hge := hfat c hc.2
    · by_cases h2 : 2 ≤ nextCluster m v c
      · exact .inl ⟨h2, hlt⟩
      · exact .inr fun h => h2 h.1
    · exact .inr fun h => Nat.not_lt.2 hge h.2
  have hnodes : ∀ c, m.InRange c → False ∨ c ∈ Finset.Ico 2 (m.totalClusters + 2) :=
    fun c hc => .inr (Finset.mem_Ico.2 hc)
  obtain ⟨l, hnodup, -, hl⟩ := LinkChain.exists_path (nextCluster m v) (¬IsCluster ·) hnext _ hnodes
    (.inl hs)
  refine ⟨l, hnodup, hl.mono fun c hc => ?_⟩
  simpa using hc

theorem FatPath.length_le (h : FatPath m v s l) : l.length ≤ m.totalClusters := by
  have hsub : l.toFinset ⊆ Finset.Ico 2 (m.totalClusters + 2) := fun c hc =>
    Finset.mem_Ico.2 (h.links.node_of_mem c (List.mem_toFinset.1 hc))
  have hcard := Finset.card_le_card hsub
  rwa [List.toFinset_card_of_nodup h.nodup, Nat.card_Ico, Nat.add_sub_cancel] at hcard

/-- `fat_free_chain` returns and clears the entries on the path. -/
theorem run_fatFreeChain_path (g : Geometry m) (h : FatPath m v s l) :
    ∃ v', run diskHandler ((fatFreeChain s).translate (fatPrim m)) v = .ok ((), v') ∧ Freed m v v' l := by
  have hfuel : l.length + 2 ≤ fatFuel := by
    have hle := h.length_le
    have hc := g.clusters
    rw [fat32Eoc] at hc
    rw [fatFuel]
    omega
  rw [run_translate]
  have hnone : ∀ c, False → m.InRange c ∧ nextCluster m v c = 0 := fun c hc => hc.elim
  exact run_fatFreeChainLoop_path g hnone h.nodup (h.links.mono fun c hc => hc.imp_right .inr) hfuel

/-- **Freeing a chain returns and is exact.** Whatever the links of the FAT are, as long as each of them is
the number of an entry or an end-of-chain mark, `fat_free_chain` returns from every cluster. It clears the low
28 bits of the entries on the path from that cluster, up to the first repetition or to a link that is no
cluster, keeps their high four bits, and changes no other entry and no sector of the data area. -/
theorem fat_free_chain_exact (g : Geometry m) {b : Bcache Sector} (hb : b.Represents v)
    (hfat : ∀ c < m.totalClusters + 2,
      nextCluster m v c < m.totalClusters + 2 ∨ fat32Eoc ≤ nextCluster m v c)
    (hs : m.InRange s) :
    ∃ l b' v', FatPath m v s l ∧
      run cacheHandler ((fatFreeChain s).translate (fatPrim m)) b = .ok ((), b') ∧ b'.Represents v' ∧
      Freed m v v' l := by
  obtain ⟨l, hl⟩ := exists_fatPath hfat hs
  obtain ⟨v', hrun, hfreed⟩ := run_fatFreeChain_path g hl
  have hcache := matches_cacheHandler ((fatFreeChain s).translate (fatPrim m)) hb
  rw [hrun] at hcache
  obtain ⟨b', hb', hrep⟩ := hcache
  exact ⟨l, b', v', hl, hb', hrep, hfreed⟩

/-- A volume of four clusters. -/
def smallMount : FatMount where
  fatStartLba := 32
  dataStartLba := 34
  rootCluster := 2
  sectorsPerCluster := 1
  totalClusters := 4
  mounted := true

theorem geometry_smallMount : Geometry smallMount := by
  constructor <;> decide

/-- A disk on which every FAT entry is a link to cluster 2, also that of cluster 2 itself. -/
def cyclicDisk (_ : ℕ) : Sector := Sector.ofBytes (List.replicate 128 [2, 0, 0, 0]).flatten

theorem nextCluster_cyclicDisk : ∀ c < 6, nextCluster smallMount cyclicDisk c = 2 := by
  decide +kernel

/-- The chain from cluster 3 runs into the cycle of cluster 2. -/
theorem fat_free_chain_exact_cyclic :
    ∃ l b' v', FatPath smallMount cyclicDisk 3 l ∧
      run cacheHandler ((fatFreeChain 3).translate (fatPrim smallMount))
        (bcacheInit ⟨cyclicDisk, fun _ => false, 0⟩) = .ok ((), b') ∧
      b'.Represents v' ∧ Freed smallMount cyclicDisk v' l :=
  fat_free_chain_exact geometry_smallMount (Bcache.Represents.init fun _ => rfl)
    (fun c hc => .inl (by rw [nextCluster_cyclicDisk c hc]; decide)) (by decide)

end

/-! ## Reading a directory -/

/-- A disk, with the answers of the next reads, `true` for a read that succeeds, and of the next calls of
`kmalloc`. All reads and calls after these succeed. -/
structure MemDisk where
  sectors : ℕ → Sector
  reads : List Bool
  memory : List Bool

/-- The operations on such a disk. -/
def memHandler : Handler BlockOp BlockOp.Answer FatError MemDisk
  | .read lba, d =>
    .ok (if d.reads.headD true then some (d.sectors lba) else none, { d with reads := d.reads.tail })
  | .write lba s, d => .ok ((0 : ℤ), { d with sectors := Function.update d.sectors lba s })
  | .kmalloc _, d => .ok (d.memory.headD true, { d with memory := d.memory.tail })
  | .stuck, _ => .error .stuck

/-- The meaning of the operations of the FAT code on these. -/
abbrev memPrim (m : FatMount) : Handler FatPrim FatPrim.Answer FatError MemDisk :=
  fun i => run memHandler (fatPrim m i)

/-- `fat_read_dir` returns, and all bytes that it has stored are within the buffer that it has allocated. -/
def ReadDirBounded (m : FatMount) (d : MemDisk) (s : ℕ) : Prop :=
  ∃ r d', run memHandler ((fatReadDir m s).translate (fatPrim m)) d = .ok (r, d') ∧
    ∀ buf, r = some buf → buf.bytes.length ≤ buf.count * 32

/-- The next `n` reads succeed. -/
def MemDisk.ReadsNext (d : MemDisk) (n : ℕ) : Prop := ∀ i < n, d.reads.getD i true = true

/-- The clusters that a loop with the bound `n` visits if no read of the FAT fails. -/
def visited (m : FatMount) (v : ℕ → Sector) (n s : ℕ) : List ℕ :=
  LinkChain.walk (nextCluster m v) (fun c => decide (IsCluster c)) n s

section

variable (v : ℕ → Sector)

theorem visited_cluster (n : ℕ) {s : ℕ} (hs : IsCluster s) :
    visited m v (n + 1) s = s :: visited m v n (nextCluster m v s) := if_pos (decide_eq_true hs)

theorem visited_stop (n : ℕ) {s : ℕ} (hs : ¬IsCluster s) : visited m v (n + 1) s = [] :=
  if_neg (by simpa using hs)

/-- The first `k` clusters of the chain. -/
theorem le_length_visited {n k s : ℕ} (hk : k ≤ n) :
    k ≤ (visited m v n s).length ↔ ∀ j < k, IsCluster ((nextCluster m v)^[j] s) := by
  rw [visited, LinkChain.le_length_walk hk]
  simp only [decide_eq_true_eq]

/-- The two loops visit the same clusters if the chain ends within the bound of the first one. -/
theorem length_visited_le_iff {s : ℕ} :
    (visited m v fatFuel s).length ≤ (visited m v 10001 s).length ↔
      ∃ k ≤ 10001, ¬IsCluster ((nextCluster m v)^[k] s) := by
  have hbig : 10002 ≤ fatFuel := by decide
  have hcount : (visited m v 10001 s).length ≤ 10001 := LinkChain.length_walk_le _ _ _ _
  have hlong := le_length_visited (m := m) v (s := s) hbig
  have hshort : (visited m v fatFuel s).length ≤ 10001 →
      (visited m v fatFuel s).length ≤ (visited m v 10001 s).length := fun h =>
    (le_length_visited v h).2 ((le_length_visited v (h.trans (by omega))).1 le_rfl)
  constructor
  · intro h
    by_contra hnone
    push Not at hnone
    have hmany := hlong.2 fun j hj => hnone j (Nat.le_of_lt_succ hj)
    omega
  · rintro ⟨k, hk, hstop⟩
    refine hshort (Nat.le_of_not_lt fun hlt => ?_)
    exact hstop (hlong.1 hlt k (Nat.lt_succ_of_le hk))

end

section

variable {d : MemDisk}

/-- The state after a read. -/
def MemDisk.read (d : MemDisk) : MemDisk := { d with reads := d.reads.tail }

/-- No read fails. -/
def MemDisk.ReadsAll (d : MemDisk) : Prop := ∀ b ∈ d.reads, b = true

theorem MemDisk.ReadsAll.read (h : d.ReadsAll) : d.read.ReadsAll := fun b hb => h b (List.mem_of_mem_tail hb)

/-- If no read fails, the next ones succeed. -/
theorem MemDisk.ReadsAll.readsNext (h : d.ReadsAll) (n : ℕ) : d.ReadsNext n := by
  intro i _
  by_cases hi : i < d.reads.length
  · rw [List.getD_eq_getElem _ _ hi]
    exact h _ (List.getElem_mem hi)
  · exact List.getD_eq_default _ _ (Nat.le_of_not_lt hi)

theorem MemDisk.ReadsNext.succ {n : ℕ} (h : d.ReadsNext (n + 1)) :
    d.reads.headD true = true ∧ d.read.ReadsNext n := by
  have hhead := h 0 (Nat.succ_pos n)
  have htail := fun i hi => h (i + 1) (Nat.succ_lt_succ hi)
  rw [MemDisk.read, MemDisk.ReadsNext]
  cases hr : d.reads with
  | nil => exact ⟨rfl, fun _ _ => rfl⟩
  | cons b l =>
    rw [hr] at hhead htail
    exact ⟨hhead, htail⟩

theorem MemDisk.ReadsAll.head (h : d.ReadsAll) : d.reads.headD true = true := ((h.readsNext 1).succ).1

/-- A FAT entry that cannot be read is taken for the end of the chain. -/
theorem run_getEntry_mem (d : MemDisk) (c : ℕ) :
    run (memPrim m) (getEntry c) d =
      .ok (if d.reads.headD true then nextCluster m d.sectors c else fat32Eoc, d.read) := by
  have hread : run memHandler (readSector (fatSector m c)) d =
      .ok (if d.reads.headD true then some (d.sectors (fatSector m c)) else none, d.read) := rfl
  refine (run_call (memPrim m) (FatPrim.readEntry c) d).trans ?_
  show run memHandler (fatReadEntry m c) d = _
  rw [fatReadEntry, run_bind_ok hread]
  by_cases hhead : d.reads.headD true = true
  · rw [if_pos hhead, if_pos hhead]
    rfl
  · rw [if_neg hhead, if_neg hhead]
    rfl

theorem run_malloc_mem (d : MemDisk) (n : ℕ) :
    run (memPrim m) (malloc n) d = .ok (d.memory.headD true, { d with memory := d.memory.tail }) := rfl

/-- A result for which at most `n` bytes have been stored behind `buf`, and all of them if no read fails. -/
def Stores (d : MemDisk) (buf : List UInt8) (n : ℕ) (r : Except FatError ((Bool × List UInt8) × MemDisk)) :
    Prop :=
  ∃ ok b reads, r = .ok ((ok, buf ++ b), { d with reads := reads }) ∧ b.length ≤ n ∧
    (d.ReadsAll → ok = true ∧ b.length = n ∧ { d with reads := reads }.ReadsAll)

theorem stores_readClusterLoop (lba n i : ℕ) (buf : List UInt8) :
    Stores d buf (n * 512) (run memHandler (readClusterLoop lba n i buf) d) := by
  induction n generalizing i buf d with
  | zero =>
    exact ⟨true, [], d.reads, by rw [readClusterLoop, run_pure, List.append_nil], Nat.zero_le _,
      fun hall => ⟨rfl, by simp, hall⟩⟩
  | succ n ih =>
    have hread : run memHandler (readSector (Word.wrap 32 (lba + i))) d =
        .ok (if d.reads.headD true then some (d.sectors (Word.wrap 32 (lba + i))) else none, d.read) := rfl
    rw [readClusterLoop, run_bind_ok hread]
    by_cases hhead : d.reads.headD true = true
    · obtain ⟨ok, b, reads, hrun, hlen, hall⟩ :=
        ih (d := d.read) (i + 1) (buf ++ (d.sectors (Word.wrap 32 (lba + i))).bytes)
      refine ⟨ok, (d.sectors (Word.wrap 32 (lba + i))).bytes ++ b, reads, ?_, ?_, fun h => ?_⟩
      · rw [if_pos hhead, ← List.append_assoc]
        exact hrun
      · rw [List.length_append, Sector.length_bytes]
        omega
      · obtain ⟨hok, hlen, hreads⟩ := hall h.read
        refine ⟨hok, ?_, hreads⟩
        rw [List.length_append, Sector.length_bytes]
        omega
    · rw [if_neg hhead]
      exact ⟨false, [], d.reads.tail, by rw [List.append_nil]; rfl, Nat.zero_le _, fun h => absurd h.head hhead⟩

theorem stores_getCluster (c : ℕ) :
    Stores d [] (m.sectorsPerCluster * 512) (run (memPrim m) (getCluster c) d) := by
  have hrun : run (memPrim m) (getCluster c) d = run memHandler (readCluster m c) d :=
    run_call (memPrim m) (FatPrim.readCluster c) d
  rw [hrun]
  exact stores_readClusterLoop (clusterToLba m c) m.sectorsPerCluster 0 []

/-- The first loop returns in any case. It counts the clusters of the chain if its reads succeed. -/
theorem run_countClusters_mem (n k s : ℕ) :
    ∃ count reads, run (memPrim m) (countClusters n k s) d = .ok (count, { d with reads := reads }) ∧
      (d.ReadsNext n → count = k + (visited m d.sectors n s).length) ∧
      (d.ReadsAll → { d with reads := reads }.ReadsAll) := by
  induction n generalizing k s d with
  | zero => exact ⟨k, d.reads, rfl, fun _ => rfl, id⟩
  | succ n ih =>
    rw [countClusters]
    by_cases hs : IsCluster s
    · obtain ⟨count, reads, hrun, hcount, hall⟩ := ih (d := d.read) (k + 1)
        (if d.reads.headD true then nextCluster m d.sectors s else fat32Eoc)
      refine ⟨count, reads, ?_, fun h => ?_, fun h => hall h.read⟩
      · rw [if_pos hs, run_bind_ok (run_getEntry_mem d s)]
        exact hrun
      · rw [hcount h.succ.2, if_pos h.succ.1, visited_cluster _ n hs, List.length_cons]
        show k + 1 + (visited m d.sectors n (nextCluster m d.sectors s)).length = _
        omega
    · rw [if_neg hs, visited_stop _ n hs]
      exact ⟨k, d.reads, rfl, fun _ => rfl, id⟩

/-- The loop that reads the directory stores a cluster for each cluster of the chain, or less if a read
fails. -/
theorem stores_readDirLoop (n s : ℕ) (buf : List UInt8) (h : (visited m d.sectors n s).length < n) :
    Stores d buf ((visited m d.sectors n s).length * (m.sectorsPerCluster * 512))
      (run (memPrim m) (readDirLoop n s buf) d) := by
  induction n generalizing s buf d with
  | zero => exact absurd h (Nat.not_lt_zero _)
  | succ n ih =>
    rw [readDirLoop]
    by_cases hs : IsCluster s
    swap
    · rw [if_neg hs, visited_stop _ n hs, run_pure]
      exact ⟨true, [], d.reads, by rw [List.append_nil], Nat.zero_le _, fun hall => ⟨rfl, by simp, hall⟩⟩
    rw [visited_cluster _ n hs, List.length_cons] at h ⊢
    rw [if_pos hs]
    obtain ⟨ok, b, reads, hrun, hlen, hall⟩ := stores_getCluster (m := m) (d := d) s
    rw [run_bind_ok hrun, List.nil_append]
    have hmul : ((visited m d.sectors n (nextCluster m d.sectors s)).length + 1) *
        (m.sectorsPerCluster * 512) = m.sectorsPerCluster * 512 +
          (visited m d.sectors n (nextCluster m d.sectors s)).length * (m.sectorsPerCluster * 512) := by ring
    rw [hmul]
    -- A cluster that cannot be read ends the call.
    cases ok with
    | false =>
      refine ⟨false, b, reads, rfl, hlen.trans (Nat.le_add_right _ _), fun h => ?_⟩
      cases (hall h).1
    | true =>
      dsimp only
      rw [if_pos rfl, run_bind_ok (run_getEntry_mem _ s)]
      by_cases hhead : reads.headD true = true
      · obtain ⟨ok', b', reads', hrun', hlen', hall'⟩ :=
          ih (d := { d with reads := reads.tail }) (nextCluster m d.sectors s) (buf ++ b)
            (Nat.lt_of_succ_lt_succ h)
        refine ⟨ok', b ++ b', reads', ?_, ?_, fun h => ?_⟩
        · rw [if_pos hhead, ← List.append_assoc]
          exact hrun'
        · rw [List.length_append]
          exact Nat.add_le_add hlen hlen'
        · obtain ⟨-, hb, hreads⟩ := hall h
          obtain ⟨hok', hb', hreads'⟩ := hall' hreads.read
          exact ⟨hok', by rw [List.length_append, hb, hb'], hreads'⟩
      · -- the link cannot be read, and the loop ends
        have hstop : ¬IsCluster fat32Eoc := by decide
        obtain ⟨n, rfl⟩ := Nat.exists_eq_succ_of_ne_zero (by omega : n ≠ 0)
        rw [if_neg hhead, readDirLoop, if_neg hstop]
        exact ⟨true, b, reads.tail, rfl, hlen.trans (Nat.le_add_right _ _),
          fun h => absurd (hall h).2.2.head hhead⟩

/-- Without failing reads, the loop does not end if it visits as many clusters as it has fuel for. -/
theorem run_readDirLoop_mem_stuck (n s : ℕ) (buf : List UInt8) (hall : d.ReadsAll)
    (h : n ≤ (visited m d.sectors n s).length) : run (memPrim m) (readDirLoop n s buf) d = .error .stuck := by
  induction n generalizing s buf d with
  | zero => rfl
  | succ n ih =>
    rw [readDirLoop]
    by_cases hs : IsCluster s
    · obtain ⟨ok, b, reads, hrun, -, hreads⟩ := stores_getCluster (m := m) (d := d) s
      obtain ⟨rfl, -, hreads⟩ := hreads hall
      rw [visited_cluster _ n hs, List.length_cons] at h
      rw [if_pos hs, run_bind_ok hrun]
      dsimp only
      rw [if_pos rfl, run_bind_ok (run_getEntry_mem _ s), if_pos hreads.head]
      exact ih _ _ hreads.read (Nat.le_of_succ_le_succ h)
    · rw [visited_stop _ n hs] at h
      exact absurd h (Nat.not_succ_le_zero n)

/-- The number of entries that fit in the clusters that have been counted. -/
theorem wrap_totalEntries (hle : m.sectorsPerCluster ≤ 255) {count : ℕ} (hcount : count ≤ 10001) :
    Word.wrap 32 (count * m.entriesPerCluster : ℤ) * 32 = count * (m.sectorsPerCluster * 512) := by
  have hbytes : m.clusterBytes = m.sectorsPerCluster * 512 :=
    Word.wrap_of_lt (by push_cast; rfl) (by omega)
  have hentries : m.entriesPerCluster = m.sectorsPerCluster * 16 := by
    rw [FatMount.entriesPerCluster, hbytes]
    omega
  have hmul : count * m.entriesPerCluster ≤ 10001 * (255 * 16) := by
    rw [hentries]
    gcongr
  rw [Word.wrap_of_lt (n := count * m.entriesPerCluster) (by push_cast; rfl) (by omega), hentries]
  ring

variable {s : ℕ}

/-- Without memory nothing is stored. -/
theorem readDirBounded_null (h : d.memory.head? = some false) : ReadDirBounded m d s := by
  obtain ⟨count, reads, hrun, -⟩ := run_countClusters_mem (m := m) (d := d) 10001 0 s
  have hmem : d.memory.headD true = false := by
    rw [List.headD_eq_head?_getD, h]
    rfl
  refine ⟨none, { d with reads := reads, memory := d.memory.tail }, ?_, fun buf hbuf => by cases hbuf⟩
  rw [run_translate, fatReadDir, run_bind_ok hrun, run_bind_ok (run_malloc_mem _ _), hmem]
  rfl

/-- What `fat_read_dir` does with memory, up to the second loop. -/
theorem run_fatReadDir_mem (hmem : d.memory.head? ≠ some false) {count : ℕ} {reads : List Bool}
    (hrun : run (memPrim m) (countClusters 10001 0 s) d = .ok (count, { d with reads := reads })) :
    run memHandler ((fatReadDir m s).translate (fatPrim m)) d =
      run (memPrim m) (do
        let r ← readDirLoop fatFuel s []
        Pure.pure (some (DirBuf.mk (Word.wrap 32 (count * m.entriesPerCluster)) r.2 r.1)))
        ⟨d.sectors, reads, d.memory.tail⟩ := by
  have hmem' : d.memory.headD true = true := by
    rw [List.headD_eq_head?_getD]
    cases hh : d.memory.head? with
    | none => rfl
    | some b =>
      rw [hh] at hmem
      cases b with
      | false => exact absurd rfl hmem
      | true => rfl
  rw [run_translate, fatReadDir, run_bind_ok hrun, run_bind_ok (run_malloc_mem _ _), hmem']
  rfl

/-- With memory, the second loop is within the buffer if the reads of the first one succeed and the chain ends
within its bound, whatever reads fail later on. -/
theorem readDirBounded_of_visited (hle : m.sectorsPerCluster ≤ 255) (hmem : d.memory.head? ≠ some false)
    (hreads : d.ReadsNext 10001)
    (hshort : (visited m d.sectors fatFuel s).length ≤ (visited m d.sectors 10001 s).length) :
    ReadDirBounded m d s := by
  have hbound : (visited m d.sectors 10001 s).length ≤ 10001 := LinkChain.length_walk_le _ _ _ _
  have hbig : 10001 < fatFuel := by decide
  obtain ⟨count, reads, hrun, hcount, -⟩ := run_countClusters_mem (m := m) (d := d) 10001 0 s
  obtain ⟨ok, b, reads', hloop, hlen, -⟩ := stores_readDirLoop (m := m)
    (d := ⟨d.sectors, reads, d.memory.tail⟩) fatFuel s [] (hshort.trans_lt (hbound.trans_lt hbig))
  refine ⟨_, _, (run_fatReadDir_mem hmem hrun).trans (run_bind_ok hloop _), ?_⟩
  rintro buf ⟨⟩
  rw [hcount hreads, Nat.zero_add, wrap_totalEntries hle hbound]
  exact hlen.trans (Nat.mul_le_mul_right _ hshort)

/-- With memory and without failing reads, all the clusters of the chain are stored. -/
theorem ReadDirBounded.visited_le (hle : m.sectorsPerCluster ≤ 255) (hpos : 1 ≤ m.sectorsPerCluster)
    (hmem : d.memory.head? ≠ some false) (hall : d.ReadsAll) (h : ReadDirBounded m d s) :
    (visited m d.sectors fatFuel s).length ≤ (visited m d.sectors 10001 s).length := by
  have hbound : (visited m d.sectors 10001 s).length ≤ 10001 := LinkChain.length_walk_le _ _ _ _
  obtain ⟨count, reads, hrun, hcount, hreads⟩ := run_countClusters_mem (m := m) (d := d) 10001 0 s
  have hall' : MemDisk.ReadsAll ⟨d.sectors, reads, d.memory.tail⟩ := hreads hall
  obtain ⟨r, d', hr, hbuf⟩ := h
  rw [run_fatReadDir_mem hmem hrun] at hr
  by_cases hfuel : (visited m d.sectors fatFuel s).length < fatFuel
  · obtain ⟨ok, b, reads', hloop, -, hlen⟩ := stores_readDirLoop (m := m)
      (d := ⟨d.sectors, reads, d.memory.tail⟩) fatFuel s [] hfuel
    rw [run_bind_ok hloop] at hr
    cases hr
    have hfits := hbuf _ rfl
    dsimp only at hfits
    rw [hcount (hall.readsNext _), Nat.zero_add, wrap_totalEntries hle hbound, List.nil_append,
      (hlen hall').2.1] at hfits
    exact Nat.le_of_mul_le_mul_right hfits (by omega)
  · have hstuck := run_readDirLoop_mem_stuck (m := m) fatFuel s [] hall' (Nat.not_lt.1 hfuel)
    rw [run_bind, hstuck] at hr
    cases hr

/-- The entry of cluster 2 is a link to cluster 3, at which the chain ends. -/
def linkedDisk (_ : ℕ) : Sector := Sector.ofBytes (List.replicate 8 0 ++ [3, 0, 0, 0])

/-- If the first read of the FAT fails, one cluster is counted and two are stored. -/
example : ((run memHandler ((fatReadDir smallMount 2).translate (fatPrim smallMount))
    ⟨linkedDisk, [false], []⟩).toOption.map fun r => r.1.map fun buf => (buf.count * 32, buf.bytes.length)) =
      some (some (512, 1024)) := by
  decide +kernel

end

end PlantOS.Fs
