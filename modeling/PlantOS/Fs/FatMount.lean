import PlantOS.Fs.FatVolume

/-!
# FAT32: mounting a volume

`fat_mount` takes the geometry of a volume from its boot sector. It checks the sector size and that three
fields are not 0, and computes the rest with 32-bit words. `Bpb.Consistent` says which boot sectors describe
a volume: for these, and for no others, the mounted volume has the FAT and the data area that it says it has.

Reference: `fs/fat.c`, `fat_mount`; `fs/fat.h`, `struct fat32_bpb`.
-/

namespace PlantOS.Fs

open Bytes Word

/-! ## The boot sector -/

/-- The bytes of `struct fat32_bpb`. -/
abbrev Bpb := List UInt8

namespace Bpb

variable (b : Bpb)

/-- `bytes_per_sector`. -/
def bytesPerSector : ℕ := leNat (slice b 11 2)

/-- `sectors_per_cluster`. -/
def sectorsPerCluster : ℕ := leNat (slice b 13 1)

/-- `reserved_sectors`. -/
def reservedSectors : ℕ := leNat (slice b 14 2)

/-- `num_fats`. -/
def numFats : ℕ := leNat (slice b 16 1)

/-- `total_sectors_16`. -/
def totalSectors16 : ℕ := leNat (slice b 19 2)

/-- `fat_size_16`. -/
def fatSize16 : ℕ := leNat (slice b 22 2)

/-- `total_sectors_32`. -/
def totalSectors32 : ℕ := leNat (slice b 32 4)

/-- `fat_size_32`. -/
def fatSize32 : ℕ := leNat (slice b 36 4)

/-- `root_cluster`. -/
def rootCluster : ℕ := leNat (slice b 44 4)

/-- `fat_size`. -/
def fatSize : ℕ := if b.fatSize16 ≠ 0 then b.fatSize16 else b.fatSize32

/-- `total_sectors`. -/
def totalSectors : ℕ := if b.totalSectors32 ≠ 0 then b.totalSectors32 else b.totalSectors16

/-- `mount` after `fat_mount` has accepted the boot sector. -/
def mount (partitionLba : ℕ) : FatMount :=
  let fatSectors := wrap 32 (b.numFats * b.fatSize)
  let fatStartLba := wrap 32 (partitionLba + b.reservedSectors)
  let dataSectors := wrap 32 (b.totalSectors - wrap 32 (b.reservedSectors + fatSectors))
  { fatStartLba
    dataStartLba := wrap 32 (fatStartLba + fatSectors)
    rootCluster := b.rootCluster
    sectorsPerCluster := b.sectorsPerCluster
    totalClusters := dataSectors / b.sectorsPerCluster
    mounted := true }

end Bpb

/-- `fat_mount`. -/
def fatMount (m : FatMount) (partitionLba : ℕ) : BlockProg (ℤ × FatMount) :=
  if m.mounted then pure (-1, m)
  else do
    match ← readSector partitionLba with
    | none => pure (-1, m)
    | some s =>
      let bpb : Bpb := s.bytes
      if bpb.bytesPerSector ≠ 512 then pure (-1, m)
      else if bpb.numFats = 0 ∨ bpb.sectorsPerCluster = 0 then pure (-1, m)
      else if bpb.fatSize = 0 then pure (-1, m)
      else pure (0, bpb.mount partitionLba)

/-! ## Consistent boot sectors -/

namespace Bpb

variable (b : Bpb)

/-- The sectors before the data area. -/
def overhead : ℕ := b.reservedSectors + b.numFats * b.fatSize

/-- The number of clusters that fit in the data area. -/
def clusters : ℕ := (b.totalSectors - b.overhead) / b.sectorsPerCluster

/-- The FATs fit in the volume, the first of them has an entry for each cluster, the offset of this entry and
the number of each data sector have 32 bits, and the root directory is in the data area. -/
structure Consistent (partitionLba : ℕ) : Prop where
  room : b.overhead ≤ b.totalSectors
  fat : b.clusters + 2 ≤ b.fatSize * 128
  offset : (b.clusters + 2) * 4 ≤ 2 ^ 32
  lba : partitionLba + b.overhead + b.clusters * b.sectorsPerCluster ≤ 2 ^ 32
  root : 2 ≤ b.rootCluster ∧ b.rootCluster < b.clusters + 2

end Bpb

/-- The mounted volume is the one that the boot sector describes: the FATs fit in it, it has the right number
of clusters, the entry of each cluster is in the first FAT and its sectors are in the volume, and there is a
root directory. -/
structure MountedVolume (b : Bpb) (partitionLba : ℕ) (m : FatMount) : Prop where
  room : b.reservedSectors + b.numFats * b.fatSize ≤ b.totalSectors
  clusters : m.totalClusters =
    (b.totalSectors - (b.reservedSectors + b.numFats * b.fatSize)) / b.sectorsPerCluster
  entry : ∀ c, m.InRange c →
    fatSector m c = partitionLba + b.reservedSectors + c * 4 / 512 ∧ c * 4 / 512 < b.fatSize
  sector : ∀ c, m.InRange c → ∀ j < m.sectorsPerCluster,
    partitionLba ≤ wrap 32 (clusterToLba m c + j) ∧
      wrap 32 (clusterToLba m c + j) < partitionLba + b.totalSectors
  root : m.InRange m.rootCluster

section

variable {b : Bpb} {partitionLba : ℕ}

theorem Bpb.totalSectors_lt (b : Bpb) : b.totalSectors < 2 ^ 32 := by
  have h32 : b.totalSectors32 < 256 ^ 4 := leNat_slice_lt b 32 4
  have h16 : b.totalSectors16 < 256 ^ 2 := leNat_slice_lt b 19 2
  rw [totalSectors]
  split <;> omega

/-- The FATs have no more sectors than the volume, so that nothing wraps. -/
theorem Bpb.wrap_fatSectors (h : b.overhead ≤ b.totalSectors) :
    wrap 32 (b.numFats * b.fatSize) = b.numFats * b.fatSize := by
  have hlt := b.totalSectors_lt
  rw [overhead] at h
  exact wrap_of_lt (by push_cast; rfl) (by omega)

theorem Bpb.totalClusters_mount (h : b.overhead ≤ b.totalSectors) :
    (b.mount partitionLba).totalClusters = b.clusters := by
  have hlt := b.totalSectors_lt
  have hover : wrap 32 (b.reservedSectors + (b.numFats * b.fatSize : ℕ)) = b.overhead :=
    wrap_of_lt (by rw [overhead]; push_cast; rfl) (by omega)
  have hdata : wrap 32 (b.totalSectors - b.overhead) = b.totalSectors - b.overhead :=
    wrap_of_lt (by omega) (by omega)
  simp only [mount, wrap_fatSectors h, hover, hdata, clusters]

theorem Bpb.fatStartLba_mount :
    (b.mount partitionLba).fatStartLba = (partitionLba + b.reservedSectors) % 2 ^ 32 := by
  simp only [mount, wrap]
  omega

theorem Bpb.dataStartLba_mount :
    (b.mount partitionLba).dataStartLba = (partitionLba + b.overhead) % 2 ^ 32 := by
  simp only [mount, overhead, wrap]
  omega

/-- The number of a sector of a cluster, up to a wrap-around. -/
theorem Bpb.sector_mount {c : ℕ} (hc : 2 ≤ c) (j : ℕ) :
    wrap 32 (clusterToLba (b.mount partitionLba) c + j) =
      (partitionLba + b.overhead + (c - 2) * b.sectorsPerCluster + j) % 2 ^ 32 := by
  have hspc : (b.mount partitionLba).sectorsPerCluster = b.sectorsPerCluster := rfl
  have hcast : ((c : ℤ) - 2) * b.sectorsPerCluster = ((c - 2) * b.sectorsPerCluster : ℕ) := by
    push_cast [hc]
    rfl
  rw [clusterToLba, dataStartLba_mount, hspc, hcast]
  generalize (c - 2) * b.sectorsPerCluster = k
  simp only [wrap]
  omega

/-- A consistent boot sector gives the volume that it describes. -/
theorem Bpb.Consistent.mountedVolume (h : b.Consistent partitionLba) (hfats : b.numFats ≠ 0)
    (hspc : b.sectorsPerCluster ≠ 0) : MountedVolume b partitionLba (b.mount partitionLba) := by
  obtain ⟨hroom, hfat, hoffset, hlba, hroot⟩ := h
  have hclusters := @totalClusters_mount b partitionLba hroom
  have hsize : b.fatSize ≤ b.numFats * b.fatSize := Nat.le_mul_of_pos_left _ (by omega)
  have hdata : b.clusters * b.sectorsPerCluster ≤ b.totalSectors - b.overhead := Nat.div_mul_le_self _ _
  refine ⟨hroom, hclusters, fun c hc => ?_, fun c hc j hj => ?_, ?_⟩
  · rw [FatMount.InRange, hclusters] at hc
    have hentry : fatOffset c = c * 4 := wrap_of_lt (by push_cast; rfl) (by omega)
    have hover : b.overhead = b.reservedSectors + b.numFats * b.fatSize := rfl
    refine ⟨?_, by omega⟩
    rw [fatSector, hentry, fatStartLba_mount, Nat.mod_eq_of_lt (by omega)]
    exact wrap_of_lt (by push_cast; rfl) (by omega)
  · have hlt := hc.sector_lt hj
    have hc2 := hc.1
    rw [hclusters, show (b.mount partitionLba).sectorsPerCluster = b.sectorsPerCluster from rfl] at hlt
    rw [sector_mount hc2, Nat.mod_eq_of_lt (by omega)]
    omega
  · rw [FatMount.InRange, hclusters]
    exact hroot

/-- The volume is described by a consistent boot sector. -/
theorem MountedVolume.consistent (hP : partitionLba < 2 ^ 32) (hspc : b.sectorsPerCluster ≠ 0)
    (h : MountedVolume b partitionLba (b.mount partitionLba)) : b.Consistent partitionLba := by
  have hroom : b.overhead ≤ b.totalSectors := h.room
  have hclusters := @Bpb.totalClusters_mount b partitionLba hroom
  have hroot := h.root
  rw [FatMount.InRange, hclusters] at hroot
  change 2 ≤ b.rootCluster ∧ b.rootCluster < b.clusters + 2 at hroot
  have hrange : ∀ c, 2 ≤ c → c < b.clusters + 2 → (b.mount partitionLba).InRange c := by
    intro c hc hc'
    rw [FatMount.InRange, hclusters]
    exact ⟨hc, hc'⟩
  refine ⟨hroom, ?_, ?_, ?_, hroot⟩
  · have := (h.entry (b.clusters + 1) (hrange _ (by omega) (by omega))).2
    omega
  · -- the entry of cluster 2^30 would be read at the start of the FAT
    by_contra hwrap
    obtain ⟨hentry, -⟩ := h.entry (2 ^ 30) (hrange _ (by decide) (by omega))
    have hzero : fatOffset (2 ^ 30) = 0 := by decide
    rw [fatSector, hzero, Bpb.fatStartLba_mount] at hentry
    simp only [wrap] at hentry
    omega
  · -- the last sector would be counted from 0 again, which is before the volume
    by_contra hwrap
    have hlt := b.totalSectors_lt
    have hdata : b.clusters * b.sectorsPerCluster ≤ b.totalSectors - b.overhead := Nat.div_mul_le_self _ _
    have hlast : (b.clusters + 1 - 2) * b.sectorsPerCluster + (b.sectorsPerCluster - 1) =
        b.clusters * b.sectorsPerCluster - 1 := by
      have hmul : (b.clusters - 1) * b.sectorsPerCluster = b.clusters * b.sectorsPerCluster -
          b.sectorsPerCluster := by rw [Nat.sub_mul, Nat.one_mul]
      have hle : b.sectorsPerCluster ≤ b.clusters * b.sectorsPerCluster :=
        Nat.le_mul_of_pos_left _ (by omega)
      rw [show b.clusters + 1 - 2 = b.clusters - 1 by omega, hmul]
      omega
    have hsector := (h.sector (b.clusters + 1) (hrange _ (by omega) (by omega)) (b.sectorsPerCluster - 1)
      (Nat.sub_lt (Nat.pos_of_ne_zero hspc) Nat.one_pos)).1
    rw [Bpb.sector_mount (by omega), Nat.add_assoc, hlast] at hsector
    omega

end

theorem run_readSector (v : ℕ → Sector) (lba : ℕ) :
    Prog.run diskHandler (readSector lba) v = .ok (some (v lba), v) := rfl

/-- What `fat_mount` has checked when it succeeds. -/
theorem fatMount_accepts {m m' : FatMount} {v v' : ℕ → Sector} {partitionLba : ℕ}
    (h : Prog.run diskHandler (fatMount m partitionLba) v = .ok ((0, m'), v')) :
    Bpb.numFats (v partitionLba).bytes ≠ 0 ∧ Bpb.sectorsPerCluster (v partitionLba).bytes ≠ 0 ∧
      m' = Bpb.mount (v partitionLba).bytes partitionLba := by
  have hfail : ∀ r : FatMount, Prog.run diskHandler (pure (-1, r) : BlockProg (ℤ × FatMount)) v =
      .ok ((0, m'), v') → False := by
    intro r hr
    rw [Prog.run_pure] at hr
    simp at hr
  rw [fatMount] at h
  split at h
  · exact (hfail _ h).elim
  rw [Prog.run_bind_ok (run_readSector v partitionLba)] at h
  dsimp only at h
  split at h
  · exact (hfail _ h).elim
  split at h
  · exact (hfail _ h).elim
  rename_i hfields
  split at h
  · exact (hfail _ h).elim
  rw [Prog.run_pure] at h
  simp only [Except.ok.injEq, Prod.mk.injEq, true_and] at h
  exact ⟨fun hz => hfields (.inl hz), fun hz => hfields (.inr hz), h.1.symm⟩

/-- Exactly the consistent boot sectors give a consistent volume. For every boot sector that `fat_mount`
accepts, the FATs fit in the volume, the number of clusters is the one that fits behind them, every cluster
has its entry in the first FAT and its sectors in the volume, and the root directory is a cluster, if and only
if `Bpb.Consistent` holds. -/
theorem mounted_consistent_iff {m m' : FatMount} {v v' : ℕ → Sector} {partitionLba : ℕ}
    (hP : partitionLba < 2 ^ 32) (h : Prog.run diskHandler (fatMount m partitionLba) v = .ok ((0, m'), v')) :
    MountedVolume (v partitionLba).bytes partitionLba m' ↔
      Bpb.Consistent (v partitionLba).bytes partitionLba := by
  obtain ⟨hfats, hspc, rfl⟩ := fatMount_accepts h
  exact ⟨fun hm => hm.consistent hP hspc, fun hc => hc.mountedVolume hfats hspc⟩

/-! ## Two boot sectors -/

/-- A boot sector for `totalSectors` sectors with 8 sectors per cluster, 32 reserved sectors, two FATs of one
sector and the root directory in cluster 2. -/
def bootSector (totalSectors : ℕ) : Sector :=
  Sector.ofBytes (splice (splice (splice (splice (splice (List.replicate 512 0) 11 (toLe 2 512))
    13 [8, 32, 0, 2]) 32 (toLe 4 totalSectors)) 36 (toLe 4 1)) 44 (toLe 4 2))

/-- A volume that is not mounted. -/
def unmounted : FatMount := ⟨0, 0, 0, 0, 0, false⟩

theorem run_fatMount_bootSector (totalSectors : ℕ)
    (h512 : Bpb.bytesPerSector (bootSector totalSectors).bytes = 512)
    (hfats : Bpb.numFats (bootSector totalSectors).bytes = 2)
    (hspc : Bpb.sectorsPerCluster (bootSector totalSectors).bytes = 8)
    (hsize : Bpb.fatSize (bootSector totalSectors).bytes = 1) :
    Prog.run diskHandler (fatMount unmounted 2048) (fun _ => bootSector totalSectors) =
      .ok ((0, Bpb.mount (bootSector totalSectors).bytes 2048), fun _ => bootSector totalSectors) := by
  rw [fatMount, if_neg (by decide), Prog.run_bind_ok (run_readSector _ 2048)]
  dsimp only
  rw [h512, hfats, hspc, hsize, if_neg (by decide), if_neg (by decide), if_neg (by decide), Prog.run_pure]

/-- The volume of 1000 sectors has 120 clusters. -/
theorem mounted_consistent_iff_boot :
    MountedVolume (bootSector 1000).bytes 2048 (Bpb.mount (bootSector 1000).bytes 2048) ∧
      (Bpb.mount (bootSector 1000).bytes 2048).totalClusters = 120 := by
  have hrun := run_fatMount_bootSector 1000 (by decide +kernel) (by decide +kernel) (by decide +kernel)
    (by decide +kernel)
  refine ⟨(mounted_consistent_iff (by decide) hrun).2 ⟨?_, ?_, ?_, ?_, ?_⟩, ?_⟩
  all_goals decide +kernel

/-- A volume of 10 sectors, fewer than there are before the data area, is mounted with 2^29 - 3 clusters. -/
theorem fat_mount_too_small :
    Prog.run diskHandler (fatMount unmounted 2048) (fun _ => bootSector 10) =
        .ok ((0, Bpb.mount (bootSector 10).bytes 2048), fun _ => bootSector 10) ∧
      (Bpb.mount (bootSector 10).bytes 2048).totalClusters = 536870909 ∧
      Bpb.totalSectors (bootSector 10).bytes = 10 ∧
      ¬MountedVolume (bootSector 10).bytes 2048 (Bpb.mount (bootSector 10).bytes 2048) := by
  refine ⟨run_fatMount_bootSector 10 (by decide +kernel) (by decide +kernel) (by decide +kernel)
    (by decide +kernel), by decide +kernel, by decide +kernel, fun h => ?_⟩
  exact absurd h.room (by decide +kernel)

end PlantOS.Fs
