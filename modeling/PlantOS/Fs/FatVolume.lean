import PlantOS.Fs.Bcache
import PlantOS.Fs.Fat

/-!
# FAT32: a volume as FAT entries and clusters

Above `FatPrim` the FAT code sees a volume: a FAT entry for each cluster, and the bytes of each cluster. Both
are read through the buffer cache in front of the disk.
-/

namespace PlantOS.Fs

open Bytes Prog

/-- How a program can fail: it does not return, or it leaves the volume. -/
inductive FatError where
  | stuck
  | fault
deriving DecidableEq

/-! ## Handlers of sectors -/

/-- The operations on the sectors of a disk, without failures and with enough memory. -/
def diskHandler : Handler BlockOp BlockOp.Answer FatError (ℕ → Sector)
  | .read lba, v => .ok (some (v lba), v)
  | .write lba s, v => .ok ((0 : ℤ), Function.update v lba s)
  | .kmalloc _, v => .ok (true, v)
  | .stuck, _ => .error .stuck

/-- The operations on the buffer cache, with enough memory. -/
def cacheHandler : Handler BlockOp BlockOp.Answer FatError (Bcache Sector)
  | .read lba, b => .ok (bcacheRead b lba)
  | .write lba s, b => .ok (bcacheWrite b lba s)
  | .kmalloc _, b => .ok (true, b)
  | .stuck, _ => .error .stuck

/-- What a program does to the sectors that the buffer cache represents. -/
theorem matches_cacheHandler {α : Type} (p : BlockProg α) {v : ℕ → Sector} {b : Bcache Sector}
    (hb : b.Represents v) :
    Matches (fun v b => b.Represents v) (fun e => e = FatError.stuck) (run diskHandler p v)
      (run cacheHandler p b) := by
  refine run_sim (fun i v b hb => ?_) p hb
  cases i with
  | read lba => exact ⟨_, congrArg Except.ok (Prod.ext (hb.read lba).1 rfl), (hb.read lba).2⟩
  | write lba s => exact ⟨_, rfl, hb.write lba s⟩
  | kmalloc n => exact ⟨b, rfl, hb⟩
  | stuck => exact fun _ => rfl

/-! ## Geometry -/

/-- The FAT and the data area have room for every cluster, have no sector in common, and every sector and
cluster number is in the range of its type. -/
structure Geometry (m : FatMount) : Prop where
  sectors_pos : 1 ≤ m.sectorsPerCluster
  sectors_le : m.sectorsPerCluster ≤ 255
  clusters : m.totalClusters + 2 ≤ fat32Eoc
  fat_end : m.fatStartLba + (m.totalClusters + 1) * 4 / 512 < 2 ^ 32
  data_end : m.dataStartLba + m.totalClusters * m.sectorsPerCluster ≤ 2 ^ 32
  disjoint : ∀ c < m.totalClusters + 2, ∀ j < m.totalClusters * m.sectorsPerCluster,
    m.fatStartLba + c * 4 / 512 ≠ m.dataStartLba + j

/-- The clusters of the data area. -/
def FatMount.InRange (m : FatMount) (c : ℕ) : Prop := 2 ≤ c ∧ c < m.totalClusters + 2

instance (m : FatMount) (c : ℕ) : Decidable (m.InRange c) := inferInstanceAs (Decidable (_ ∧ _))

/-- The sectors of a cluster are in the data area. -/
theorem FatMount.InRange.sector_lt {m : FatMount} {c j : ℕ} (hc : m.InRange c) (hj : j < m.sectorsPerCluster) :
    (c - 2) * m.sectorsPerCluster + j < m.totalClusters * m.sectorsPerCluster := by
  obtain ⟨hc1, hc2⟩ := hc
  have hmul : (c - 2 + 1) * m.sectorsPerCluster ≤ m.totalClusters * m.sectorsPerCluster :=
    Nat.mul_le_mul_right _ (by omega)
  rw [Nat.add_mul] at hmul
  omega

namespace Geometry

variable {m : FatMount} (g : Geometry m)
include g

theorem isCluster {c : ℕ} (hc : m.InRange c) : IsCluster c := ⟨hc.1, hc.2.trans_le g.clusters⟩

theorem clusterToLba_eq {c : ℕ} (hc : m.InRange c) :
    clusterToLba m c = m.dataStartLba + (c - 2) * m.sectorsPerCluster := by
  have hlt := hc.sector_lt (j := 0) g.sectors_pos
  have hend := g.data_end
  have hc1 := hc.1
  refine Word.wrap_of_lt ?_ (by omega)
  push_cast [hc1]
  rfl

theorem fatOffset_eq {c : ℕ} (hc : c < m.totalClusters + 2) : fatOffset c = c * 4 := by
  have hle := g.clusters
  simp only [fat32Eoc] at hle
  exact Word.wrap_of_lt (by push_cast; rfl) (by omega)

theorem fatSector_eq {c : ℕ} (hc : c < m.totalClusters + 2) :
    fatSector m c = m.fatStartLba + c * 4 / 512 := by
  have hend := g.fat_end
  rw [fatSector, g.fatOffset_eq hc]
  refine Word.wrap_of_lt (by push_cast; rfl) ?_
  omega

/-- No sector of a cluster is a sector of the FAT. -/
theorem fatSector_ne {c c' j : ℕ} (hc : c < m.totalClusters + 2) (hc' : m.InRange c')
    (hj : j < m.sectorsPerCluster) : fatSector m c ≠ clusterToLba m c' + j := by
  rw [g.fatSector_eq hc, g.clusterToLba_eq hc', Nat.add_assoc]
  exact g.disjoint c hc _ (hc'.sector_lt hj)

end Geometry

/-! ## The volume on a disk -/

/-- The four bytes of a FAT entry. -/
def fatBytes (m : FatMount) (v : ℕ → Sector) (c : ℕ) : ℕ :=
  leNat (slice (v (fatSector m c)).bytes (fatOffset c % 512) 4)

section

variable {m : FatMount}

@[simp] theorem Sector.bytes_ofBytes (l : List UInt8) : (Sector.ofBytes l).bytes = l.takeD 512 0 := rfl

/-! ## The programs of the operations -/

/-- The entry as `fat_write_entry` stores it, with the high four bits kept. -/
def storedEntry (existing value : ℕ) : ℕ := existing / 2 ^ 28 * 2 ^ 28 + value % 2 ^ 28

/-- The sector of a FAT entry after `fat_write_entry`. -/
def storeEntry (m : FatMount) (v : ℕ → Sector) (c value : ℕ) : Sector :=
  Sector.ofBytes (splice (v (fatSector m c)).bytes (fatOffset c % 512)
    (toLe 4 (storedEntry (fatBytes m v c) value)))

theorem bytes_storeEntry (g : Geometry m) (v : ℕ → Sector) {c : ℕ} (hc : c < m.totalClusters + 2)
    (value : ℕ) : (storeEntry m v c value).bytes = splice (v (fatSector m c)).bytes (c * 4 % 512)
      (toLe 4 (storedEntry (fatBytes m v c) value)) := by
  have hlen : (splice (v (fatSector m c)).bytes (c * 4 % 512)
      (toLe 4 (storedEntry (fatBytes m v c) value))).length = 512 := by
    rw [length_splice, Sector.length_bytes]
    rw [length_toLe, Sector.length_bytes]
    omega
  rw [storeEntry, Sector.bytes_ofBytes, g.fatOffset_eq hc, List.takeD_eq_take 0 hlen.ge,
    List.take_of_length_le hlen.le]

theorem storedEntry_lt {existing value : ℕ} (h : existing < 256 ^ 4) :
    storedEntry existing value < 256 ^ 4 := by
  rw [storedEntry]
  omega

/-- `fat_write_entry` changes one entry. -/
theorem fatBytes_storeEntry (g : Geometry m) (v : ℕ → Sector) {b c : ℕ} (hb : b < m.totalClusters + 2)
    (hc : c < m.totalClusters + 2) (value : ℕ) :
    fatBytes m (Function.update v (fatSector m c) (storeEntry m v c value)) b
      = if b = c then storedEntry (fatBytes m v c) value else fatBytes m v b := by
  by_cases hbc : b = c
  · subst hbc
    have hslice := slice_splice_self (l := (v (fatSector m b)).bytes) (k := b * 4 % 512)
      (x := toLe 4 (storedEntry (fatBytes m v b) value)) (by rw [Sector.length_bytes]; omega)
    have hlt : fatBytes m v b < 256 ^ 4 := leNat_slice_lt _ _ 4
    rw [length_toLe] at hslice
    rw [if_pos rfl, fatBytes, Function.update_self, bytes_storeEntry g v hb, g.fatOffset_eq hb, hslice,
      leNat_toLe]
    exact Nat.mod_eq_of_lt (storedEntry_lt hlt)
  · rw [if_neg hbc, fatBytes, fatBytes]
    by_cases hsec : fatSector m b = fatSector m c
    · -- The two entries are in one sector, at different places.
      rw [hsec, Function.update_self, bytes_storeEntry g v hc, g.fatOffset_eq hb,
        slice_splice_of_disjoint (by rw [Sector.length_bytes]; omega)]
      rw [g.fatSector_eq hb, g.fatSector_eq hc] at hsec
      rw [length_toLe]
      omega
    · rw [Function.update_of_ne hsec]

end

end PlantOS.Fs
