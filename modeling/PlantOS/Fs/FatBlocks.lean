import PlantOS.Common.Prog
import PlantOS.Common.Slice
import PlantOS.Common.Word

/-!
# FAT32: clusters and FAT entries on sectors

The low-level half of `fs/fat.c`: programs over the two sector operations of the buffer cache that read and
write FAT entries and clusters. The other half, in `PlantOS.Fs.Fat`, is written over the operations
`FatPrim`; `fatPrim` says which program of this file each of them is.

The static `sector_buf` is overwritten before every use and is therefore local here. `kmalloc` is an
operation with the answer whether it returned memory. A program that does not return, or whose result
depends on an uninitialised variable or on memory behind the end of a buffer, is `stuck`.

Reference: `fs/fat.c`, `fs/fat.h`.
-/

namespace PlantOS.Fs

open Bytes

/-! ## Sectors -/

/-- A sector of 512 bytes. -/
structure Sector where
  bytes : List UInt8
  length_bytes : bytes.length = 512

/-- The sector stored from a buffer; a buffer shorter than a sector is filled up with zeros. -/
def Sector.ofBytes (l : List UInt8) : Sector := ⟨l.takeD 512 0, List.takeD_length 512 l 0⟩

instance : Inhabited Sector := ⟨Sector.ofBytes []⟩

/-- What the FAT code asks of the layers below it. -/
inductive BlockOp where
  | read (lba : ℕ)
  | write (lba : ℕ) (s : Sector)
  | kmalloc (n : ℕ)
  | stuck

/-- The answers: the sector or `NULL`, the result of `bcache_write`, whether there was memory. -/
def BlockOp.Answer : BlockOp → Type
  | .read _ => Option Sector
  | .write _ _ => ℤ
  | .kmalloc _ => Bool
  | .stuck => Empty

/-- Programs over sectors. -/
abbrev BlockProg := Prog BlockOp BlockOp.Answer

/-- `read_sector`. -/
def readSector (lba : ℕ) : BlockProg (Option Sector) := Prog.call (BlockOp.read lba)

/-- `write_sector`. -/
def writeSector (lba : ℕ) (s : Sector) : BlockProg ℤ := Prog.call (BlockOp.write lba s)

/-! ## The mounted volume -/

/-- `struct fat_mount`, without the fields that no function reads. -/
structure FatMount where
  fatStartLba : ℕ
  dataStartLba : ℕ
  rootCluster : ℕ
  sectorsPerCluster : ℕ
  totalClusters : ℕ
  mounted : Bool

/-- `FAT32_EOC`. -/
def fat32Eoc : ℕ := 0x0FFFFFF8

/-- `FAT32_FREE`. -/
def fat32Free : ℕ := 0

/-- `mount.sectors_per_cluster * 512`. -/
def FatMount.clusterBytes (m : FatMount) : ℕ := Word.wrap 32 (m.sectorsPerCluster * 512)

/-- `cluster_bytes / sizeof(struct fat_dirent)`. -/
def FatMount.entriesPerCluster (m : FatMount) : ℕ := m.clusterBytes / 32

/-- `cluster_to_lba`. -/
def clusterToLba (m : FatMount) (cluster : ℕ) : ℕ :=
  Word.wrap 32 (m.dataStartLba + (cluster - 2) * m.sectorsPerCluster)

/-! ## Clusters -/

/-- The loop of `read_cluster` for `n` more sectors from the `i`-th on. -/
def readClusterLoop (lba : ℕ) : ℕ → ℕ → List UInt8 → BlockProg (Bool × List UInt8)
  | 0, _, buf => pure (true, buf)
  | n + 1, i, buf => do
    match ← readSector (Word.wrap 32 (lba + i)) with
    | none => pure (false, buf)
    | some s => readClusterLoop lba n (i + 1) (buf ++ s.bytes)

/-- `read_cluster`: whether it returns 0, and the bytes that it has stored. -/
def readCluster (m : FatMount) (cluster : ℕ) : BlockProg (Bool × List UInt8) :=
  readClusterLoop (clusterToLba m cluster) m.sectorsPerCluster 0 []

/-- The loop of `write_cluster` for `n` more sectors from the `i`-th on. -/
def writeClusterLoop (lba : ℕ) (buf : List UInt8) : ℕ → ℕ → BlockProg ℤ
  | 0, _ => pure 0
  | n + 1, i => do
    let r ← writeSector (Word.wrap 32 (lba + i)) (Sector.ofBytes (slice buf (i * 512) 512))
    if r < 0 then pure (-1) else writeClusterLoop lba buf n (i + 1)

/-- `write_cluster`. -/
def writeCluster (m : FatMount) (cluster : ℕ) (buf : List UInt8) : BlockProg ℤ :=
  writeClusterLoop (clusterToLba m cluster) buf m.sectorsPerCluster 0

/-! ## FAT entries -/

/-- `fat_offset`. -/
def fatOffset (cluster : ℕ) : ℕ := Word.wrap 32 (cluster * 4)

/-- `fat_sector`. -/
def fatSector (m : FatMount) (cluster : ℕ) : ℕ := Word.wrap 32 (m.fatStartLba + fatOffset cluster / 512)

/-- `fat_read_entry`: the low 28 bits, and the end-of-chain mark if the sector cannot be read. -/
def fatReadEntry (m : FatMount) (cluster : ℕ) : BlockProg ℕ := do
  match ← readSector (fatSector m cluster) with
  | none => pure fat32Eoc
  | some s => pure (leNat (slice s.bytes (fatOffset cluster % 512) 4) % 2 ^ 28)

/-- `fat_write_entry`: replaces the low 28 bits. -/
def fatWriteEntry (m : FatMount) (cluster value : ℕ) : BlockProg ℤ := do
  match ← readSector (fatSector m cluster) with
  | none => pure (-1)
  | some s =>
    let existing := leNat (slice s.bytes (fatOffset cluster % 512) 4)
    let value := existing / 2 ^ 28 * 2 ^ 28 + value % 2 ^ 28
    writeSector (fatSector m cluster)
      (Sector.ofBytes (splice s.bytes (fatOffset cluster % 512) (toLe 4 value)))

/-! ## The operations the rest of the code is written over -/

/-- The calls of the functions above, and of `kmalloc`. -/
inductive FatPrim where
  | readEntry (cluster : ℕ)
  | writeEntry (cluster value : ℕ)
  | readCluster (cluster : ℕ)
  | writeCluster (cluster : ℕ) (buf : List UInt8)
  | kmalloc (n : ℕ)
  | stuck

/-- Their results. -/
def FatPrim.Answer : FatPrim → Type
  | .readEntry _ => ℕ
  | .writeEntry _ _ => ℤ
  | .readCluster _ => Bool × List UInt8
  | .writeCluster _ _ => ℤ
  | .kmalloc _ => Bool
  | .stuck => Empty

/-- The program behind each call. -/
def fatPrim (m : FatMount) : (i : FatPrim) → BlockProg i.Answer
  | .readEntry cluster => fatReadEntry m cluster
  | .writeEntry cluster value => fatWriteEntry m cluster value
  | .readCluster cluster => readCluster m cluster
  | .writeCluster cluster buf => writeCluster m cluster buf
  | .kmalloc n => Prog.call (BlockOp.kmalloc n)
  | .stuck => Prog.call BlockOp.stuck

end PlantOS.Fs
