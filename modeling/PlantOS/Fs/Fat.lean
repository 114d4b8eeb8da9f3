import PlantOS.Fs.FatBlocks
import PlantOS.Fs.Path
import Mathlib.Data.Nat.Bitwise

/-!
# The FAT32 file system

Model of `fs/fat.c` above the FAT entries and clusters of `PlantOS.Fs.FatBlocks`: the loops over chains and
directories, and 8.3 names. A directory entry is the list of its 32 bytes; a string is the list of its bytes
before the terminating zero.

Loops that follow a chain of clusters run on fuel: a chain without a repetition has fewer than `2 ^ 28`
clusters, so a loop that exhausts its fuel would not end.

Reference: `fs/fat.c`, `fs/fat.h`.
-/

namespace PlantOS.Fs

open Bytes

/-- Programs over FAT entries and clusters. -/
abbrev FatProg := Prog FatPrim FatPrim.Answer

namespace FatPrim

/-- The call `fat_read_entry(cluster)`. -/
def getEntry (cluster : ℕ) : FatProg ℕ := Prog.call (readEntry cluster)

/-- The call `fat_write_entry(cluster, value)`. -/
def putEntry (cluster value : ℕ) : FatProg ℤ := Prog.call (writeEntry cluster value)

/-- The call `read_cluster(cluster, buf)`. -/
def getCluster (cluster : ℕ) : FatProg (Bool × List UInt8) := Prog.call (readCluster cluster)

/-- The call `kmalloc(n)`. -/
def malloc (n : ℕ) : FatProg Bool := Prog.call (kmalloc n)

/-- No result. -/
def halt {α : Type} : FatProg α := Prog.op stuck fun e => e.elim

end FatPrim

open FatPrim

/-- The fuel of loops along a chain. -/
def fatFuel : ℕ := 2 ^ 28 + 2

/-- `c >= 2 && c < FAT32_EOC`. -/
abbrev IsCluster (c : ℕ) : Prop := 2 ≤ c ∧ c < fat32Eoc

/-! ## Allocation -/

/-- The loop of `fat_free_chain`. -/
def fatFreeChainLoop : ℕ → ℕ → FatProg Unit
  | 0, _ => halt
  | n + 1, cluster =>
    if IsCluster cluster then do
      let next ← getEntry cluster
      let _ ← putEntry cluster fat32Free
      fatFreeChainLoop n next
    else pure ()

/-- `fat_free_chain`. -/
def fatFreeChain (cluster : ℕ) : FatProg Unit := fatFreeChainLoop fatFuel cluster

/-! ## 8.3 names -/

/-- `if (c >= 'a' && c <= 'z') c -= 32;`. -/
def upper (c : UInt8) : UInt8 := if 97 ≤ c ∧ c ≤ 122 then c - 32 else c

/-- The loop of `fat_name_to_83` that looks for the last dot. -/
def lastDot : List UInt8 → ℕ → Option ℕ → Option ℕ
  | [], _, dot => dot
  | c :: name, i, dot => lastDot name (i + 1) (if c = 46 then some i else dot)

/-- `fat_name_to_83`. -/
def fatNameTo83 (name : List UInt8) : List UInt8 :=
  let dot := lastDot name 0 none
  let limit := min (dot.getD name.length) 8
  let out := splice (List.replicate 11 32) 0 ((name.take limit).map upper)
  match dot with
  | none => out
  | some d => splice out 8 (((name.drop (d + 1)).take 3).map upper)

/-! ## Reading directories -/

/-- The loop of `fat_read_dir` that counts the clusters of the chain, at most `n` more of them. -/
def countClusters : ℕ → ℕ → ℕ → FatProg ℕ
  | 0, chainLen, _ => pure chainLen
  | n + 1, chainLen, c =>
    if IsCluster c then do
      let next ← getEntry c
      countClusters n (chainLen + 1) next
    else pure chainLen

/-- The loop of `fat_read_dir` that reads the clusters of the chain behind `buf`: whether all reads of clusters
succeed, and all bytes that are stored. -/
def readDirLoop : ℕ → ℕ → List UInt8 → FatProg (Bool × List UInt8)
  | 0, _, _ => halt
  | n + 1, c, buf =>
    if IsCluster c then do
      let r ← getCluster c
      if r.1 then do
        let next ← getEntry c
        readDirLoop n next (buf ++ r.2)
      else pure (false, buf ++ r.2)
    else pure (true, buf)

/-- The buffer of `fat_read_dir`: the number of entries it was allocated for, all bytes that were stored from
its start on, and whether it is returned; if not it has been released. The bytes may be more than fit in it. -/
structure DirBuf where
  count : ℕ
  bytes : List UInt8
  ok : Bool

/-- `fat_read_dir`; there is no buffer without memory. -/
def fatReadDir (m : FatMount) (cluster : ℕ) : FatProg (Option DirBuf) := do
  let chainLen ← countClusters 10001 0 cluster
  let totalEntries := Word.wrap 32 (chainLen * m.entriesPerCluster)
  let memory ← malloc (totalEntries * 32)
  if memory then do
    let r ← readDirLoop fatFuel cluster []
    pure (some ⟨totalEntries, r.2, r.1⟩)
  else pure none

end PlantOS.Fs
