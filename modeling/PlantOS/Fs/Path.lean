import Mathlib.Data.List.Basic
import Mathlib.Data.List.TakeWhile

/-!
# Paths

A path is the list of its characters, without the terminating NUL; 47 is the slash. Both file systems split a
path at its last slash.

Reference: `split_path` in `fs/ramfs.c`, `fat_split_path` in `fs/fat.c`.
-/

namespace PlantOS.Fs

/-- `last_slash`: the position of the last slash, or 0. -/
def lastSlash (path : List UInt8) : ℕ :=
  ((List.range' 1 (path.length - 1)).reverse.find? fun i => path[i]? = some 47).getD 0

/-- The path of the parent directory. -/
def parentPath (path : List UInt8) : List UInt8 :=
  if lastSlash path = 0 then [47] else path.take (lastSlash path)

/-- The part of the path behind the last slash. -/
def baseName (path : List UInt8) : List UInt8 := path.drop (lastSlash path + 1)

/-! ## What is between the slashes -/

/-- The parts of a path between its slashes. -/
def segments (path : List UInt8) : List (List UInt8) := (path.splitOn 47).filter (· ≠ [])

theorem segments_append_slash (q b : List UInt8) :
    segments (q ++ 47 :: b) = segments q ++ segments b := by
  rw [segments, List.splitOn, List.splitOnP_append_cons _ _ (by simp), List.filter_append]
  rfl

theorem segments_of_notMem {b : List UInt8} (hslash : 47 ∉ b) :
    segments b = if b = [] then [] else [b] := by
  have hsplit : b.splitOn 47 = [b] := by
    induction b with
    | nil => rfl
    | cons c b ih =>
      have hc : c ≠ 47 := fun h => hslash (h ▸ List.mem_cons_self)
      rw [List.splitOn] at ih ⊢
      rw [List.splitOnP_cons_eq_if_modifyHead, if_neg (by simpa using hc),
        ih fun h => hslash (List.mem_cons_of_mem c h)]
      rfl
  rw [segments, hsplit]
  cases b <;> rfl

end PlantOS.Fs
