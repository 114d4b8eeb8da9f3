import Mathlib.Data.List.Basic
import Mathlib.Order.Bounds.Basic

/-!
# `head` and `tail`

Model of the loops of the two programs over a file that can be opened and read, with the number of lines as it
has been scanned. `head` reads the file in blocks, `tail` reads it as a whole. The counters do not wrap.

`head` looks at the number of lines only behind a newline, so it prints a line even if it is to print none.
`tail` counts newlines, so a last line without one is not counted, and a line more is printed.

Reference: `user/head.c`, `user/tail.c`.
-/

namespace PlantOS.User

/-- The results of `uread` until the end of a file. -/
structure FileReads (file : List UInt8) where
  blocks : List (List UInt8)
  ne_nil : ∀ b ∈ blocks, b ≠ []
  flatten_eq : blocks.flatten = file

/-- The inner loop of `head`: what is printed of a block, `lines` and `done`. -/
def headBlock (numLines : ℤ) : List UInt8 → ℤ → List UInt8 × ℤ × Bool
  | [], lines => ([], lines, false)
  | ch :: s, lines =>
    let lines := if ch = 10 then lines + 1 else lines
    if ch = 10 ∧ numLines ≤ lines then ([ch], lines, true)
    else
      let r := headBlock numLines s lines
      (ch :: r.1, r.2)

/-- The loop of `head` over the blocks. -/
def headBlocks (numLines : ℤ) : List (List UInt8) → ℤ → List UInt8
  | [], _ => []
  | b :: bs, lines =>
    let r := headBlock numLines b lines
    if r.2.2 then r.1 else r.1 ++ headBlocks numLines bs r.2.1

/-- What `head -n numLines` prints of a file. -/
def head {file : List UInt8} (numLines : ℤ) (reads : FileReads file) : List UInt8 :=
  headBlocks numLines reads.blocks 0

/-- The last loop of `tail`. -/
def tailLoop (skip : ℤ) : List UInt8 → ℤ → List UInt8
  | [], _ => []
  | ch :: s, curLine =>
    (if skip ≤ curLine then [ch] else []) ++ tailLoop skip s (if ch = 10 then curLine + 1 else curLine)

/-- What `tail -n numLines` prints of a file. -/
def tail {file : List UInt8} (numLines : ℤ) (reads : FileReads file) : List UInt8 :=
  let data := reads.blocks.flatten
  if data = [] then []
  else
    let totalLines : ℤ := data.count 10
    tailLoop (max (totalLines - numLines) 0) data 0

/-- The number of lines of a file; a last line without newline counts. -/
def lineCount (file : List UInt8) : ℕ :=
  file.count 10 + if file.getLast? = none ∨ file.getLast? = some 10 then 0 else 1

/-! ## Lines -/

/-- The first `k` lines. -/
def takeLines : ℕ → List UInt8 → List UInt8
  | 0, _ => []
  | _ + 1, [] => []
  | k + 1, c :: s => c :: if c = 10 then takeLines k s else takeLines (k + 1) s

/-- The lines behind the first `k`. -/
def dropLines : ℕ → List UInt8 → List UInt8
  | 0, s => s
  | _ + 1, [] => []
  | k + 1, c :: s => if c = 10 then dropLines k s else dropLines (k + 1) s

theorem takeLines_append_dropLines (k : ℕ) (s : List UInt8) : takeLines k s ++ dropLines k s = s := by
  induction s generalizing k with
  | nil => cases k <;> rfl
  | cons c s ih =>
    cases k with
    | zero => rfl
    | succ k =>
      rw [takeLines, dropLines]
      split <;> rw [List.cons_append, ih]

theorem takeLines_nil (k : ℕ) : takeLines k [] = [] := by cases k <;> rfl

/-- The line behind the first `k` is taken with the next number. -/
theorem takeLines_succ (k : ℕ) (s : List UInt8) :
    takeLines (k + 1) s = takeLines k s ++ takeLines 1 (dropLines k s) := by
  induction s generalizing k with
  | nil => cases k <;> rfl
  | cons c s ih =>
    cases k with
    | zero => rfl
    | succ k =>
      rw [takeLines, takeLines, dropLines]
      split <;> rw [List.cons_append, ih]

/-- A line that is there is not empty. -/
theorem takeLines_one_ne_nil {s : List UInt8} (hs : s ≠ []) : takeLines 1 s ≠ [] := by
  cases s with
  | nil => exact absurd rfl hs
  | cons c s => exact List.cons_ne_nil _ _

/-- There is something behind fewer lines than there are. -/
theorem dropLines_ne_nil {k : ℕ} {s : List UInt8} (hk : k < lineCount s) : dropLines k s ≠ [] := by
  induction s generalizing k with
  | nil => exact absurd hk (Nat.not_lt_zero _)
  | cons c s ih =>
    cases k with
    | zero => exact List.cons_ne_nil _ _
    | succ k =>
      rw [dropLines]
      rw [lineCount, List.count_cons] at hk
      cases s with
      | nil =>
        by_cases hc : c = 10
        · simp [hc] at hk
        · simp [hc] at hk
      | cons d s =>
        rw [List.getLast?_cons_cons] at hk
        by_cases hc : c = 10
        · rw [if_pos hc]
          refine ih ?_
          rw [lineCount]
          simp only [hc, beq_self_eq_true, if_true] at hk
          omega
        · rw [if_neg hc]
          refine ih ?_
          rw [lineCount]
          simp only [beq_iff_eq, hc, if_false] at hk
          omega

/-! ## The loops -/

/-- The number of lines that `head` still prints. -/
def headLeft (numLines lines : ℤ) : ℕ := (max (numLines - lines) 1).toNat

theorem headLeft_pos (numLines lines : ℤ) : 0 < headLeft numLines lines := by
  rw [headLeft, Int.lt_toNat]
  exact lt_of_lt_of_le Int.one_pos (le_max_right _ _)

theorem headBlock_eq (numLines : ℤ) (s t : List UInt8) (lines : ℤ) :
    (if (headBlock numLines s lines).2.2 then (headBlock numLines s lines).1
      else (headBlock numLines s lines).1 ++
        takeLines (headLeft numLines (headBlock numLines s lines).2.1) t) =
      takeLines (headLeft numLines lines) (s ++ t) := by
  induction s generalizing lines with
  | nil => rfl
  | cons ch s ih =>
    rw [headBlock]
    by_cases hend : ch = 10 ∧ numLines ≤ lines + 1
    · have hleft : headLeft numLines lines = 0 + 1 := by
        have hle := hend.2
        rw [headLeft, max_eq_right (by omega)]
        rfl
      simp only [hend.1, if_true, hend.2, and_self]
      rw [hleft, List.cons_append, takeLines, if_pos rfl, takeLines]
    · obtain ⟨j, hj⟩ := Nat.exists_eq_add_one.2 (headLeft_pos numLines lines)
      rw [hj, List.cons_append, takeLines]
      by_cases hch : ch = 10
      · have hnot : ¬numLines ≤ lines + 1 := fun h => hend ⟨hch, h⟩
        have hnext : headLeft numLines (lines + 1) = j := by rw [headLeft] at hj ⊢; omega
        have hrest := ih (lines + 1)
        rw [hnext] at hrest
        simp only [hch, if_true, hnot, and_false, if_false]
        rw [← hrest]
        split <;> rfl
      · have hrest := ih lines
        rw [hj] at hrest
        simp only [hch, if_false, false_and]
        rw [← hrest]
        split <;> rfl

theorem headBlocks_eq (numLines : ℤ) (blocks : List (List UInt8)) (lines : ℤ) :
    headBlocks numLines blocks lines = takeLines (headLeft numLines lines) blocks.flatten := by
  induction blocks generalizing lines with
  | nil => rw [headBlocks, List.flatten_nil, takeLines_nil]
  | cons b blocks ih => rw [headBlocks, ih, List.flatten_cons, ← headBlock_eq]

theorem tailLoop_eq (skip : ℤ) (s : List UInt8) (curLine : ℤ) :
    tailLoop skip s curLine = dropLines (skip - curLine).toNat s := by
  induction s generalizing curLine with
  | nil => cases (skip - curLine).toNat <;> rfl
  | cons ch s ih =>
    rw [tailLoop, ih]
    by_cases hskip : skip ≤ curLine
    · have hnext : (skip - if ch = 10 then curLine + 1 else curLine).toNat = 0 := by split <;> omega
      rw [if_pos hskip, hnext, show (skip - curLine).toNat = 0 by omega, dropLines, dropLines,
        List.singleton_append]
    · obtain ⟨j, hj⟩ : ∃ j, (skip - curLine).toNat = j + 1 := ⟨(skip - curLine).toNat - 1, by omega⟩
      rw [if_neg hskip, hj, dropLines, List.nil_append]
      split
      · rw [show (skip - (curLine + 1)).toNat = j by omega]
      · rw [hj]

/-- What `head` prints. -/
theorem head_eq {file : List UInt8} (reads : FileReads file) (k : ℕ) :
    head k reads = takeLines (max k 1) file := by
  rw [head, headBlocks_eq, reads.flatten_eq, headLeft]
  congr 1
  omega

/-- What `tail` prints. -/
theorem tail_eq {file : List UInt8} (reads : FileReads file) (k : ℤ) :
    tail k reads = dropLines (file.count 10 - k).toNat file := by
  rw [tail, reads.flatten_eq]
  split
  · rename_i hnil
    rw [hnil]
    cases (((([] : List UInt8).count 10 : ℕ) : ℤ) - k).toNat <;> rfl
  · rw [tailLoop_eq]
    congr 1
    omega

/-! ## Both programs -/

/-- A file delivered in one block. -/
def oneBlock (c : UInt8) (s : List UInt8) : FileReads (c :: s) :=
  ⟨[c :: s], fun b hb => by rw [List.mem_singleton.1 hb]; exact List.cons_ne_nil _ _, by simp⟩

end PlantOS.User
