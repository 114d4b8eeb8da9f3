import Mathlib.Data.List.GetD
import Mathlib.Data.List.TakeWhile
import PlantOS.Common.StableSort
import PlantOS.User.HeadTail

/-!
# `sort`

Model of `sort` over a file that can be opened and read: the splitter over the blocks of `uread` with its two
limits, `strcmp`, the insertion sort of the pointers to the lines, and the output through `printf`. A pointer
into `line_pool` is the number of its row, so the sorted array holds the old places of the lines.

Reference: `user/sort.c`, `user/libc/ustring.c`.
-/

namespace PlantOS.User

def MAX_LINES : ℕ := 512
def MAX_LINE_LEN : ℕ := 256

/-- The finished rows of `line_pool`, the row that is being filled, and whether `done` has been reached. -/
structure ReadLines where
  lines : List (List UInt8)
  cur : List UInt8
  done : Bool

/-- The inner loop of `read_lines`. -/
def readBlock : List UInt8 → List (List UInt8) → List UInt8 → ReadLines
  | [], lines, cur => ⟨lines, cur, false⟩
  | c :: s, lines, cur =>
    if c = 10 ∨ MAX_LINE_LEN - 1 ≤ cur.length then
      if MAX_LINES ≤ lines.length + 1 then ⟨lines ++ [cur], [], true⟩
      else readBlock s (lines ++ [cur]) []
    else readBlock s lines (cur ++ [c])

/-- The loop of `read_lines` over the blocks, and the last line. -/
def readBlocks : List (List UInt8) → List (List UInt8) → List UInt8 → List (List UInt8)
  | [], lines, cur => if cur ≠ [] ∧ lines.length < MAX_LINES then lines ++ [cur] else lines
  | b :: bs, lines, cur =>
    let r := readBlock b lines cur
    if r.done then r.lines else readBlocks bs r.lines r.cur

/-- `read_lines`. -/
def readLines {file : List UInt8} (reads : FileReads file) : List (List UInt8) :=
  readBlocks reads.blocks [] []

/-- `strcmp`; behind the last character stands a zero. -/
def strcmp : List UInt8 → List UInt8 → ℤ
  | [], [] => 0
  | [], b :: _ => -b.toNat
  | a :: _, [] => a.toNat
  | a :: s, b :: t => if a ≠ 0 ∧ a = b then strcmp s t else a.toNat - b.toNat

/-- The comparison of two rows. -/
def compareRows (reverse : Bool) (pool : List (List UInt8)) (i j : ℕ) : ℤ :=
  let cmp := strcmp (pool.getD i []) (pool.getD j [])
  if reverse then -cmp else cmp

/-- `lines` after the insertion sort. -/
def sortedRows (reverse : Bool) (pool : List (List UInt8)) : List ℕ :=
  StableSort.front (StableSort.rounds (compareRows reverse pool) (pool.length - 1) id) pool.length

/-- `printf("%s\n", s)`, whose buffer holds 1023 characters. -/
def printLine (s : List UInt8) : List UInt8 := (s.takeWhile (· ≠ 0) ++ [10]).take 1023

/-- What `sort` prints of a file. -/
def sort {file : List UInt8} (reverse : Bool) (reads : FileReads file) : List UInt8 :=
  let pool := readLines reads
  (sortedRows reverse pool).flatMap fun i => printLine (pool.getD i [])

/-! ## Lines -/

/-- The lines of a file, without their newlines; the last one may lack it. -/
def fileLines : List UInt8 → List (List UInt8)
  | [] => []
  | c :: s =>
    if c = 10 then [] :: fileLines s
    else (c :: (fileLines s).headD []) :: (fileLines s).tail

theorem fileLines_append_newline {cur : List UInt8} (hcur : 10 ∉ cur) (s : List UInt8) :
    fileLines (cur ++ 10 :: s) = cur :: fileLines s := by
  induction cur with
  | nil => rfl
  | cons c cur ih =>
    rw [List.mem_cons, not_or] at hcur
    rw [List.cons_append, fileLines, if_neg (Ne.symm hcur.1), ih hcur.2]
    rfl

theorem fileLines_eq_singleton {cur : List UInt8} (hcur : 10 ∉ cur) (hne : cur ≠ []) :
    fileLines cur = [cur] := by
  induction cur with
  | nil => exact absurd rfl hne
  | cons c cur ih =>
    rw [List.mem_cons, not_or] at hcur
    rw [fileLines, if_neg (Ne.symm hcur.1)]
    cases cur with
    | nil => rfl
    | cons d cur => rw [ih hcur.2 (List.cons_ne_nil _ _)]; rfl

theorem fileLines_ne_nil {s : List UInt8} (hs : s ≠ []) : fileLines s ≠ [] := by
  cases s with
  | nil => exact absurd rfl hs
  | cons c s =>
    rw [fileLines]
    split <;> exact List.cons_ne_nil _ _

/-- The first line begins with the characters before the first newline. -/
theorem length_le_headD {cur : List UInt8} (hcur : 10 ∉ cur) (s : List UInt8) :
    cur.length ≤ ((fileLines (cur ++ s)).headD []).length := by
  induction cur with
  | nil => exact Nat.zero_le _
  | cons c cur ih =>
    rw [List.mem_cons, not_or] at hcur
    rw [List.cons_append, fileLines, if_neg (Ne.symm hcur.1)]
    exact Nat.succ_le_succ (ih hcur.2)

/-- A byte that is not in the file is in none of its lines. -/
theorem not_mem_of_mem_fileLines {c : UInt8} {s : List UInt8} (hc : c ∉ s) : ∀ l ∈ fileLines s, c ∉ l := by
  induction s with
  | nil => exact fun l hl => absurd hl List.not_mem_nil
  | cons d s ih =>
    rw [List.mem_cons, not_or] at hc
    have ih := ih hc.2
    intro l hl
    rw [fileLines] at hl
    split at hl
    · obtain rfl | hl := List.mem_cons.1 hl
      · exact List.not_mem_nil
      · exact ih l hl
    · obtain rfl | hl := List.mem_cons.1 hl
      · refine fun hmem => (List.mem_cons.1 hmem).elim hc.1 ?_
        cases hs : fileLines s with
        | nil => exact List.not_mem_nil
        | cons m ls => exact ih m (hs ▸ List.mem_cons_self)
      · exact ih l (List.mem_of_mem_tail hl)

/-! ## Reading -/

/-- The lines already read and those of the rest are the lines of the file. -/
structure Splits (all lines : List (List UInt8)) (cur rest : List UInt8) : Prop where
  no_newline : 10 ∉ cur
  lines_eq : lines ++ fileLines (cur ++ rest) = all

/-- The result of a block with `rest` behind it. -/
def ReadLines.Continues (all : List (List UInt8)) (rest : List UInt8) (r : ReadLines) : Prop :=
  if r.done then r.lines = all else Splits all r.lines r.cur rest

section

variable {all lines : List (List UInt8)} {cur s t : List UInt8} {c : UInt8}

theorem Splits.newline (h : Splits all lines cur (10 :: s)) : Splits all (lines ++ [cur]) [] s where
  no_newline := List.not_mem_nil
  lines_eq := by
    rw [← h.lines_eq, fileLines_append_newline h.no_newline, List.append_assoc]
    rfl

theorem Splits.char (h : Splits all lines cur (c :: s)) (hc : c ≠ 10) : Splits all lines (cur ++ [c]) s where
  no_newline := by
    rw [List.mem_append, List.mem_singleton, not_or]
    exact ⟨h.no_newline, Ne.symm hc⟩
  lines_eq := by rw [← h.lines_eq, List.append_assoc]; rfl

/-- A row is not full before its line has ended. -/
theorem Splits.length_lt (h : Splits all lines cur (c :: s)) (hlen : ∀ l ∈ all, l.length < MAX_LINE_LEN)
    (hc : c ≠ 10) : cur.length < MAX_LINE_LEN - 1 := by
  have h := h.char hc
  have hle := length_le_headD h.no_newline s
  have hne : fileLines (cur ++ [c] ++ s) ≠ [] := fileLines_ne_nil (by simp)
  obtain ⟨l, ls, hl⟩ := List.exists_cons_of_ne_nil hne
  have hlt := hlen l (by rw [← h.lines_eq, hl]; simp)
  rw [hl, List.headD_cons, List.length_append, List.length_singleton] at hle
  omega

variable (hcount : all.length ≤ MAX_LINES) (hlen : ∀ l ∈ all, l.length < MAX_LINE_LEN)

include hcount hlen

theorem readBlock_continues (h : Splits all lines cur (s ++ t)) :
    (readBlock s lines cur).Continues all t := by
  induction s generalizing lines cur with
  | nil => exact h
  | cons c s ih =>
    rw [List.cons_append] at h
    rw [readBlock]
    by_cases hc : c = 10
    · subst hc
      have hnext := h.newline
      rw [if_pos (.inl rfl)]
      split
      · -- All lines are there, so nothing can stand behind the last newline.
        rename_i hfull
        have heq := hnext.lines_eq
        have hlength := congrArg List.length heq
        rw [List.length_append, List.length_append, List.length_singleton] at hlength
        have hnil : fileLines ([] ++ (s ++ t)) = [] := List.length_eq_zero_iff.1 (by omega)
        rw [hnil, List.append_nil] at heq
        exact heq
      · exact ih hnext
    · have hlt := h.length_lt hlen hc
      rw [if_neg (by rintro (h | h) <;> [exact hc h; omega])]
      exact ih (h.char hc)

theorem readBlocks_eq {bs : List (List UInt8)} (h : Splits all lines cur bs.flatten) :
    readBlocks bs lines cur = all := by
  induction bs generalizing lines cur with
  | nil =>
    have heq := h.lines_eq
    rw [List.flatten_nil, List.append_nil] at heq
    rw [readBlocks]
    by_cases hcur : cur = []
    · rw [if_neg (fun h => h.1 hcur), ← heq, hcur]
      exact (List.append_nil _).symm
    · rw [fileLines_eq_singleton h.no_newline hcur] at heq
      have hlength := congrArg List.length heq
      rw [List.length_append, List.length_singleton] at hlength
      rw [if_pos ⟨hcur, by omega⟩, heq]
  | cons b bs ih =>
    rw [List.flatten_cons] at h
    have hstep := readBlock_continues hcount hlen h
    rw [readBlocks]
    rw [ReadLines.Continues] at hstep
    split at hstep
    · rename_i hdone
      rw [if_pos hdone, hstep]
    · rename_i hdone
      rw [if_neg hdone, ih hstep]

end

/-- The lines of a file within the limits are read, wherever the blocks end. -/
theorem readLines_eq {file : List UInt8} (reads : FileReads file)
    (hcount : (fileLines file).length ≤ MAX_LINES) (hlen : ∀ l ∈ fileLines file, l.length < MAX_LINE_LEN) :
    readLines reads = fileLines file := by
  refine readBlocks_eq hcount hlen ⟨List.not_mem_nil, ?_⟩
  rw [reads.flatten_eq]
  rfl

/-! ## Comparing -/

theorem strcmp_neg (s t : List UInt8) : strcmp t s = -strcmp s t := by
  induction s generalizing t with
  | nil => cases t <;> simp [strcmp]
  | cons a s ih =>
    cases t with
    | nil => rfl
    | cons b t =>
      rw [strcmp, strcmp]
      by_cases hab : a = b
      · subst hab
        split
        · exact ih t
        · omega
      · rw [if_neg fun h => hab h.2.symm, if_neg fun h => hab h.2]
        omega

/-- Strings are compared by their first characters, and by the rest if those are equal and not zero. -/
theorem strcmp_cons_le {a b : UInt8} {s t : List UInt8} :
    strcmp (a :: s) (b :: t) ≤ 0 ↔ a.toNat < b.toNat ∨ a = b ∧ (a ≠ 0 → strcmp s t ≤ 0) := by
  by_cases hab : a = b
  · subst hab
    by_cases ha : a = 0 <;> simp [strcmp, ha]
  · have hne : a.toNat ≠ b.toNat := mt UInt8.toNat_inj.1 hab
    rw [strcmp, if_neg fun h => hab h.2]
    simp only [hab, false_and, or_false]
    omega

theorem strcmp_trans {s t u : List UInt8} (hst : strcmp s t ≤ 0) (htu : strcmp t u ≤ 0) : strcmp s u ≤ 0 := by
  induction s generalizing t u with
  | nil => cases u <;> simp [strcmp]
  | cons a s ih =>
    cases t with
    | nil =>
      -- The first string begins with a zero, so it is empty.
      have ha : a = 0 := UInt8.toNat_inj.1 (Int.ofNat_eq_zero.1 (le_antisymm hst (Int.natCast_nonneg _)))
      cases u <;> simp [strcmp, ha]
    | cons b t =>
      rw [strcmp_cons_le] at hst
      cases u with
      | nil =>
        have hb : (b.toNat : ℤ) ≤ 0 := htu
        have ha : (a.toNat : ℤ) ≤ 0 := by obtain h | ⟨rfl, -⟩ := hst <;> omega
        exact ha
      | cons c u =>
        rw [strcmp_cons_le] at htu ⊢
        obtain hab | ⟨rfl, hst⟩ := hst
        · obtain hbc | ⟨rfl, -⟩ := htu
          · exact .inl (hab.trans hbc)
          · exact .inl hab
        · obtain hac | ⟨rfl, htu⟩ := htu
          · exact .inl hac
          · exact .inr ⟨rfl, fun ha => ih (hst ha) (htu ha)⟩

theorem compareRows_isComparison (reverse : Bool) (pool : List (List UInt8)) :
    StableSort.IsComparison (compareRows reverse pool) where
  neg i j := by
    cases reverse
    · exact strcmp_neg _ _
    · exact congrArg (- ·) (strcmp_neg _ _)
  trans i j k hij hjk := by
    cases reverse
    · exact strcmp_trans hij hjk
    · -- Negated, the comparison is the one with the strings exchanged.
      simp only [compareRows, if_true, ← strcmp_neg] at hij hjk ⊢
      exact strcmp_trans hjk hij

/-! ## The sorted file -/

/-- A line without zeros that fits into the buffer is printed as it is. -/
theorem printLine_eq {l : List UInt8} (hzero : 0 ∉ l) (hlen : l.length < MAX_LINE_LEN) :
    printLine l = l ++ [10] := by
  have htake : l.takeWhile (· ≠ 0) = l := List.takeWhile_eq_self_iff.2 fun c hc =>
    decide_eq_true fun h => hzero (h ▸ hc)
  rw [printLine, htake, List.take_of_length_le]
  rw [List.length_append, List.length_singleton]
  rw [MAX_LINE_LEN] at hlen
  omega

/-- Every row is printed once. -/
theorem sortedRows_perm (reverse : Bool) (pool : List (List UInt8)) :
    (sortedRows reverse pool).Perm (List.range pool.length) := by
  rw [sortedRows]
  cases pool.length with
  | zero => exact .refl _
  | succ k =>
    have hperm := @StableSort.front_rounds_perm _ (compareRows reverse pool) k id
    rwa [StableSort.front_id] at hperm

/-- The rows come in order, equal ones in the order of the file. -/
theorem sortedRows_pairwise (reverse : Bool) (pool : List (List UInt8)) :
    (sortedRows reverse pool).Pairwise (StableSort.Before (compareRows reverse pool)) := by
  rw [sortedRows]
  cases pool.length with
  | zero => exact .nil
  | succ k => exact (compareRows_isComparison reverse pool).rounds_pairwise k

/-- `i` may stand before `j` in the output: it is not greater, and not less with `-r`, and equal lines are in
their old order. -/
def InOrder (reverse : Bool) (lines : List (List UInt8)) (i j : ℕ) : Prop :=
  let cmp := strcmp (lines.getD i []) (lines.getD j [])
  (if reverse then 0 ≤ cmp else cmp ≤ 0) ∧ (cmp = 0 → i < j)

/-- The output of `sort` is the lines of the file, each with a newline, in the order of `strcmp` or the
opposite one, and equal lines keep their order. -/
theorem sort_sorts {file : List UInt8} (reads : FileReads file) (reverse : Bool) (hzero : 0 ∉ file)
    (hcount : (fileLines file).length ≤ 512) (hlen : ∀ l ∈ fileLines file, l.length ≤ 255) :
    ∃ order : List ℕ, order.Perm (List.range (fileLines file).length) ∧
      sort reverse reads = order.flatMap (fun i => (fileLines file).getD i [] ++ [10]) ∧
      order.Pairwise (InOrder reverse (fileLines file)) := by
  have hlt : ∀ l ∈ fileLines file, l.length < MAX_LINE_LEN := fun l hl => Nat.lt_succ_of_le (hlen l hl)
  have hlines := readLines_eq reads hcount hlt
  have hperm := sortedRows_perm reverse (fileLines file)
  refine ⟨sortedRows reverse (fileLines file), hperm, ?_, ?_⟩
  · rw [sort, hlines]
    refine List.flatMap_congr fun i hi => ?_
    have hi : i < (fileLines file).length := List.mem_range.1 (hperm.mem_iff.1 hi)
    have hmem : (fileLines file).getD i [] ∈ fileLines file := by
      rw [List.getD_eq_getElem _ _ hi]
      exact List.getElem_mem hi
    exact printLine_eq (not_mem_of_mem_fileLines hzero _ hmem) (hlt _ hmem)
  · refine (sortedRows_pairwise reverse (fileLines file)).imp fun {i j} h => ?_
    rw [StableSort.Before, compareRows] at h
    rw [InOrder]
    cases reverse
    · simp only [Bool.false_eq_true, if_false] at h ⊢
      omega
    · simp only [if_true] at h ⊢
      omega

theorem sort_sorts_two : ∃ order : List ℕ, order.Perm (List.range 2) ∧
    sort false (⟨[[98], [10, 97]], by decide, rfl⟩ : FileReads [98, 10, 97]) =
      order.flatMap (fun i => (fileLines [98, 10, 97]).getD i [] ++ [10]) ∧
    order.Pairwise (InOrder false (fileLines [98, 10, 97])) :=
  @sort_sorts [98, 10, 97] _ false (by decide) (by decide) (by decide)

example : sort false (⟨[[98], [10, 97]], by decide, rfl⟩ : FileReads [98, 10, 97]) = [97, 10, 98, 10] := by
  decide

end PlantOS.User
