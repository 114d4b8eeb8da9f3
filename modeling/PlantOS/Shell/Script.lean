import Mathlib.Data.List.DropRight

/-!
# The lines of a script

How `shell/commands.c` reads a script: keywords, conditions, and the line that closes an `if` or a `while`. A
script is the list of its lines, and control flow is done on line numbers.

Reference: `shell/commands.c`, `script_trim` to `run_body`.
-/

namespace PlantOS.Shell

/-- The characters of a line before the terminating zero. -/
abbrev Line := List Char

/-! ## Lines -/

/-- `c == ' ' || c == '\t'`. -/
def isBlank (c : Char) : Bool := c = ' ' || c = '\t'

/-- `script_trim`. -/
def scriptTrim (s : Line) : Line := (s.dropWhile isBlank).rdropWhile fun c => isBlank c || c = '\r'

/-- `starts_with_kw`. -/
def startsWithKw (line kw : Line) : Bool :=
  let l := line.dropWhile isBlank
  kw.isPrefixOf l && (l[kw.length]?).all fun c => c = ' ' || c = '\t' || c = ';'

def kwIf : Line := ['i', 'f']
def kwElif : Line := ['e', 'l', 'i', 'f']
def kwElse : Line := ['e', 'l', 's', 'e']
def kwFi : Line := ['f', 'i']
def kwWhile : Line := ['w', 'h', 'i', 'l', 'e']
def kwDone : Line := ['d', 'o', 'n', 'e']
def kwThen : Line := ['t', 'h', 'e', 'n']
def kwDo : Line := ['d', 'o']
def kwBreak : Line := ['b', 'r', 'e', 'a', 'k']

/-- Take the last `n` characters from `out`, and then the spaces and semicolons before them. -/
def stripEnd (out : Line) (n : ℕ) : Line := (out.rdrop n).rdropWhile fun c => c = ' ' || c = ';' || c = '\t'

/-- `extract_condition` with a buffer of 256 characters. -/
def extractCondition (line keyword : Line) : Line :=
  let out := ((line.drop keyword.length).dropWhile isBlank).take 255
  let core := out.rdropWhile isBlank
  if kwThen.isSuffixOf core then stripEnd core 4
  else if kwDo.isSuffixOf core then stripEnd core 2
  else out

/-- `script_trim(ctx->lines[i])`. -/
def lineAt (lines : List Line) (i : ℕ) : Line := scriptTrim (lines.getD i [])

/-- The loop of `find_matching_fi` and `find_matching_done` over `n` more lines from `i` on. -/
def findMatchingLoop (lines : List Line) (kwOpen kwClose : Line) : ℕ → ℕ → ℕ → Option ℕ
  | 0, _, _ => none
  | n + 1, i, depth =>
    if startsWithKw (lineAt lines i) kwOpen then findMatchingLoop lines kwOpen kwClose n (i + 1) (depth + 1)
    else if startsWithKw (lineAt lines i) kwClose then
      if depth - 1 = 0 then some i else findMatchingLoop lines kwOpen kwClose n (i + 1) (depth - 1)
    else findMatchingLoop lines kwOpen kwClose n (i + 1) depth

/-- `find_matching_fi`. -/
def findMatchingFi (lines : List Line) (start : ℕ) : Option ℕ :=
  findMatchingLoop lines kwIf kwFi (lines.length - (start + 1)) (start + 1) 1

/-- `find_matching_done`. -/
def findMatchingDone (lines : List Line) (start : ℕ) : Option ℕ :=
  findMatchingLoop lines kwWhile kwDone (lines.length - (start + 1)) (start + 1) 1

/-- The loop of `find_next_branch` over `n` more lines from `i` on. -/
def findNextBranchLoop (lines : List Line) : ℕ → ℕ → ℕ → Option ℕ
  | 0, _, _ => none
  | n + 1, i, depth =>
    let l := lineAt lines i
    if startsWithKw l kwIf then findNextBranchLoop lines n (i + 1) (depth + 1)
    else if startsWithKw l kwFi then
      if depth = 0 then some i else findNextBranchLoop lines n (i + 1) (depth - 1)
    else if depth = 0 ∧ (startsWithKw l kwElif ∨ startsWithKw l kwElse) then some i
    else findNextBranchLoop lines n (i + 1) depth

/-- `find_next_branch`. -/
def findNextBranch (lines : List Line) (start : ℕ) : Option ℕ :=
  findNextBranchLoop lines (lines.length - (start + 1)) (start + 1) 0

/-- The lines that `run_body` passes over: empty lines, comments, `then` and `do`. -/
def skipped (l : Line) : Bool := l = [] || l.head? = some '#' || l = kwThen || l = kwDo

/-- A line that starts with a keyword that is not at the start of a statement. -/
def closes (l : Line) : Bool :=
  startsWithKw l kwElif || startsWithKw l kwElse || startsWithKw l kwFi || startsWithKw l kwDone

end PlantOS.Shell
