import PlantOS.Common.Buffer

/-!
# The text editor

Model of `shell/editor.c`: the lines of the text in an array of 512 rows of 256 bytes, the cursor, and what
each key does. A store outside of the array has no result. The drawing of the screen is left out; of
`editor_refresh` there is what it does to the scroll offset and the cursor.

Reference: `shell/editor.c`.
-/

namespace PlantOS.Shell

open Buffer

/-- `ED_MAX_LINES`. -/
def edMaxLines : ℤ := 512

/-- `ED_LINE_MAX`. -/
def edLineMax : ℤ := 256

/-- `ED_TEXT_ROWS`. -/
def edTextRows : ℤ := 22

/-- The static variables of the editor. -/
structure Editor where
  lines : ℤ → ℤ → UInt8
  numLines : ℤ
  cx : ℤ
  cy : ℤ
  scrollY : ℤ
  modified : Bool
  running : Bool

namespace Editor

/-! ## Lines -/

/-- `strlen(lines[line])`. -/
def rowLen (e : Editor) (line : ℤ) : ℤ := strlenFrom (e.lines line) 256 0

/-- `line_len`. -/
def lineLen (e : Editor) (line : ℤ) : ℤ := if line < 0 ∨ e.numLines ≤ line then 0 else e.rowLen line

/-- The bytes of a line. -/
def rowBytes (e : Editor) (line : ℤ) : List UInt8 :=
  (List.range (e.lineLen line).toNat).map fun j : ℕ => e.lines line j

/-- The lines of the text. -/
def bufferLines (e : Editor) : List (List UInt8) :=
  (List.range e.numLines.toNat).map fun i : ℕ => e.rowBytes i

/-- The row `line` after stores in it. -/
def putRow (e : Editor) (line : ℤ) (row : ℤ → UInt8) : Option Editor := do
  let lines ← store edMaxLines e.lines line row
  some { e with lines := lines }

/-- `lines[line][col] = c`. -/
def put (e : Editor) (line col : ℤ) (c : UInt8) : Option Editor :=
  store edLineMax (e.lines line) col c >>= e.putRow line

theorem put_eq {e : Editor} {line col : ℤ} (hline : 0 ≤ line ∧ line < 512) (hcol : 0 ≤ col ∧ col < 256)
    (b : UInt8) :
    e.put line col b =
      some { e with lines := Function.update e.lines line (Function.update (e.lines line) col b) } := by
  rw [put, edLineMax, store_eq hcol.1 hcol.2, Option.bind_eq_bind, Option.bind_some, putRow, edMaxLines,
    store_eq hline.1 hline.2]
  rfl

/-- `insert_line`. -/
def insertLine (e : Editor) (pos : ℤ) : Option Editor :=
  if edMaxLines ≤ e.numLines then some e
  else do
    let lines ← shiftRight edMaxLines pos (e.numLines - pos).toNat e.lines
    let e ← put { e with lines := lines } pos 0 0
    some { e with numLines := e.numLines + 1 }

/-- `delete_line`. -/
def deleteLine (e : Editor) (pos : ℤ) : Option Editor :=
  if pos < 0 ∨ e.numLines ≤ pos then some e
  else do
    let lines ← shiftLeft edMaxLines pos (e.numLines - 1 - pos).toNat e.lines
    let e := { e with lines := lines, numLines := e.numLines - 1 }
    if e.numLines = 0 then do
      let e ← e.put 0 0 0
      some { e with numLines := 1 }
    else some e

/-- `insert_char_at`. -/
def insertCharAt (e : Editor) (line col : ℤ) (c : UInt8) : Option Editor :=
  if edLineMax - 1 ≤ e.lineLen line then some e
  else do
    let row ← shiftRight edLineMax col (e.lineLen line + 1 - col).toNat (e.lines line)
    let row ← store edLineMax row col c
    e.putRow line row

/-- `delete_char_at`. -/
def deleteCharAt (e : Editor) (line col : ℤ) : Option Editor :=
  if e.lineLen line ≤ col then some e
  else shiftLeft edLineMax col (e.lineLen line - col).toNat (e.lines line) >>= e.putRow line

/-- `strcpy(&lines[dst][d], &lines[src][i])`. -/
def copyString (e : Editor) (dst d src i : ℤ) : Option Editor :=
  strcpy edLineMax (e.lines src) 257 d i (e.lines dst) >>= e.putRow dst

/-- `strcat(lines[dst], lines[src])`. -/
def appendLine (e : Editor) (dst src : ℤ) : Option Editor := e.copyString dst (e.rowLen dst) src 0

/-! ## Loading -/

/-- The loop of `load_file` over the bytes of the file, at the line `curLine` and the column `curCol`. -/
def loadLoop : List UInt8 → ℤ → ℤ → Editor → Option Editor
  | [], _, _, e => some e
  | b :: file, curLine, curCol, e =>
    if b = 10 then do
      let e ← e.put curLine curCol 0
      if edMaxLines ≤ curLine + 1 then some e
      else do
        let e ← e.put (curLine + 1) 0 0
        loadLoop file (curLine + 1) 0 { e with numLines := curLine + 1 + 1 }
    else if b ≠ 13 then
      if curCol < edLineMax - 1 then do
        let e ← e.put curLine curCol b
        let e ← e.put curLine (curCol + 1) 0
        loadLoop file curLine (curCol + 1) e
      else loadLoop file curLine curCol e
    else loadLoop file curLine curCol e

/-- `load_file`. There is no file if it cannot be opened. -/
def loadFile (e : Editor) (file : Option (List UInt8)) : Option Editor := do
  let e ← put { e with numLines := 0 } 0 0 0
  match file with
  | none => some { e with numLines := 1 }
  | some bytes => do
    let e ← e.put 0 0 0
    let e ← loadLoop bytes 0 0 { e with numLines := 1 }
    if e.numLines = 0 then put { e with numLines := 1 } 0 0 0 else some e

/-! ## Keys -/

/-- `editor_refresh`. -/
def refresh (e : Editor) : Editor :=
  let scrollY := if e.cy < e.scrollY then e.cy else e.scrollY
  let scrollY := if scrollY + edTextRows ≤ e.cy then e.cy - edTextRows + 1 else scrollY
  { e with
    scrollY := scrollY
    cx := if e.lineLen e.cy < e.cx then e.lineLen e.cy else e.cx }

/-- Ctrl+S, when the file has been saved or not. -/
def saveKey (e : Editor) (saved : Bool) : Editor := if saved then { e with modified := false } else e

def upKey (e : Editor) : Editor := if 0 < e.cy then { e with cy := e.cy - 1 } else e

def downKey (e : Editor) : Editor := if e.cy < e.numLines - 1 then { e with cy := e.cy + 1 } else e

def leftKey (e : Editor) : Editor :=
  if 0 < e.cx then { e with cx := e.cx - 1 }
  else if 0 < e.cy then { e with cy := e.cy - 1, cx := e.lineLen (e.cy - 1) }
  else e

def rightKey (e : Editor) : Editor :=
  if e.cx < e.lineLen e.cy then { e with cx := e.cx + 1 }
  else if e.cy < e.numLines - 1 then { e with cy := e.cy + 1, cx := 0 }
  else e

def homeKey (e : Editor) : Editor := { e with cx := 0 }

def endKey (e : Editor) : Editor := { e with cx := e.lineLen e.cy }

def pageUpKey (e : Editor) : Editor :=
  if e.cy - edTextRows < 0 then { e with cy := 0 } else { e with cy := e.cy - edTextRows }

def pageDownKey (e : Editor) : Editor :=
  if e.numLines ≤ e.cy + edTextRows then { e with cy := e.numLines - 1 }
  else { e with cy := e.cy + edTextRows }

def deleteKey (e : Editor) : Option Editor :=
  if e.cx < e.lineLen e.cy then do
    let e ← e.deleteCharAt e.cy e.cx
    some { e with modified := true }
  else if e.cy < e.numLines - 1 then
    if e.lineLen e.cy + e.lineLen (e.cy + 1) < edLineMax - 1 then do
      let e ← e.appendLine e.cy (e.cy + 1)
      let e ← e.deleteLine (e.cy + 1)
      some { e with modified := true }
    else some e
  else some e

/-- The text behind the cursor, in a line of `len` characters, moves to the next line. -/
def splitLine (e : Editor) (len : ℤ) : Option Editor :=
  if e.cx < len then do
    let e ← e.copyString (e.cy + 1) 0 e.cy e.cx
    e.put e.cy e.cx 0
  else some e

def enterKey (e : Editor) : Option Editor := do
  let len := e.lineLen e.cy
  let e ← e.insertLine (e.cy + 1)
  let e ← e.splitLine len
  some { e with cy := e.cy + 1, cx := 0, modified := true }

def backspaceKey (e : Editor) : Option Editor :=
  if 0 < e.cx then do
    let e ← e.deleteCharAt e.cy (e.cx - 1)
    some { e with cx := e.cx - 1, modified := true }
  else if 0 < e.cy then
    let prevLen := e.lineLen (e.cy - 1)
    if prevLen + e.lineLen e.cy < edLineMax - 1 then do
      let e ← e.appendLine (e.cy - 1) e.cy
      let e ← e.deleteLine e.cy
      some { e with cy := e.cy - 1, cx := prevLen, modified := true }
    else some e
  else some e

/-- The loop of the tab key. -/
def tabLoop : ℕ → Editor → Option Editor
  | 0, e => some e
  | n + 1, e =>
    if e.lineLen e.cy < edLineMax - 1 then do
      let e ← e.insertCharAt e.cy e.cx 32
      tabLoop n { e with cx := e.cx + 1 }
    else tabLoop n e

def tabKey (e : Editor) : Option Editor := do
  let e ← tabLoop (4 - e.cx.tmod 4).toNat e
  some { e with modified := true }

def charKey (e : Editor) (c : UInt8) : Option Editor := do
  let e ← e.insertCharAt e.cy e.cx c
  some { e with cx := e.cx + 1, modified := true }

/-- `editor_key_handler`. `saved` is whether a save succeeds. -/
def keyHandler (saved : Bool) (e : Editor) (c : UInt8) : Option Editor :=
  if c = 0x18 then some { e with running := false }
  else if c = 0x13 then some (e.saveKey saved).refresh
  else if c = 0x80 then some e.upKey.refresh
  else if c = 0x81 then some e.downKey.refresh
  else if c = 0x82 then some e.leftKey.refresh
  else if c = 0x83 then some e.rightKey.refresh
  else if c = 0x84 then some e.homeKey.refresh
  else if c = 0x85 then some e.endKey.refresh
  else if c = 0x87 then some e.pageUpKey.refresh
  else if c = 0x88 then some e.pageDownKey.refresh
  else if c = 0x86 then e.deleteKey.map refresh
  else if 0x80 ≤ c then some e
  else if c = 10 then if edMaxLines ≤ e.numLines then some e else e.enterKey.map refresh
  else if c = 8 then e.backspaceKey.map refresh
  else if c = 9 then e.tabKey.map refresh
  else if 32 ≤ c ∧ c ≤ 126 then (e.charKey c).map refresh
  else some e

/-- `editor_open` up to its main loop. -/
def openFile (e : Editor) (file : Option (List UInt8)) : Option Editor := do
  let e ← e.loadFile file
  some (refresh { e with cx := 0, cy := 0, scrollY := 0, modified := false, running := true })

/-- A session: the file is opened, and then keys are pressed. -/
def session (e : Editor) (file : Option (List UInt8)) (keys : List (UInt8 × Bool)) : Option Editor := do
  let e ← e.openFile file
  keys.foldlM (fun e key => e.keyHandler key.2 key.1) e

/-! ## The invariant -/

/-- What holds between two keys. -/
structure Inv (e : Editor) : Prop where
  one_le : 1 ≤ e.numLines
  le_max : e.numLines ≤ 512
  cy_nonneg : 0 ≤ e.cy
  cy_lt : e.cy < e.numLines
  terminated : ∀ i, 0 ≤ i → i < e.numLines → ∃ j, 0 ≤ j ∧ j < 256 ∧ e.lines i j = 0
  cx_nonneg : 0 ≤ e.cx
  cx_le : e.cx ≤ e.lineLen e.cy
  scroll_nonneg : 0 ≤ e.scrollY
  scroll_le : e.scrollY ≤ e.cy
  scroll_lt : e.cy < e.scrollY + 22

end Editor

end PlantOS.Shell
