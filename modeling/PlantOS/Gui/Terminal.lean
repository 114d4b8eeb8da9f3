import Mathlib.Data.List.Basic
import Mathlib.Order.Bounds.Basic

/-!
# The terminal window

Model of the terminal: `text_buf` with the cursor, the capture of output with its wrap and scrolling, the
input line, the history and every branch of `term_key_input`. The window is open; drawing it only reads the
state. What a command prints is a parameter.

The cells of all rows that were ever on the screen are numbered from the first one on (`Screen.pos`,
`Screen.cell`), so that a cell keeps its number while the screen scrolls. A backspace and `term_erase_input`
stop at column 0, so they do not return to the row above. The number of cells behind the prompt minus the
length of the input (`Term.origin`) then grows, and nothing makes it smaller again.

Reference: `gui/terminal.c`, `gui/terminal.h`, `drivers/keyboard.h`.
-/

namespace PlantOS.Gui

def TERM_COLS : ℕ := 36
def TERM_ROWS : ℕ := 12
def TERM_INPUT_MAX : ℕ := 80
def TERM_HIST_SIZE : ℕ := 16
def KEY_UP : UInt8 := 0x80
def KEY_DOWN : UInt8 := 0x81

/-! ## The screen -/

/-- `text_buf` and the cursor. `scrolled` counts the calls of `scroll_up`; the code has no such counter. -/
structure Screen where
  text : ℕ → ℕ → UInt8
  row : ℕ
  col : ℕ
  scrolled : ℕ

namespace Screen

/-- `scroll_up`. -/
def scrollUp (s : Screen) : Screen where
  text r c := if r < TERM_ROWS - 1 then s.text (r + 1) c else 0
  row := s.row - 1
  col := s.col
  scrolled := s.scrolled + 1

/-- The begin of the next row, for a newline and for a wrap. -/
def newLine (s : Screen) : Screen :=
  let s := { s with col := 0, row := s.row + 1 }
  if TERM_ROWS ≤ s.row then { s.scrollUp with row := TERM_ROWS - 1 } else s

/-- A store into column `i` of the cursor's row, with the cursor in column `col` afterwards. -/
def store (s : Screen) (i : ℕ) (c : UInt8) (col : ℕ) : Screen :=
  { s with text := Function.update s.text s.row (Function.update (s.text s.row) i c), col := col }

/-- `term_capture_char`. -/
def capture (s : Screen) (c : UInt8) : Screen :=
  if c = 10 then s.newLine
  else if c = 13 then s
  else if c = 8 then if 0 < s.col then { s with col := s.col - 1 } else s
  else
    let s := if TERM_COLS ≤ s.col then s.newLine else s
    s.store s.col c (s.col + 1)

/-- `term_puts`. -/
def puts (s : Screen) (str : List UInt8) : Screen := str.foldl capture s

/-- What a backspace does to the screen. -/
def eraseBack (s : Screen) : Screen :=
  if 0 < s.col then s.store (s.col - 1) 32 (s.col - 1) else s

end Screen

/-! ## The keys -/

/-- The characters of a string constant. -/
def chars (s : String) : List UInt8 := s.toList.map fun c => UInt8.ofNat c.toNat

/-- The static variables. `input` is `input_buf[0..input_len)`. -/
structure Term where
  screen : Screen
  input : List UInt8
  history : ℕ → List UInt8
  histCount : ℕ
  histWrite : ℕ
  histBrowse : Option ℕ
  savedInput : List UInt8

namespace Term

/-- The slot before `i`. -/
def prevSlot (i : ℕ) : ℕ := (i + TERM_HIST_SIZE - 1) % TERM_HIST_SIZE

/-- `term_hist_add`. -/
def histAdd (t : Term) (line : List UInt8) : Term :=
  if line.length = 0 then t
  else if 0 < t.histCount ∧ t.history (prevSlot t.histWrite) = line then t
  else
    { t with
      history := Function.update t.history t.histWrite (line.take (TERM_INPUT_MAX - 1))
      histWrite := (t.histWrite + 1) % TERM_HIST_SIZE
      histCount := if t.histCount < TERM_HIST_SIZE then t.histCount + 1 else t.histCount }

/-- `term_show_prompt`. -/
def showPrompt (t : Term) : Term := { t with screen := t.screen.puts (chars "$ ") }

/-- The words of a command line; at most 15 are kept. -/
def argv (line : List UInt8) : List (List UInt8) := ((line.splitOn 32).filter (· ≠ [])).take 15

/-- `term_execute`, for the output of `commands_execute`. -/
def execute (commands : List (List UInt8) → List UInt8) (t : Term) (line : List UInt8) : Term :=
  if line.length = 0 then t.showPrompt
  else if line = chars "desktop" ∨ line = chars "gfxtest" ∨ line = chars "mousetest" then
    showPrompt { t with screen := t.screen.puts (chars "Not available in desktop\n") }
  else if line = chars "clear" then
    showPrompt { t with screen := { t.screen with text := fun _ _ => 0, row := 0, col := 0 } }
  else if argv line = [] then t.showPrompt
  else showPrompt { t with screen := t.screen.puts (commands (argv line)) }

/-- `term_set_input`; the loop of `term_erase_input` runs once for each character of the input. -/
def setInput (t : Term) (s : List UInt8) : Term :=
  let line := s.take (TERM_INPUT_MAX - 1)
  { t with
    input := line
    screen := Screen.puts (Screen.eraseBack^[t.input.length] t.screen) line }

/-- What KEY_UP or KEY_DOWN recalls: `term_hist_browse`, `term_saved_input` and the argument of
`term_set_input`. -/
structure Recall where
  browse : Option ℕ
  saved : List UInt8
  line : List UInt8

def recallUp (t : Term) : Option Recall :=
  if t.histCount = 0 then none
  else
    match t.histBrowse with
    | none =>
      let browse := prevSlot t.histWrite
      some ⟨some browse, t.input, t.history browse⟩
    | some b =>
      let oldest := (t.histWrite + TERM_HIST_SIZE - t.histCount) % TERM_HIST_SIZE
      if b = oldest then none else some ⟨some (prevSlot b), t.savedInput, t.history (prevSlot b)⟩

def recallDown (t : Term) : Option Recall :=
  match t.histBrowse with
  | none => none
  | some b =>
    if b = prevSlot t.histWrite then some ⟨none, t.savedInput, t.savedInput⟩
    else
      let browse := (b + 1) % TERM_HIST_SIZE
      some ⟨some browse, t.savedInput, t.history browse⟩

def setRecalled (t : Term) : Option Recall → Term
  | none => t
  | some r => setInput { t with histBrowse := r.browse, savedInput := r.saved } r.line

/-- `term_key_input`. -/
def keyInput (commands : List (List UInt8) → List UInt8) (t : Term) (c : UInt8) : Term :=
  if c = 10 then
    let line := t.input
    let t := histAdd { t with screen := t.screen.capture 10 } line
    execute commands { t with histBrowse := none, input := [] } line
  else if c = 8 then
    if t.input ≠ [] then { t with input := t.input.dropLast, screen := t.screen.eraseBack } else t
  else if c = KEY_UP then t.setRecalled t.recallUp
  else if c = KEY_DOWN then t.setRecalled t.recallDown
  else if 0x80 ≤ c then t
  else if c < 32 ∨ 126 < c then t
  else if t.input.length < TERM_INPUT_MAX - 1 then
    { t with input := t.input ++ [c], screen := t.screen.capture c }
  else t

/-- The terminal after `term_open`. -/
def opened : Term :=
  showPrompt
    { screen := Screen.puts ⟨fun _ _ => 0, 0, 0, 0⟩ (chars "PlantOS Terminal\n")
      input := []
      history := fun _ => []
      histCount := 0
      histWrite := 0
      histBrowse := none
      savedInput := [] }

end Term

/-! ## Cells -/

def Blank (c : UInt8) : Prop := c = 0 ∨ c = 32

def Printable (c : UInt8) : Prop := 32 ≤ c ∧ c ≤ 126

instance (c : UInt8) : Decidable (Printable c) := inferInstanceAs (Decidable (32 ≤ c ∧ c ≤ 126))

namespace Screen

/-- The number of the cell of the cursor. Behind the last column it is the first one of the next row. -/
def pos (s : Screen) : ℕ := (s.scrolled + s.row) * TERM_COLS + s.col

/-- The character of a cell. -/
def cell (s : Screen) (a : ℕ) : UInt8 := s.text (a / TERM_COLS - s.scrolled) (a % TERM_COLS)

/-- The cursor is on the screen and nothing stands behind it. -/
structure Tidy (s : Screen) : Prop where
  row_lt : s.row < TERM_ROWS
  col_le : s.col ≤ TERM_COLS
  blank : ∀ a, s.pos ≤ a → a < (s.scrolled + TERM_ROWS) * TERM_COLS → Blank (s.cell a)

/-- The cells from `start` up to the cursor are on the screen and hold `txt`. -/
structure Spells (s : Screen) (start : ℕ) (txt : List UInt8) : Prop where
  visible : s.scrolled * TERM_COLS ≤ start
  pos_eq : s.pos = start + txt.length
  cell_eq : ∀ i < txt.length, txt[i]? = some (s.cell (start + i))

variable {s : Screen} {c : UInt8} {start : ℕ} {txt : List UInt8}

/-- The row of the cursor is blank from the cursor on. -/
theorem Tidy.blank_row (h : s.Tidy) {col : ℕ} (hle : s.col ≤ col) (hlt : col < TERM_COLS) :
    Blank (s.text s.row col) := by
  have hblank := h.blank ((s.scrolled + s.row) * TERM_COLS + col) (Nat.add_le_add_left hle _) ?_
  · rw [cell] at hblank
    simp only [TERM_COLS] at hblank hlt
    have hrow : ((s.scrolled + s.row) * 36 + col) / 36 - s.scrolled = s.row := by omega
    have hcol : ((s.scrolled + s.row) * 36 + col) % 36 = col := by omega
    rwa [hrow, hcol] at hblank
  · have hrow := h.row_lt
    simp only [TERM_ROWS, TERM_COLS] at hrow hlt ⊢
    omega

theorem newLine_of_lt (h : s.row + 1 < TERM_ROWS) : s.newLine = { s with col := 0, row := s.row + 1 } :=
  if_neg (Nat.not_le.2 h)

theorem newLine_of_eq (h : s.row + 1 = TERM_ROWS) :
    s.newLine = { text := fun r c => if r < TERM_ROWS - 1 then s.text (r + 1) c else 0,
                  row := TERM_ROWS - 1, col := 0, scrolled := s.scrolled + 1 } :=
  if_pos (Nat.le_of_eq h.symm)

/-- The next row is below, or the screen has scrolled. -/
theorem newLine_place (h : s.row < TERM_ROWS) :
    s.newLine.col = 0 ∧
      (s.newLine.scrolled = s.scrolled ∧ s.newLine.row = s.row + 1 ∧ s.row + 1 < TERM_ROWS ∨
        s.newLine.scrolled = s.scrolled + 1 ∧ s.newLine.row = s.row ∧ s.row + 1 = TERM_ROWS) := by
  obtain hlt | heq := Nat.lt_or_eq_of_le h
  · rw [newLine_of_lt hlt]
    exact ⟨rfl, .inl ⟨rfl, rfl, hlt⟩⟩
  · rw [newLine_of_eq heq]
    exact ⟨rfl, .inr ⟨rfl, Nat.sub_eq_of_eq_add heq.symm, heq⟩⟩

/-- It begins behind the last column. -/
theorem pos_newLine (h : s.row < TERM_ROWS) : s.newLine.pos = (s.scrolled + s.row + 1) * TERM_COLS := by
  obtain ⟨hcol, hplace⟩ := newLine_place h
  have hrow : s.newLine.scrolled + s.newLine.row = s.scrolled + s.row + 1 := by omega
  rw [pos, hcol, hrow, Nat.add_zero]

/-- The cells that stay on the screen are kept, and a new row is empty. -/
theorem cell_newLine {a : ℕ} (h : s.row < TERM_ROWS) (hlow : s.newLine.scrolled * TERM_COLS ≤ a)
    (hhigh : a < (s.newLine.scrolled + TERM_ROWS) * TERM_COLS) :
    s.newLine.cell a = if a < (s.scrolled + TERM_ROWS) * TERM_COLS then s.cell a else 0 := by
  obtain hlt | heq := Nat.lt_or_eq_of_le h
  · rw [newLine_of_lt hlt] at hhigh ⊢
    rw [if_pos hhigh]
    rfl
  · rw [newLine_of_eq heq] at hlow ⊢
    change (if a / 36 - (s.scrolled + 1) < 11 then s.text (a / 36 - (s.scrolled + 1) + 1) (a % 36) else 0) =
      if a < (s.scrolled + 12) * 36 then s.text (a / 36 - s.scrolled) (a % 36) else 0
    change (s.scrolled + 1) * 36 ≤ a at hlow
    have hrow : a / 36 - (s.scrolled + 1) + 1 = a / 36 - s.scrolled := by omega
    rw [hrow]
    exact if_congr (by omega) rfl rfl

theorem Tidy.newLine (h : s.Tidy) : s.newLine.Tidy where
  row_lt := by have := (newLine_place h.row_lt).2; have := h.row_lt; omega
  col_le := by rw [(newLine_place h.row_lt).1]; exact Nat.zero_le _
  blank a hpos hend := by
    have hlow : s.newLine.scrolled * TERM_COLS ≤ a :=
      (Nat.mul_le_mul_right _ (Nat.le_add_right _ _)).trans ((Nat.le_add_right _ _).trans hpos)
    rw [cell_newLine h.row_lt hlow hend]
    split
    · rename_i hin
      rw [pos_newLine h.row_lt] at hpos
      refine h.blank a (le_trans ?_ hpos) hin
      rw [pos, Nat.succ_mul]
      exact Nat.add_le_add_left h.col_le _
    · exact .inl rfl

theorem pos_store (s : Screen) (i n : ℕ) (c : UInt8) :
    (s.store i c n).pos = (s.scrolled + s.row) * TERM_COLS + n := rfl

/-- A store at the cursor's row changes one cell. -/
theorem cell_store {a col n : ℕ} (hcol : col < TERM_COLS) (hlow : s.scrolled * TERM_COLS ≤ a) :
    (s.store col c n).cell a = if a = (s.scrolled + s.row) * TERM_COLS + col then c else s.cell a := by
  rw [cell, cell, store]
  by_cases ha : a = (s.scrolled + s.row) * TERM_COLS + col
  · rw [if_pos ha]
    simp only [TERM_COLS] at ha hcol ⊢
    have hrow : a / 36 - s.scrolled = s.row := by omega
    have hmod : a % 36 = col := by omega
    rw [hrow, hmod, Function.update_self, Function.update_self]
  · rw [if_neg ha]
    simp only [TERM_COLS] at ha hcol hlow ⊢
    by_cases hrow : a / 36 - s.scrolled = s.row
    · rw [hrow, Function.update_self, Function.update_of_ne (by omega)]
    · rw [Function.update_of_ne hrow]

/-- What a character that is put does: it stands in the cell of the cursor, and the cursor goes on. -/
structure Puts (s : Screen) (c : UInt8) (s' : Screen) : Prop where
  tidy : s'.Tidy
  pos_eq : s'.pos = s.pos + 1
  cell_self : s'.cell s.pos = c
  cell_of_lt : ∀ a < s.pos, s'.scrolled * TERM_COLS ≤ a → s'.cell a = s.cell a
  scrolled : s'.scrolled = s.scrolled ∨ s'.row = TERM_ROWS - 1

theorem Tidy.store (h : s.Tidy) (hcol : s.col < TERM_COLS) (c : UInt8) :
    s.Puts c (s.store s.col c (s.col + 1)) where
  tidy :=
    { row_lt := h.row_lt
      col_le := hcol
      blank := fun a hpos hend => by
        have hlt : s.pos < a := hpos
        have hlow : s.scrolled * TERM_COLS ≤ a := by
          rw [pos] at hlt; simp only [TERM_COLS] at hlt ⊢; omega
        have hne : a ≠ (s.scrolled + s.row) * TERM_COLS + s.col := ne_of_gt hlt
        rw [cell_store hcol hlow, if_neg hne]
        exact h.blank a hlt.le hend }
  pos_eq := rfl
  cell_self := by
    have hlow : s.scrolled * TERM_COLS ≤ s.pos := by rw [pos]; simp only [TERM_COLS]; omega
    rw [cell_store hcol hlow]
    exact if_pos rfl
  cell_of_lt a hlt hlow := by
    exact (cell_store (s := s) hcol hlow).trans (if_neg (ne_of_lt hlt))
  scrolled := .inl rfl

theorem Tidy.puts_capture (h : s.Tidy) (h10 : c ≠ 10) (h13 : c ≠ 13) (h8 : c ≠ 8) :
    s.Puts c (s.capture c) := by
  rw [Screen.capture, if_neg h10, if_neg h13, if_neg h8]
  by_cases hcol : TERM_COLS ≤ s.col
  · have hput := h.newLine.store (by rw [(newLine_place h.row_lt).1]; decide) c
    -- The first cell of the next row is the one behind the last column.
    have hpos : s.newLine.pos = s.pos := by
      rw [pos_newLine h.row_lt, pos, Nat.succ_mul, le_antisymm h.col_le hcol]
    have hend : s.pos ≤ (s.scrolled + TERM_ROWS) * TERM_COLS := by
      rw [← hpos, pos_newLine h.row_lt]
      exact Nat.mul_le_mul_right _ (Nat.add_le_add_left h.row_lt _)
    have hplace := (newLine_place h.row_lt).2
    have hend' := hend.trans (Nat.mul_le_mul_right TERM_COLS
      (show s.scrolled + TERM_ROWS ≤ s.newLine.scrolled + TERM_ROWS by omega))
    simp only [if_pos hcol]
    refine ⟨hput.tidy, hput.pos_eq.trans (by rw [hpos]), hpos ▸ hput.cell_self, fun a hlt hlow => ?_, ?_⟩
    · rw [hput.cell_of_lt a (hpos ▸ hlt) hlow, cell_newLine h.row_lt hlow (hlt.trans_le hend'),
        if_pos (hlt.trans_le hend)]
    · change s.newLine.scrolled = s.scrolled ∨ s.newLine.row = TERM_ROWS - 1
      omega
  · simp only [if_neg hcol]
    exact h.store (not_le.1 hcol) c

theorem Tidy.capture (h : s.Tidy) (hc : Printable c) : s.Puts c (s.capture c) := by
  refine h.puts_capture ?_ ?_ ?_ <;> rintro rfl <;> exact absurd hc.1 (by decide)

theorem Spells.capture (h : s.Spells start txt) (htidy : s.Tidy) (hlen : txt.length < TERM_INPUT_MAX - 1)
    (hc : Printable c) : (s.capture c).Spells start (txt ++ [c]) := by
  have hput := htidy.capture hc
  have hpos := h.pos_eq
  have hvisible : (s.capture c).scrolled * TERM_COLS ≤ start := by
    obtain heq | hrow := hput.scrolled
    · rw [heq]
      exact h.visible
    · -- At the bottom, the whole input is on the screen.
      have hpos' := hput.pos_eq
      rw [pos, hrow] at hpos'
      simp only [TERM_INPUT_MAX, TERM_ROWS, TERM_COLS] at hlen hpos' ⊢
      omega
  refine ⟨hvisible, ?_, fun i hi => ?_⟩
  · rw [hput.pos_eq, hpos, List.length_append, List.length_singleton, Nat.add_assoc]
  · rw [List.length_append, List.length_singleton] at hi
    obtain hlt | rfl := Nat.lt_succ_iff_lt_or_eq.1 hi
    · rw [List.getElem?_append_left hlt, h.cell_eq i hlt, hput.cell_of_lt _ (by omega) (by omega)]
    · rw [List.getElem?_concat_length, ← hpos, hput.cell_self]

theorem Spells.puts (h : s.Spells start txt) (htidy : s.Tidy) {l : List UInt8} (hl : ∀ c ∈ l, Printable c)
    (hlen : (txt ++ l).length < TERM_INPUT_MAX) : (s.puts l).Spells start (txt ++ l) := by
  induction l generalizing s txt with
  | nil => rwa [List.append_nil]
  | cons c l ih =>
    have hc := hl c List.mem_cons_self
    rw [List.append_cons] at hlen ⊢
    refine ih (h.capture htidy ?_ hc) (htidy.capture hc).tidy
      (fun d hd => hl d (List.mem_cons_of_mem _ hd)) hlen
    rw [List.length_append, List.length_append, List.length_singleton] at hlen
    omega

theorem Tidy.puts (h : s.Tidy) {l : List UInt8} (hl : ∀ c ∈ l, Printable c) :
    (s.puts l).Tidy ∧ (s.puts l).pos = s.pos + l.length := by
  induction l generalizing s with
  | nil => exact ⟨h, rfl⟩
  | cons c l ih =>
    have hput := h.capture (hl c List.mem_cons_self)
    obtain ⟨htidy, hpos⟩ := ih hput.tidy fun d hd => hl d (List.mem_cons_of_mem _ hd)
    refine ⟨htidy, hpos.trans ?_⟩
    rw [hput.pos_eq, List.length_cons]
    omega

/-- Output keeps the screen tidy, unless it goes back. -/
theorem Tidy.puts_output (h : s.Tidy) {l : List UInt8} (hl : 8 ∉ l) : (s.puts l).Tidy := by
  induction l generalizing s with
  | nil => exact h
  | cons c l ih =>
    rw [List.mem_cons, not_or] at hl
    refine ih ?_ hl.2
    by_cases h10 : c = 10
    · rw [h10]
      exact h.newLine
    by_cases h13 : c = 13
    · rw [h13]
      exact h
    exact (h.puts_capture h10 h13 (Ne.symm hl.1)).tidy

/-! ### Erasing -/

theorem eraseBack_of_pos (h : 0 < s.col) :
    s.eraseBack = s.store (s.col - 1) 32 (s.col - 1) := if_pos h

theorem eraseBack_of_zero (h : s.col = 0) : s.eraseBack = s := if_neg (by omega)

theorem col_eraseBack (s : Screen) : s.eraseBack.col = s.col - 1 := by
  obtain h | h := Nat.eq_zero_or_pos s.col
  · rw [eraseBack_of_zero h, h]
  · rw [eraseBack_of_pos h]
    rfl

theorem pos_eraseBack (s : Screen) : s.eraseBack.pos + min 1 s.col = s.pos := by
  obtain h | h := Nat.eq_zero_or_pos s.col
  · rw [eraseBack_of_zero h, h]
    rfl
  · rw [eraseBack_of_pos h, min_eq_left h, pos_store, pos]
    omega

theorem Tidy.eraseBack (h : s.Tidy) : s.eraseBack.Tidy := by
  obtain hzero | hcol := Nat.eq_zero_or_pos s.col
  · rwa [eraseBack_of_zero hzero]
  rw [eraseBack_of_pos hcol]
  have hle := h.col_le
  refine ⟨h.row_lt, (Nat.sub_le _ _).trans hle, fun a hpos hend => ?_⟩
  have hlow : s.scrolled * TERM_COLS ≤ a :=
    (Nat.mul_le_mul_right _ (Nat.le_add_right _ _)).trans ((Nat.le_add_right _ _).trans hpos)
  rw [cell_store (by omega) hlow]
  split
  · exact .inr rfl
  · rename_i hne
    refine h.blank a ?_ hend
    rw [pos_store] at hpos
    rw [pos]
    omega

theorem Spells.eraseBack (h : s.Spells start txt) (htidy : s.Tidy) (hne : txt ≠ []) (hcol : 0 < s.col) :
    s.eraseBack.Spells start txt.dropLast := by
  have hle := htidy.col_le
  have hlen := List.length_pos_iff.2 hne
  have hpos := h.pos_eq
  rw [eraseBack_of_pos hcol]
  refine ⟨h.visible, ?_, fun i hi => ?_⟩
  · rw [List.length_dropLast, pos_store]
    rw [pos] at hpos
    omega
  · rw [List.length_dropLast] at hi
    rw [List.getElem?_dropLast, if_pos hi, h.cell_eq i (by omega)]
    rw [cell_store (by omega) (h.visible.trans (Nat.le_add_right _ _)), if_neg]
    rw [pos] at hpos
    omega

theorem Tidy.iterate_eraseBack (h : s.Tidy) (n : ℕ) : (Screen.eraseBack^[n] s).Tidy := by
  induction n generalizing s with
  | zero => exact h
  | succ n ih => exact ih h.eraseBack

theorem pos_iterate_eraseBack (s : Screen) (n : ℕ) : (Screen.eraseBack^[n] s).pos + min n s.col = s.pos := by
  induction n generalizing s with
  | zero => rw [Nat.zero_min]; rfl
  | succ n ih =>
    have h₁ := pos_eraseBack s
    have h₂ := ih s.eraseBack
    rw [col_eraseBack] at h₂
    rw [Function.iterate_succ_apply]
    omega

theorem Spells.iterate_eraseBack (h : s.Spells start txt) (htidy : s.Tidy) (hcol : txt.length ≤ s.col) :
    (Screen.eraseBack^[txt.length] s).Spells start [] := by
  induction hn : txt.length generalizing s txt with
  | zero =>
    rw [List.length_eq_zero_iff.1 hn] at h
    exact h
  | succ n ih =>
    have hne : txt ≠ [] := List.ne_nil_of_length_eq_add_one hn
    have hlen : txt.dropLast.length = n := by rw [List.length_dropLast]; omega
    refine ih (h.eraseBack htidy hne (by omega)) htidy.eraseBack ?_ hlen
    rw [col_eraseBack]
    omega

end Screen

/-! ## Keys at a prompt -/

/-- A line that can be typed. -/
def IsLine (l : List UInt8) : Prop := l.length < TERM_INPUT_MAX ∧ ∀ c ∈ l, Printable c

theorem isLine_nil : IsLine [] := ⟨Nat.zero_lt_succ _, List.forall_mem_nil _⟩

/-- The keys that edit the input. -/
def EditKey (c : UInt8) : Prop := Printable c ∨ c = 8 ∨ c = KEY_UP ∨ c = KEY_DOWN

instance (c : UInt8) : Decidable (EditKey c) :=
  inferInstanceAs (Decidable (Printable c ∨ c = 8 ∨ c = KEY_UP ∨ c = KEY_DOWN))

namespace Term

/-- Nothing stands behind the cursor, and only printable characters can be recalled. -/
structure Ready (t : Term) : Prop where
  tidy : t.screen.Tidy
  input : IsLine t.input
  history : ∀ i, IsLine (t.history i)
  saved : IsLine t.savedInput

/-- The cells from `start` up to the cursor hold the input, and the rest of the cursor's row is blank. -/
def Shows (t : Term) (start : ℕ) : Prop :=
  t.screen.Spells start t.input ∧
    ∀ c, t.screen.col ≤ c → c < TERM_COLS → Blank (t.screen.text t.screen.row c)

/-- What the key removes from the input stands in the row of the cursor. -/
def Erases (t : Term) (c : UInt8) : Prop :=
  (c = 8 → t.input ≠ [] → 0 < t.screen.col) ∧
    (c = KEY_UP → t.recallUp.isSome → t.input.length ≤ t.screen.col) ∧
    (c = KEY_DOWN → t.recallDown.isSome → t.input.length ≤ t.screen.col)

/-- This holds for every key of a sequence. -/
def ErasesAll (commands : List (List UInt8) → List UInt8) : Term → List UInt8 → Prop
  | _, [] => True
  | t, c :: keys => t.Erases c ∧ ErasesAll commands (t.keyInput commands c) keys

/-- The cell where the input would have to begin. -/
def origin (t : Term) : ℤ := t.screen.pos - t.input.length

/-- What a key does, where `erases` says that it erases as much as it removes. -/
structure KeyStep (t t' : Term) (erases : Prop) : Prop where
  ready : t'.Ready
  origin_le : t.origin ≤ t'.origin
  origin_eq_iff : t'.origin = t.origin ↔ erases
  spells : erases → ∀ start, t.screen.Spells start t.input → t'.screen.Spells start t'.input

variable {commands : List (List UInt8) → List UInt8} {t : Term} {c : UInt8}

theorem KeyStep.refl (h : t.Ready) {erases : Prop} (herases : erases) : t.KeyStep t erases :=
  ⟨h, le_rfl, iff_of_true rfl herases, fun _ _ hspells => hspells⟩

theorem Ready.typed (h : t.Ready) (hc : Printable c) (hlen : t.input.length < TERM_INPUT_MAX - 1)
    {erases : Prop} (herases : erases) :
    t.KeyStep { t with input := t.input ++ [c], screen := t.screen.capture c } erases := by
  have hput := h.tidy.capture hc
  have horigin : origin { t with input := t.input ++ [c], screen := t.screen.capture c } = t.origin := by
    simp only [origin, hput.pos_eq, List.length_append, List.length_singleton]
    omega
  refine ⟨⟨hput.tidy, ⟨?_, ?_⟩, h.history, h.saved⟩, horigin.ge, iff_of_true horigin herases, ?_⟩
  · rw [List.length_append, List.length_singleton]
    omega
  · intro d hd
    obtain hd | hd := List.mem_append.1 hd
    · exact h.input.2 d hd
    · rwa [List.mem_singleton.1 hd]
  · exact fun _ start hspells => hspells.capture h.tidy hlen hc

theorem Ready.erased (h : t.Ready) (hne : t.input ≠ []) :
    t.KeyStep { t with input := t.input.dropLast, screen := t.screen.eraseBack } (0 < t.screen.col) := by
  have hlen := List.length_pos_iff.2 hne
  have hpos := t.screen.pos_eraseBack
  have horigin : origin { t with input := t.input.dropLast, screen := t.screen.eraseBack } =
      t.origin + 1 - min 1 t.screen.col := by
    simp only [origin, List.length_dropLast]
    omega
  refine ⟨⟨h.tidy.eraseBack, ⟨?_, ?_⟩, h.history, h.saved⟩, ?_, ?_, ?_⟩
  · rw [List.length_dropLast]
    exact (Nat.sub_le _ _).trans_lt h.input.1
  · exact fun c hc => h.input.2 c (List.dropLast_subset _ hc)
  · rw [horigin]
    omega
  · rw [horigin]
    omega
  · exact fun hcol start hspells => hspells.eraseBack h.tidy hne hcol

theorem setInput_of_isLine {s : List UInt8} (hs : IsLine s) :
    t.setInput s = { t with input := s, screen := (Screen.eraseBack^[t.input.length] t.screen).puts s } := by
  rw [setInput, List.take_of_length_le (Nat.le_sub_one_of_lt hs.1)]

theorem Ready.set (h : t.Ready) {r : Recall} (hsaved : IsLine r.saved) (hline : IsLine r.line) :
    t.KeyStep (setInput { t with histBrowse := r.browse, savedInput := r.saved } r.line)
      (t.input.length ≤ t.screen.col) := by
  rw [setInput_of_isLine hline]
  have htidy := h.tidy.iterate_eraseBack t.input.length
  have hpos := t.screen.pos_iterate_eraseBack t.input.length
  obtain ⟨htidy', hpos'⟩ := htidy.puts hline.2
  refine ⟨⟨htidy', hline, h.history, hsaved⟩, ?_, ?_, fun hcol start hspells => ?_⟩
  · simp only [origin, hpos']
    omega
  · simp only [origin, hpos']
    omega
  · exact (hspells.iterate_eraseBack h.tidy hcol).puts htidy hline.2 hline.1

theorem Ready.setRecalled (h : t.Ready) {o : Option Recall} (ho : ∀ r ∈ o, IsLine r.saved ∧ IsLine r.line) :
    t.KeyStep (t.setRecalled o) (o.isSome → t.input.length ≤ t.screen.col) := by
  cases o with
  | none => exact .refl h (fun h => absurd h (by decide))
  | some r =>
    obtain ⟨hsaved, hline⟩ := ho r rfl
    have hset := h.set hsaved hline
    have hiff : ((some r).isSome → t.input.length ≤ t.screen.col) ↔ t.input.length ≤ t.screen.col :=
      forall_prop_of_true rfl
    rwa [← hiff] at hset

theorem Ready.recallUp (h : t.Ready) : ∀ r ∈ t.recallUp, IsLine r.saved ∧ IsLine r.line := by
  intro r hr
  rw [Term.recallUp] at hr
  split at hr
  · cases hr
  · split at hr
    · obtain rfl := Option.some.inj hr
      exact ⟨h.input, h.history _⟩
    · dsimp only at hr
      split at hr
      · cases hr
      · obtain rfl := Option.some.inj hr
        exact ⟨h.saved, h.history _⟩

theorem Ready.recallDown (h : t.Ready) : ∀ r ∈ t.recallDown, IsLine r.saved ∧ IsLine r.line := by
  intro r hr
  rw [Term.recallDown] at hr
  split at hr
  · cases hr
  · split at hr
    · obtain rfl := Option.some.inj hr
      exact ⟨h.saved, h.saved⟩
    · obtain rfl := Option.some.inj hr
      exact ⟨h.saved, h.history _⟩

theorem keyInput_of_printable (hc : Printable c) :
    t.keyInput commands c =
      if t.input.length < TERM_INPUT_MAX - 1 then
        { t with input := t.input ++ [c], screen := t.screen.capture c }
      else t := by
  have hne : ∀ d : UInt8, ¬Printable d → c ≠ d := fun d hd h => hd (h ▸ hc)
  have hhigh : ¬0x80 ≤ c := fun h => absurd (UInt8.le_trans h hc.2) (by decide)
  have hout : ¬(c < 32 ∨ 126 < c) := fun h => h.elim (UInt8.not_lt.2 hc.1) (UInt8.not_lt.2 hc.2)
  rw [keyInput, if_neg (hne 10 (by decide)), if_neg (hne 8 (by decide)), if_neg (hne _ (by decide)),
    if_neg (hne _ (by decide)), if_neg hhigh, if_neg hout]

theorem erases_of_printable (hc : Printable c) : t.Erases c := by
  have hne : ∀ d : UInt8, ¬Printable d → c ≠ d := fun d hd h => hd (h ▸ hc)
  exact ⟨fun h => absurd h (hne 8 (by decide)), fun h => absurd h (hne _ (by decide)),
    fun h => absurd h (hne _ (by decide))⟩

/-- Every key that edits the input keeps the origin exactly if it erases what it removes. -/
theorem Ready.keyInput (h : t.Ready) (hc : EditKey c) : t.KeyStep (t.keyInput commands c) (t.Erases c) := by
  obtain hprint | rfl | rfl | rfl := hc
  · rw [keyInput_of_printable hprint]
    split
    · rename_i hlen
      exact h.typed hprint hlen (erases_of_printable hprint)
    · exact .refl h (erases_of_printable hprint)
  · have herases : t.Erases 8 ↔ (t.input ≠ [] → 0 < t.screen.col) := by simp [Erases, KEY_UP, KEY_DOWN]
    rw [herases]
    by_cases hne : t.input = []
    · have hkey : t.keyInput commands 8 = t := if_neg (not_not.2 hne)
      rw [hkey]
      exact .refl h fun hne' => absurd hne hne'
    · have hkey : t.keyInput commands 8 =
        { t with input := t.input.dropLast, screen := t.screen.eraseBack } := if_pos hne
      rw [hkey, forall_prop_of_true hne]
      exact h.erased hne
  · have herases : t.Erases KEY_UP ↔ (t.recallUp.isSome → t.input.length ≤ t.screen.col) := by
      simp [Erases, KEY_UP, KEY_DOWN]
    rw [herases]
    exact h.setRecalled h.recallUp
  · have herases : t.Erases KEY_DOWN ↔ (t.recallDown.isSome → t.input.length ≤ t.screen.col) := by
      simp [Erases, KEY_UP, KEY_DOWN]
    rw [herases]
    exact h.setRecalled h.recallDown

/-! ## Runs -/

/-- Run: as long as every key erases as much as it removes, the screen spells the input. -/
theorem Ready.run_spells (h : t.Ready) {keys : List UInt8} (hkeys : ∀ c ∈ keys, EditKey c)
    (herases : ErasesAll commands t keys) {start : ℕ} (hspells : t.screen.Spells start t.input) :
    (keys.foldl (Term.keyInput commands) t).Ready ∧
      (keys.foldl (Term.keyInput commands) t).screen.Spells start
        (keys.foldl (Term.keyInput commands) t).input := by
  induction keys generalizing t with
  | nil => exact ⟨h, hspells⟩
  | cons c keys ih =>
    have hstep := @Ready.keyInput commands _ _ h (hkeys c List.mem_cons_self)
    exact ih hstep.ready (fun d hd => hkeys d (List.mem_cons_of_mem _ hd)) herases.2
      (hstep.spells herases.1 start hspells)

/-- Run: the origin does not decrease, and if it is what it was, every key has erased as much as it removed.
-/
theorem Ready.run_origin (h : t.Ready) {keys : List UInt8} (hkeys : ∀ c ∈ keys, EditKey c) :
    t.origin ≤ (keys.foldl (Term.keyInput commands) t).origin ∧
      ((keys.foldl (Term.keyInput commands) t).origin = t.origin → ErasesAll commands t keys) := by
  induction keys generalizing t with
  | nil => exact ⟨le_rfl, fun _ => trivial⟩
  | cons c keys ih =>
    have hstep := @Ready.keyInput commands _ _ h (hkeys c List.mem_cons_self)
    obtain ⟨hle, heq⟩ := ih hstep.ready fun d hd => hkeys d (List.mem_cons_of_mem _ hd)
    refine ⟨hstep.origin_le.trans hle, fun h => ?_⟩
    rw [List.foldl_cons] at h
    have hfirst := le_antisymm (h ▸ hle) hstep.origin_le
    exact ⟨hstep.origin_eq_iff.1 hfirst, heq (h.trans hfirst.symm)⟩

/-- Behind a fresh prompt, the screen shows the input after some keys exactly if each of them has erased what
it has removed from the input. -/
theorem terminal_shows_input_iff (commands : List (List UInt8) → List UInt8) (t : Term) (ht : t.Ready)
    (hfresh : t.input = []) (keys : List UInt8) (hkeys : ∀ c ∈ keys, EditKey c) :
    (keys.foldl (keyInput commands) t).Shows t.screen.pos ↔ ErasesAll commands t keys := by
  constructor
  · rintro ⟨hspells, -⟩
    refine (ht.run_origin hkeys).2 ?_
    rw [origin, origin, hspells.pos_eq, hfresh]
    simp
  · intro herases
    have hstart : t.screen.Spells t.screen.pos t.input := by
      rw [hfresh]
      refine ⟨?_, rfl, fun i hi => absurd hi (Nat.not_lt_zero i)⟩
      exact (Nat.mul_le_mul_right _ (Nat.le_add_right _ _)).trans (Nat.le_add_right _ _)
    obtain ⟨hready, hspells⟩ := ht.run_spells hkeys herases hstart
    exact ⟨hspells, fun c hcol hc => hready.tidy.blank_row hcol hc⟩

/-! ## Sessions -/

theorem tidy_empty (scrolled : ℕ) : Screen.Tidy ⟨fun _ _ => 0, 0, 0, scrolled⟩ :=
  ⟨Nat.zero_lt_succ _, Nat.zero_le _, fun _ _ _ => .inl rfl⟩

theorem Ready.output (h : t.Ready) {l : List UInt8} (hl : 8 ∉ l) :
    Ready { t with screen := t.screen.puts l } :=
  ⟨h.tidy.puts_output hl, h.input, h.history, h.saved⟩

theorem Ready.showPrompt (h : t.Ready) : t.showPrompt.Ready := h.output (by decide)

theorem Ready.histAdd (h : t.Ready) {line : List UInt8} (hline : IsLine line) : (t.histAdd line).Ready := by
  rw [Term.histAdd]
  split
  · exact h
  split
  · exact h
  refine ⟨h.tidy, h.input, fun i => ?_, h.saved⟩
  dsimp only
  by_cases hi : i = t.histWrite
  · rw [hi, Function.update_self, List.take_of_length_le (Nat.le_sub_one_of_lt hline.1)]
    exact hline
  · rw [Function.update_of_ne hi]
    exact h.history i

theorem Ready.execute (h : t.Ready) (hout : ∀ args, 8 ∉ commands args) (line : List UInt8) :
    (t.execute commands line).Ready := by
  rw [Term.execute]
  split
  · exact h.showPrompt
  split
  · exact (h.output (by decide)).showPrompt
  split
  · have hclear : Ready { t with screen := ⟨fun _ _ => 0, 0, 0, t.screen.scrolled⟩ } :=
      ⟨tidy_empty _, h.input, h.history, h.saved⟩
    exact hclear.showPrompt
  split
  · exact h.showPrompt
  · exact (h.output (hout _)).showPrompt

theorem Ready.enter (h : t.Ready) (hout : ∀ args, 8 ∉ commands args) : (t.keyInput commands 10).Ready := by
  have hline : Ready { t with screen := t.screen.capture 10 } :=
    ⟨h.tidy.newLine, h.input, h.history, h.saved⟩
  have hadd := hline.histAdd h.input
  have hready : Ready { Term.histAdd { t with screen := t.screen.capture 10 } t.input with
      histBrowse := none, input := [] } :=
    ⟨hadd.tidy, isLine_nil, hadd.history, hadd.saved⟩
  exact hready.execute hout t.input

theorem Ready.anyKey (h : t.Ready) (hout : ∀ args, 8 ∉ commands args) (c : UInt8) :
    (t.keyInput commands c).Ready := by
  by_cases hedit : EditKey c
  · exact (h.keyInput hedit).ready
  by_cases henter : c = 10
  · rw [henter]
    exact h.enter hout
  -- The other keys are ignored.
  rw [EditKey, not_or, not_or, not_or] at hedit
  obtain ⟨hprint, h8, hup, hdown⟩ := hedit
  have hkey : t.keyInput commands c = t := by
    rw [Term.keyInput, if_neg henter, if_neg h8, if_neg hup, if_neg hdown]
    split
    · rfl
    split
    · rfl
    · rename_i hin
      rw [not_or, UInt8.not_lt, UInt8.not_lt] at hin
      exact absurd hin hprint
  rwa [hkey]

/-- The terminal is ready after any keys, if no command prints a backspace. -/
theorem ready_session (hout : ∀ args, 8 ∉ commands args) (keys : List UInt8) :
    (keys.foldl (keyInput commands) opened).Ready := by
  have hopened : opened.Ready := by
    have hinit : Ready ⟨⟨fun _ _ => 0, 0, 0, 0⟩, [], fun _ => [], 0, 0, none, []⟩ :=
      ⟨tidy_empty 0, isLine_nil, fun _ => isLine_nil, isLine_nil⟩
    exact (hinit.output (by decide)).showPrompt
  exact List.foldlRecOn keys _ hopened fun t h c _ => h.anyKey hout c

/-- Commands that print nothing. -/
def quiet : List (List UInt8) → List UInt8 := fun _ => []

/-- `b` and a backspace behind the prompt after the command `a`. -/
theorem terminal_shows_input_after_command :
    Shows ([98, 8].foldl (keyInput quiet) ([97, 10].foldl (keyInput quiet) opened))
      (Screen.pos (Term.screen ([97, 10].foldl (keyInput quiet) opened))) :=
  (terminal_shows_input_iff quiet _ (ready_session (fun _ => List.not_mem_nil) [97, 10]) (by decide) [98, 8]
    (by decide +kernel)).2 (by simp only [ErasesAll, Erases]; decide)

/-- 35 characters and two backspaces. -/
def wrapped : List UInt8 := List.replicate 35 97 ++ [8, 8]

/-- Then the input has 33 characters, but 34 cells are before the cursor. -/
theorem backspace_stays_in_row :
    (∀ c ∈ wrapped, EditKey c) ∧
      (Term.input (wrapped.foldl (keyInput quiet) opened)).length = 33 ∧
      Screen.pos (Term.screen (wrapped.foldl (keyInput quiet) opened)) = opened.screen.pos + 34 ∧
      ¬Shows (wrapped.foldl (keyInput quiet) opened) opened.screen.pos := by
  have hlen : (Term.input (wrapped.foldl (keyInput quiet) opened)).length = 33 := by decide +kernel
  have hpos : Screen.pos (Term.screen (wrapped.foldl (keyInput quiet) opened)) =
      opened.screen.pos + 34 := by decide +kernel
  refine ⟨by decide +kernel, hlen, hpos, fun h => ?_⟩
  have hpos' := h.1.pos_eq
  omega

end Term

end PlantOS.Gui
