import PlantOS.Shell.EditorRows

/-!
# The invariant of the editor

Every key keeps the invariant of the editor, and all its stores are inside the array of lines. Some keys leave
the cursor behind the end of its line or out of the window; `editor_refresh` brings it back.
-/

namespace PlantOS.Shell.Editor

open Buffer

/-- What a key leaves to `editor_refresh`. -/
structure Ready (e : Editor) (text : List (List UInt8)) : Prop where
  shows_text : Shows e text
  cy_nonneg : 0 ≤ e.cy
  cy_lt : e.cy < text.length
  cx_nonneg : 0 ≤ e.cx
  scroll_nonneg : 0 ≤ e.scrollY

/-- The cursor is in the line `u ++ v`, between `u` and `v`. -/
structure At (e : Editor) (A : List (List UInt8)) (u v : List UInt8) (B : List (List UInt8)) : Prop where
  shows_text : Shows e (A ++ (u ++ v) :: B)
  cy : e.cy = A.length
  cx : e.cx = u.length

section

variable {e : Editor} {text A B : List (List UInt8)} {u v : List UInt8}

theorem Shows.congr {e' : Editor} (h : Shows e text) (hlines : e'.lines = e.lines)
    (hcount : e'.numLines = e.numLines) : Shows e' text :=
  ⟨hcount.trans h.count, h.fits, fun i l hi => hlines ▸ h.rows i l hi⟩

theorem Shows.terminated (h : Shows e text) {i : ℤ} (h0 : 0 ≤ i) (hi : i < e.numLines) :
    ∃ j, 0 ≤ j ∧ j < 256 ∧ e.lines i j = 0 := by
  obtain ⟨k, rfl⟩ := Int.eq_ofNat_of_zero_le h0
  have hk : k < text.length := by have := h.count; omega
  obtain ⟨hrow, hlen⟩ := h.rows k _ (List.getElem?_eq_getElem hk)
  refine ⟨text[k].length, by omega, by omega, ?_⟩
  have := hrow.nul
  rwa [Int.zero_add] at this

/-- Lines that are terminated hold a text. -/
theorem exists_shows (hle : e.numLines ≤ 512) (h1 : 1 ≤ e.numLines)
    (h : ∀ i, 0 ≤ i → i < e.numLines → ∃ j, 0 ≤ j ∧ j < 256 ∧ e.lines i j = 0) : ∃ text, Shows e text := by
  obtain ⟨n, hn⟩ := Int.eq_ofNat_of_zero_le (Int.le_trans (by decide) h1)
  have hrow : ∀ i : Fin n, ∃ l, Holds (e.lines i) 0 l ∧ l.length ≤ 255 := by
    intro i
    obtain ⟨j, h0, hj, hnul⟩ := h i (by omega) (by omega)
    obtain ⟨j, rfl⟩ := Int.eq_ofNat_of_zero_le h0
    rw [← Int.zero_add (j : ℤ)] at hnul
    obtain ⟨l, hl, hlen⟩ := exists_holds hnul
    exact ⟨l, hl, by omega⟩
  choose row hrow using hrow
  refine ⟨List.ofFn row, by simpa using hn, by simp; omega, fun i l hi => ?_⟩
  obtain ⟨hlt, rfl⟩ := List.getElem?_eq_some_iff.1 hi
  rw [List.getElem_ofFn]
  rw [List.length_ofFn] at hlt
  exact hrow ⟨i, hlt⟩

/-- A text is split at the line of the cursor. -/
theorem exists_line {y : ℤ} (h0 : 0 ≤ y) (hlt : y < text.length) :
    ∃ A l B, text = A ++ l :: B ∧ y = (A.length : ℤ) := by
  obtain ⟨k, rfl⟩ := Int.eq_ofNat_of_zero_le h0
  have hk : k < text.length := by omega
  refine ⟨text.take k, text[k], text.drop (k + 1), ?_, ?_⟩
  · rw [List.getElem_cons_drop, List.take_append_drop]
  · rw [List.length_take_of_le (Nat.le_of_lt hk)]

/-- The lines before the cursor, the two parts of its line, and the lines behind. -/
theorem Inv.exists_at (h : Inv e) : ∃ A u v B, At e A u v B := by
  obtain ⟨text, htext⟩ := exists_shows h.le_max h.one_le h.terminated
  have hcy := h.cy_lt
  rw [htext.count] at hcy
  obtain ⟨A, l, B, rfl, hA⟩ := exists_line h.cy_nonneg hcy
  obtain ⟨c, hc⟩ := Int.eq_ofNat_of_zero_le h.cx_nonneg
  have hcx := h.cx_le
  rw [hA, htext.lineLen] at hcx
  have hle : c ≤ l.length := by omega
  rw [← List.take_append_drop c l] at htext
  refine ⟨_, _, _, _, htext, hA, ?_⟩
  rwa [List.length_take_of_le hle]

theorem At.ready (h : At e A u v B) (hscroll : 0 ≤ e.scrollY) : Ready e (A ++ (u ++ v) :: B) := by
  refine ⟨h.shows_text, ?_, ?_, ?_, hscroll⟩
  · rw [h.cy]; omega
  · rw [h.cy, List.length_append, List.length_cons]; omega
  · rw [h.cx]; omega

/-- `editor_refresh` establishes the invariant. -/
theorem Ready.refresh (h : Ready e text) : Inv e.refresh := by
  obtain ⟨hshows, hcy0, hcy, hcx0, hscroll⟩ := h
  have hcount := hshows.count
  have hfits := hshows.fits
  have hlen : 0 ≤ e.lineLen e.cy := by
    obtain ⟨A, l, B, rfl, hA⟩ := exists_line hcy0 hcy
    rw [hA, hshows.lineLen]
    omega
  refine ⟨?_, ?_, hcy0, ?_, fun i h0 hi => hshows.terminated h0 hi, ?_, ?_, ?_, ?_, ?_⟩ <;>
    simp only [Editor.refresh, edTextRows]
  · omega
  · omega
  · omega
  · split <;> omega
  · show (if e.lineLen e.cy < e.cx then e.lineLen e.cy else e.cx) ≤ e.lineLen e.cy
    split <;> omega
  · split <;> split <;> omega
  · split <;> split <;> omega
  · split <;> split <;> omega

/-! ## Keys that move the cursor -/

theorem Ready.saveKey (h : Ready e text) (saved : Bool) : Ready (e.saveKey saved) text := by
  rw [Editor.saveKey]
  split
  · exact ⟨h.shows_text.congr rfl rfl, h.cy_nonneg, h.cy_lt, h.cx_nonneg, h.scroll_nonneg⟩
  · exact h

/-- A new place for the cursor. -/
theorem Ready.moved (h : Ready e text) {x y : ℤ} (hx : 0 ≤ x) (h0 : 0 ≤ y) (hy : y < text.length) :
    Ready { e with cx := x, cy := y } text :=
  ⟨h.shows_text.congr rfl rfl, h0, hy, hx, h.scroll_nonneg⟩

theorem lineLen_nonneg (h : Shows e text) (y : ℤ) : 0 ≤ e.lineLen y := by
  by_cases hy : y < 0 ∨ e.numLines ≤ y
  · have hzero : e.lineLen y = 0 := if_pos hy
    exact Int.le_of_eq hzero.symm
  · obtain ⟨A, l, B, rfl, rfl⟩ : ∃ A l B, text = A ++ l :: B ∧ y = (A.length : ℤ) :=
      exists_line (by omega) (by have := h.count; omega)
    rw [h.lineLen]
    omega

theorem Ready.upKey (h : Ready e text) : Ready e.upKey text := by
  have := h.cy_lt
  rw [Editor.upKey]
  split
  · exact h.moved h.cx_nonneg (by omega) (by omega)
  · exact h

theorem Ready.downKey (h : Ready e text) : Ready e.downKey text := by
  have := h.shows_text.count
  have := h.cy_nonneg
  rw [Editor.downKey]
  split
  · exact h.moved h.cx_nonneg (by omega) (by omega)
  · exact h

theorem Ready.leftKey (h : Ready e text) : Ready e.leftKey text := by
  have := h.cy_lt
  rw [Editor.leftKey]
  split
  · exact h.moved (by omega) h.cy_nonneg h.cy_lt
  split
  · exact h.moved (lineLen_nonneg h.shows_text _) (by omega) (by omega)
  · exact h

theorem Ready.rightKey (h : Ready e text) : Ready e.rightKey text := by
  have := h.shows_text.count
  have := h.cy_nonneg
  have := h.cx_nonneg
  rw [Editor.rightKey]
  split
  · exact h.moved (by omega) h.cy_nonneg h.cy_lt
  split
  · exact h.moved (by omega) (by omega) (by omega)
  · exact h

theorem Ready.pageUpKey (h : Ready e text) : Ready e.pageUpKey text := by
  have := h.cy_lt
  have := h.cy_nonneg
  rw [Editor.pageUpKey, edTextRows]
  split
  · exact h.moved h.cx_nonneg (by omega) (by omega)
  · exact h.moved h.cx_nonneg (by omega) (by omega)

theorem Ready.pageDownKey (h : Ready e text) : Ready e.pageDownKey text := by
  have := h.shows_text.count
  have := h.cy_lt
  have := h.cy_nonneg
  rw [Editor.pageDownKey, edTextRows]
  split
  · exact h.moved h.cx_nonneg (by omega) (by omega)
  · exact h.moved h.cx_nonneg (by omega) (by omega)

/-! ## Keys that change the text -/

/-- The key has a result, with the cursor between `u` and `v`. -/
def Goes (e : Editor) (r : Option Editor) (A : List (List UInt8)) (u v : List UInt8)
    (B : List (List UInt8)) : Prop :=
  ∃ e', r = some e' ∧ At e' A u v B ∧ e'.scrollY = e.scrollY

/-- The end of a key that has changed the text: a new place for the cursor. -/
theorem Yields.goes {r : Option Editor} {f : Editor → Editor} (hr : Yields e r (A ++ (u ++ v) :: B))
    (hf : ∀ e', (f e').lines = e'.lines ∧ (f e').numLines = e'.numLines ∧ (f e').scrollY = e'.scrollY)
    (hcursor : ∀ e', e'.cx = e.cx → e'.cy = e.cy → (f e').cx = u.length ∧ (f e').cy = A.length) :
    Goes e (r >>= fun e => some (f e)) A u v B := by
  obtain ⟨e', rfl, hshows, hcx, hcy, hscroll⟩ := hr
  obtain ⟨hlines, hcount, hscroll'⟩ := hf e'
  obtain ⟨hx, hy⟩ := hcursor e' hcx hcy
  exact ⟨f e', rfl, ⟨hshows.congr hlines hcount, hy, hx⟩, hscroll'.trans hscroll⟩

theorem At.same (h : At e A u v B) : Goes e (some e) A u v B := ⟨e, rfl, h, rfl⟩

theorem At.lineLen (h : At e A u v B) : e.lineLen e.cy = u.length + v.length := by
  rw [h.cy, h.shows_text.lineLen, List.length_append]
  omega

/-- Enter splits the line at the cursor. -/
theorem At.enterKey (h : At e A u v B) (hlen : e.numLines < 512) : Goes e e.enterKey (A ++ [u]) [] v B := by
  have hpos : ((A ++ [u ++ v]).length : ℤ) = e.cy + 1 := by rw [h.cy]; simp
  have hshows : Shows e ((A ++ [u ++ v]) ++ B) := by simpa using h.shows_text
  have hcount := hshows.count
  have hinsert := hshows.insertLine (by omega)
  rw [hpos, List.append_assoc, List.singleton_append] at hinsert
  have hsplit := hinsert.bind (f := fun e' => e'.splitLine (u ++ v).length) fun e' hs hcx hcy =>
    hs.splitLine (hcy.trans h.cy) (hcx.trans h.cx)
  have hlineLen : e.lineLen e.cy = (u ++ v).length := by rw [h.lineLen, List.length_append]; rfl
  have htext : A ++ u :: v :: B = (A ++ [u]) ++ ([] ++ v) :: B := by simp
  rw [htext] at hsplit
  have hgoes := hsplit.goes (f := fun e' => { e' with cy := e'.cy + 1, cx := 0, modified := true })
    (fun _ => ⟨rfl, rfl, rfl⟩) fun e' _ hcy => ⟨rfl, by dsimp only; rw [hcy, h.cy]; simp⟩
  rwa [bind_assoc, ← hlineLen] at hgoes

theorem At.backspaceKey_char {c : UInt8} (h : At e A (u ++ [c]) v B) : Goes e e.backspaceKey A u v B := by
  have hcx := h.cx
  rw [List.length_append, List.length_singleton] at hcx
  have hshows : Shows e (A ++ (u ++ c :: v) :: B) := by simpa using h.shows_text
  have hdelete := hshows.deleteCharAt
  have hx : (u.length : ℤ) = e.cx - 1 := by omega
  rw [← h.cy, hx] at hdelete
  rw [Editor.backspaceKey, if_pos (by omega)]
  exact hdelete.goes (fun _ => ⟨rfl, rfl, rfl⟩) fun e' hcx' hcy' =>
    ⟨by dsimp only; omega, hcy'.trans h.cy⟩

/-- At the start of a line it is joined with the line before, unless the two are too long. -/
theorem At.backspaceKey_line {p : List UInt8} (h : At e (A ++ [p]) [] v B) :
    (p.length + v.length < 255 → Goes e e.backspaceKey A p v B) ∧
      (255 ≤ p.length + v.length → e.backspaceKey = some e) := by
  have hcx : e.cx = 0 := h.cx
  have hcy := h.cy
  rw [List.length_append, List.length_singleton] at hcy
  have hshows : Shows e (A ++ p :: v :: B) := by simpa using h.shows_text
  have hprev : e.lineLen (e.cy - 1) = p.length := by
    rw [← hshows.lineLen]
    congr 1
    omega
  have hcur : e.lineLen e.cy = v.length := by rw [h.lineLen]; simp
  rw [Editor.backspaceKey, if_neg (by omega), if_pos (by omega)]
  dsimp only
  rw [hprev, hcur, edLineMax]
  constructor
  · intro hlen
    rw [if_pos (by omega)]
    have happend := hshows.appendLine (by omega)
    have hA : (A.length : ℤ) = e.cy - 1 := by omega
    rw [hA, Int.sub_add_cancel] at happend
    have hdelete := happend.bind (f := fun e' => e'.deleteLine e'.cy) (t := A ++ (p ++ v) :: B)
      fun e' hs _ hcy' => by
        have hs' : Shows e' ((A ++ [p ++ v]) ++ v :: B) := by simpa using hs
        have := hs'.deleteLine (by simp)
        rw [List.append_assoc, List.singleton_append] at this
        rw [hcy', h.cy]
        simpa using this
    have hgoes := hdelete.goes
      (f := fun e' => { e' with cy := e'.cy - 1, cx := (p.length : ℤ), modified := true })
      (fun _ => ⟨rfl, rfl, rfl⟩) fun e' _ hcy' => ⟨rfl, by dsimp only; omega⟩
    rwa [bind_assoc] at hgoes
  · intro hlen
    rw [if_neg (by omega)]

theorem At.backspaceKey_start (h : At e [] [] v B) : e.backspaceKey = some e := by
  have hcx : e.cx = 0 := h.cx
  have hcy : e.cy = 0 := h.cy
  rw [Editor.backspaceKey, if_neg (by omega), if_neg (by omega)]

theorem At.deleteKey_char {c : UInt8} (h : At e A u (c :: v) B) : Goes e e.deleteKey A u v B := by
  have hlen := h.lineLen
  have hcx := h.cx
  rw [List.length_cons] at hlen
  have hdelete := h.shows_text.deleteCharAt
  rw [← h.cy, ← h.cx] at hdelete
  rw [Editor.deleteKey, if_pos (by omega)]
  exact hdelete.goes (fun _ => ⟨rfl, rfl, rfl⟩) fun e' hcx' hcy' => ⟨hcx'.trans h.cx, hcy'.trans h.cy⟩

theorem At.deleteKey_line (h : At e A u [] B) :
    ∃ v B', Goes e e.deleteKey A u v B' := by
  have hlen := h.lineLen
  have hcx := h.cx
  have hcy := h.cy
  have hcount := h.shows_text.count
  rw [List.length_nil] at hlen
  rw [List.append_nil, List.length_append, List.length_cons] at hcount
  rw [Editor.deleteKey, if_neg (by omega)]
  cases B with
  | nil =>
    rw [List.length_nil] at hcount
    rw [if_neg (by omega)]
    exact ⟨_, _, h.same⟩
  | cons n B =>
    rw [List.length_cons] at hcount
    have hshows : Shows e (A ++ u :: n :: B) := by simpa using h.shows_text
    have hnext : e.lineLen (e.cy + 1) = n.length := by
      have hshows' : Shows e ((A ++ [u]) ++ n :: B) := by simpa using hshows
      rw [← hshows'.lineLen, hcy]
      simp
    rw [if_pos (by omega), hlen, hnext, edLineMax]
    split
    · have happend := hshows.appendLine (by omega)
      rw [← hcy] at happend
      have hdelete := happend.bind (f := fun e' => e'.deleteLine (e'.cy + 1)) (t := A ++ (u ++ n) :: B)
        fun e' hs _ hcy' => by
          have hs' : Shows e' ((A ++ [u ++ n]) ++ n :: B) := by simpa using hs
          have := hs'.deleteLine (by simp)
          rw [List.append_assoc, List.singleton_append] at this
          rw [hcy', hcy]
          simpa using this
      have hgoes := hdelete.goes (f := fun e' => { e' with modified := true })
        (fun _ => ⟨rfl, rfl, rfl⟩) fun e' hcx' hcy' => ⟨hcx'.trans hcx, hcy'.trans hcy⟩
      rw [bind_assoc] at hgoes
      exact ⟨_, _, hgoes⟩
    · exact ⟨_, _, h.same⟩

theorem At.insertChar {c : UInt8} (h : At e A u v B) (hc : c ≠ 0) (hlen : u.length + v.length < 255) :
    Yields e (e.insertCharAt e.cy e.cx c) (A ++ ((u ++ [c]) ++ v) :: B) := by
  rw [h.cy, h.cx, List.append_assoc, List.singleton_append]
  exact h.shows_text.insertCharAt hc (by rw [List.length_append]; exact hlen)

theorem At.tabLoop (n : ℕ) (h : At e A u v B) : ∃ u', Goes e (tabLoop n e) A u' v B := by
  induction n generalizing e u with
  | zero => exact ⟨u, h.same⟩
  | succ n ih =>
    rw [Editor.tabLoop, h.lineLen, edLineMax]
    split
    · obtain ⟨e', hres, hat, hscroll⟩ := (h.insertChar (by decide : (32 : UInt8) ≠ 0) (by omega)).goes
        (f := fun e' => { e' with cx := e'.cx + 1 }) (fun _ => ⟨rfl, rfl, rfl⟩)
        fun e' hcx hcy => ⟨by dsimp only; rw [hcx, h.cx]; simp, hcy.trans h.cy⟩
      obtain ⟨u', e'', hres', hat', hscroll'⟩ := ih hat
      refine ⟨u', e'', ?_, hat', hscroll'.trans hscroll⟩
      have hbind := congrArg (Option.bind · (Editor.tabLoop n)) hres
      rw [Option.bind_eq_bind, Option.bind_assoc] at hbind
      exact hbind.trans hres'
    · exact ih h

theorem At.tabKey (h : At e A u v B) : ∃ u', Goes e e.tabKey A u' v B := by
  obtain ⟨u', e', hres, hat, hscroll⟩ := h.tabLoop (4 - e.cx.tmod 4).toNat
  refine ⟨u', { e' with modified := true }, ?_, ⟨hat.shows_text.congr rfl rfl, hat.cy, hat.cx⟩, hscroll⟩
  rw [Editor.tabKey, hres]
  rfl

/-- In a full line the character is not inserted, but the cursor moves. -/
theorem At.charKey {c : UInt8} (h : At e A u v B) (hc : c ≠ 0) (hscroll : 0 ≤ e.scrollY) :
    ∃ e' text, e.charKey c = some e' ∧ Ready e' text := by
  by_cases hlen : u.length + v.length < 255
  · obtain ⟨e', hres, hat, hscroll'⟩ := (h.insertChar hc hlen).goes
      (f := fun e' => { e' with cx := e'.cx + 1, modified := true }) (fun _ => ⟨rfl, rfl, rfl⟩)
      fun e' hcx hcy => ⟨by dsimp only; rw [hcx, h.cx]; simp, hcy.trans h.cy⟩
    exact ⟨e', _, hres, hat.ready (by omega)⟩
  · have hready := h.ready hscroll
    refine ⟨{ e with cx := e.cx + 1, modified := true }, _, ?_, hready.shows_text.congr rfl rfl,
      hready.cy_nonneg, hready.cy_lt, by have := hready.cx_nonneg; dsimp only; omega, hscroll⟩
    rw [Editor.charKey, insertCharAt, h.lineLen, edLineMax, if_pos (by omega)]
    rfl

/-! ## The handler -/

/-- There is a result, and it meets the invariant. -/
def Kept (r : Option Editor) : Prop := ∃ e', r = some e' ∧ Inv e'

theorem Ready.kept (h : Ready e text) : Kept (some e.refresh) := ⟨_, rfl, h.refresh⟩

theorem Goes.kept {r : Option Editor} (h : Goes e r A u v B) (hscroll : 0 ≤ e.scrollY) :
    Kept (r.map refresh) := by
  obtain ⟨e', rfl, hat, hscroll'⟩ := h
  exact ⟨_, rfl, (hat.ready (by omega)).refresh⟩

/-- Step: delete. -/
theorem Inv.deleteKey (h : Inv e) : Kept (e.deleteKey.map refresh) := by
  obtain ⟨A, u, v, B, hat⟩ := h.exists_at
  cases v with
  | nil =>
    obtain ⟨v, B', hgoes⟩ := hat.deleteKey_line
    exact hgoes.kept h.scroll_nonneg
  | cons c v => exact hat.deleteKey_char.kept h.scroll_nonneg

/-- Step: backspace. -/
theorem Inv.backspaceKey (h : Inv e) : Kept (e.backspaceKey.map refresh) := by
  obtain ⟨A, u, v, B, hat⟩ := h.exists_at
  have hsame : e.backspaceKey = some e → Kept (e.backspaceKey.map refresh) := fun heq => by
    rw [heq]
    exact (hat.ready h.scroll_nonneg).kept
  obtain rfl | ⟨u, c, rfl⟩ := List.eq_nil_or_concat' u
  · obtain rfl | ⟨A, p, rfl⟩ := List.eq_nil_or_concat' A
    · exact hsame hat.backspaceKey_start
    · obtain ⟨hjoin, hlong⟩ := hat.backspaceKey_line
      obtain hlen | hlen := Nat.lt_or_ge (p.length + v.length) 255
      · exact (hjoin hlen).kept h.scroll_nonneg
      · exact hsame (hlong hlen)
  · exact hat.backspaceKey_char.kept h.scroll_nonneg

/-- Step: a character. -/
theorem Inv.charKey (h : Inv e) {c : UInt8} (hc : 32 ≤ c) : Kept ((e.charKey c).map refresh) := by
  obtain ⟨A, u, v, B, hat⟩ := h.exists_at
  obtain ⟨e', text, hres, hready⟩ := hat.charKey (c := c) (by rintro rfl; exact absurd hc (by decide))
    h.scroll_nonneg
  rw [hres]
  exact hready.kept

/-- Every key keeps the invariant. -/
theorem Inv.keyHandler (h : Inv e) (saved : Bool) (c : UInt8) : Kept (e.keyHandler saved c) := by
  obtain ⟨A, u, v, B, hat⟩ := h.exists_at
  have hready := hat.ready h.scroll_nonneg
  have hsame : Kept (some e) := ⟨e, rfl, h⟩
  rw [Editor.keyHandler]
  refine iteInduction (fun _ => ⟨_, rfl, { h with }⟩) fun _ => ?_
  refine iteInduction (fun _ => (hready.saveKey saved).kept) fun _ => ?_
  refine iteInduction (fun _ => hready.upKey.kept) fun _ => ?_
  refine iteInduction (fun _ => hready.downKey.kept) fun _ => ?_
  refine iteInduction (fun _ => hready.leftKey.kept) fun _ => ?_
  refine iteInduction (fun _ => hready.rightKey.kept) fun _ => ?_
  refine iteInduction (fun _ => (hready.moved (Int.le_refl 0) hready.cy_nonneg hready.cy_lt).kept) fun _ => ?_
  refine iteInduction
    (fun _ => (hready.moved (lineLen_nonneg hready.shows_text _) hready.cy_nonneg hready.cy_lt).kept)
    fun _ => ?_
  refine iteInduction (fun _ => hready.pageUpKey.kept) fun _ => ?_
  refine iteInduction (fun _ => hready.pageDownKey.kept) fun _ => ?_
  refine iteInduction (fun _ => h.deleteKey) fun _ => ?_
  refine iteInduction (fun _ => hsame) fun _ => ?_
  refine iteInduction (fun _ => ?_) fun _ => ?_
  · rw [edMaxLines]
    refine iteInduction (fun _ => hsame) fun hlen => ?_
    exact (hat.enterKey (by omega)).kept h.scroll_nonneg
  refine iteInduction (fun _ => h.backspaceKey) fun _ => ?_
  refine iteInduction (fun _ => ?_) fun _ => ?_
  · obtain ⟨u', hgoes⟩ := hat.tabKey
    exact hgoes.kept h.scroll_nonneg
  exact iteInduction (fun hc => h.charKey hc.1) fun _ => hsame

/-! ## Loading -/

/-- Opening a file, or none, gives an editor in order. -/
theorem openFile_inv (e : Editor) (file : Option (List UInt8)) : Kept (e.openFile file) := by
  obtain ⟨e', rows, cur, hload, hloading, -⟩ := e.loadFile_loading file
  have hready : Ready { e' with cx := 0, cy := 0, scrollY := 0, modified := false, running := true } _ :=
    ⟨hloading.shows_text.congr rfl rfl, Int.le_refl 0, by simp, Int.le_refl 0, Int.le_refl 0⟩
  rw [openFile, hload]
  exact hready.kept

end

/-- In every session each key has a result, so that its stores are inside the array of lines, and the result
meets the invariant. -/
theorem editor_session_inv (e : Editor) (file : Option (List UInt8)) (keys : List (UInt8 × Bool)) :
    ∃ e', e.session file keys = some e' ∧ Inv e' := by
  obtain ⟨e₁, hopen, hinv⟩ := openFile_inv e file
  rw [session, hopen, Option.bind_eq_bind, Option.bind_some]
  clear hopen
  induction keys generalizing e₁ with
  | nil => exact ⟨e₁, rfl, hinv⟩
  | cons key keys ih =>
    obtain ⟨e₂, hkey, hinv⟩ := hinv.keyHandler key.2 key.1
    rw [List.foldlM_cons, hkey]
    exact ih e₂ hinv

end PlantOS.Shell.Editor
