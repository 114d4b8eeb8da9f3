import PlantOS.Common.Slice
import PlantOS.Common.Word

/-!
# Loading a script

Model of the part of `cmd_run` that reads a file and splits it into the rows of `ctx.lines`. The memory is
that of the static `struct script_ctx` and of what lies around it, by the offset from its start: 128 rows of
256 bytes, and behind them `line_count`, `pc` and `break_flag`.

A new row is started only if there are fewer than 128, but the characters of a line are stored at
`ctx.lines[ctx.line_count]` in any case. So the loader stays inside the table exactly if nothing but line ends
follows the first 128 lines; `script_line_129` is a file whose line 129 overwrites `line_count`.

Reference: `shell/commands.c`.
-/

namespace PlantOS.Shell

open Word

/-! ## The loop over the text -/

/-- The `int` at `a`. -/
@[irreducible] def int32At (mem : ℤ → UInt8) (a : ℤ) : ℤ :=
  toInt32 (Bytes.leNat ((List.range 4).map fun i : ℕ => mem (a + i)))

/-- Store an `int` at `a`. -/
def setInt32 (mem : ℤ → UInt8) (a v : ℤ) : ℤ → UInt8 := fun x =>
  if a ≤ x ∧ x < a + 4 then (Bytes.toLe 4 (wrap 32 v)).getD (x - a).toNat 0 else mem x

/-- `SCRIPT_MAX_LINES`. -/
def scriptMaxLines : ℕ := 128

/-- `SCRIPT_LINE_MAX`. -/
def scriptLineMax : ℕ := 256

/-- The offset of `line_count`. -/
def lineCountOff : ℤ := scriptMaxLines * scriptLineMax

/-- The variables of the loop. `stores` are the rows and columns of the stores so far. -/
structure ScriptLoad where
  mem : ℤ → UInt8
  li : ℕ
  stores : List (ℤ × ℕ)

/-- `ctx.line_count`. -/
def ScriptLoad.lineCount (s : ScriptLoad) : ℤ := int32At s.mem lineCountOff

/-- `ctx.lines[ctx.line_count][li] = c`. -/
def ScriptLoad.store (s : ScriptLoad) (c : UInt8) : ScriptLoad :=
  { s with
    mem := Function.update s.mem (s.lineCount * scriptLineMax + s.li) c
    stores := (s.lineCount, s.li) :: s.stores }

/-- `script_buf[i] == '\n' || script_buf[i] == '\0'`. -/
def isLineEnd (c : UInt8) : Bool := c = 10 || c = 0

/-- One round of the loop. -/
def scriptChar (s : ScriptLoad) (c : UInt8) : ScriptLoad :=
  if isLineEnd c then
    if s.lineCount < scriptMaxLines then
      let s := s.store 0
      { s with mem := setInt32 s.mem lineCountOff (s.lineCount + 1), li := 0 }
    else { s with li := 0 }
  else if s.li < scriptLineMax - 1 then { s.store c with li := s.li + 1 }
  else s

/-- The loop that reads the file, from the offset `total` on: the number of bytes in `script_buf`. A call of
`vfs_read` gives at most `chunk total + 1` bytes. -/
def scriptRead (chunk : ℕ → ℕ) (file : List UInt8) (total : ℕ) : ℕ :=
  let n := min (min (chunk total + 1) (8191 - total)) (file.length - total)
  if total < 8191 ∧ 0 < n then scriptRead chunk file (total + n) else total
termination_by 8191 - total

/-- `cmd_run` up to `script_execute`, on the memory `mem`. -/
def scriptLoad (mem : ℤ → UInt8) (chunk : ℕ → ℕ) (file : List UInt8) : ScriptLoad :=
  let text := file.take (scriptRead chunk file 0)
  let mem := setInt32 (setInt32 (setInt32 mem lineCountOff 0) (lineCountOff + 4) 0) (lineCountOff + 8) 0
  (text ++ [0]).foldl scriptChar ⟨mem, 0, []⟩

/-- The text of a script: what is read of the file, as lines. -/
def scriptLines (file : List UInt8) : List (List UInt8) := (file.take 8191).splitOnP isLineEnd

/-- The row `k` holds the line, cut to 255 characters, and a NUL. -/
def RowHolds (mem : ℤ → UInt8) (k : ℕ) (line : List UInt8) : Prop :=
  ∀ j ≤ (line.take 255).length, mem (k * scriptLineMax + j) = (line.take 255).getD j 0

/-- Every store was inside the table, and the rows hold the first lines. -/
structure ScriptLoaded (s : ScriptLoad) (lines : List (List UInt8)) : Prop where
  inside : ∀ st ∈ s.stores, 0 ≤ st.1 ∧ st.1 < scriptMaxLines ∧ st.2 < scriptLineMax
  count : s.lineCount = min lines.length scriptMaxLines
  rows : ∀ k (h : k < lines.length), k < scriptMaxLines → RowHolds s.mem k lines[k]

/-! ## Memory -/

section

variable {mem : ℤ → UInt8} {a b v : ℤ}

theorem int32At_congr {mem' : ℤ → UInt8} (h : ∀ x, a ≤ x → x < a + 4 → mem' x = mem x) :
    int32At mem' a = int32At mem a := by
  have hbytes : ((List.range 4).map fun i : ℕ => mem' (a + i)) =
      (List.range 4).map fun i : ℕ => mem (a + i) := by
    refine List.map_congr_left fun i hi => ?_
    have := List.mem_range.1 hi
    apply h <;> omega
  unfold int32At
  rw [hbytes]

theorem setInt32_of_disjoint {x : ℤ} (h : x < a ∨ a + 4 ≤ x) : setInt32 mem a v x = mem x :=
  if_neg (by omega)

theorem int32At_setInt32 (h0 : 0 ≤ v) (hv : v < 2 ^ 31) : int32At (setInt32 mem a v) a = v := by
  obtain ⟨n, rfl⟩ := Int.eq_ofNat_of_zero_le h0
  have hn : n < 2 ^ 31 := by omega
  have hbytes : ((List.range 4).map fun i : ℕ => setInt32 mem a n (a + i)) = Bytes.toLe 4 n := by
    refine List.ext_getElem (by simp) fun i hi _ => ?_
    have hi : i < 4 := by simpa using hi
    have hwrap : wrap 32 n = n := wrap_of_lt rfl (by omega)
    simp [setInt32, hi, hwrap]
  have hmod : n % 256 ^ 4 = n := Nat.mod_eq_of_lt (by omega)
  unfold int32At
  rw [hbytes, Bytes.leNat_toLe, hmod, toInt32_of_lt hn]

end

/-! ## Rounds -/

/-- The invariant of the loop: `lines` are complete, and `cur` are the characters of the next line. From line
129 on there is none. -/
structure Loading (s : ScriptLoad) (lines : List (List UInt8)) (cur : List UInt8) : Prop where
  loaded : ScriptLoaded s lines
  li : s.li = (cur.take 255).length
  row : ∀ j < (cur.take 255).length, s.mem (lines.length * scriptLineMax + j) = (cur.take 255).getD j 0
  full : scriptMaxLines ≤ lines.length → cur = []

section

variable {s : ScriptLoad} {lines : List (List UInt8)} {cur : List UInt8}

/-- A store in the row of the next line. -/
theorem Loading.store (h : Loading s lines cur) (hlines : lines.length < scriptMaxLines) (c : UInt8) :
    (s.store c).lineCount = lines.length ∧
      (∀ st ∈ (s.store c).stores, 0 ≤ st.1 ∧ st.1 < scriptMaxLines ∧ st.2 < scriptLineMax) ∧
      (s.store c).mem (lines.length * scriptLineMax + s.li) = c ∧
      ∀ k j : ℕ, j < scriptLineMax → k ≠ lines.length ∨ j < s.li →
        (s.store c).mem (k * scriptLineMax + j) = s.mem (k * scriptLineMax + j) := by
  have hcount : s.lineCount = lines.length := by
    rw [h.loaded.count, min_eq_left hlines.le]
  have hli : s.li < scriptLineMax := by
    rw [h.li, scriptLineMax, List.length_take]
    omega
  have hmem : (s.store c).mem = Function.update s.mem (lines.length * scriptLineMax + s.li) c := by
    rw [← hcount]
    rfl
  simp only [scriptMaxLines, scriptLineMax] at *
  refine ⟨?_, ?_, by rw [hmem, Function.update_self], fun k j hj hne => ?_⟩
  · rw [← hcount, ScriptLoad.lineCount, hmem]
    refine int32At_congr fun x hx _ => Function.update_of_ne ?_ ..
    rw [lineCountOff, scriptMaxLines, scriptLineMax] at hx
    omega
  · intro st hst
    obtain rfl | hst := List.mem_cons.1 hst
    · exact ⟨by omega, by omega, hli⟩
    · exact h.loaded.inside st hst
  · rw [hmem, Function.update_of_ne]
    omega

/-- The end of a line. -/
theorem Loading.lineEnd (h : Loading s lines cur) {c : UInt8} (hc : isLineEnd c = true) :
    Loading (scriptChar s c) (lines ++ [cur]) [] := by
  have hlen : (lines ++ [cur]).length = lines.length + [cur].length := List.length_append
  rw [List.length_singleton] at hlen
  rw [scriptChar, if_pos hc]
  by_cases hlines : lines.length < scriptMaxLines
  · obtain ⟨hcount, hinside, hself, hother⟩ := h.store hlines 0
    have hlt : s.lineCount < scriptMaxLines := by
      rw [h.loaded.count]
      omega
    rw [if_pos hlt]
    -- The counter lies behind the rows, so storing it leaves them alone.
    have hmem : ∀ k j : ℕ, k < scriptMaxLines → j < scriptLineMax →
        setInt32 (s.store 0).mem lineCountOff ((s.store 0).lineCount + 1) (k * scriptLineMax + j) =
          (s.store 0).mem (k * scriptLineMax + j) := by
      intro k j hk hj
      apply setInt32_of_disjoint
      simp only [lineCountOff, scriptMaxLines, scriptLineMax] at *
      omega
    have hcut : (cur.take 255).length < scriptLineMax := by
      rw [List.length_take, scriptLineMax]
      omega
    refine ⟨⟨hinside, ?_, fun k hk hk' j hj => ?_⟩, rfl, fun j hj => absurd hj (Nat.not_lt_zero j),
      fun _ => rfl⟩
    · have hsmall : (s.store 0).lineCount + 1 < 2 ^ 31 := by
        rw [hcount]
        rw [scriptMaxLines] at hlines
        omega
      rw [ScriptLoad.lineCount, int32At_setInt32 (by omega) hsmall, hcount, hlen]
      omega
    · by_cases hlast : k = lines.length
      · subst hlast
        simp only [List.getElem_concat_length] at hj ⊢
        refine (hmem _ _ hk' (by omega)).trans ?_
        obtain hj | rfl := Nat.lt_or_eq_of_le hj
        · rw [hother _ _ (by omega) (.inr (by rwa [h.li])), h.row j hj]
        · rw [← h.li, hself, h.li]
          simp
      · have hk₀ : k < lines.length := by omega
        rw [List.getElem_append_left hk₀] at hj ⊢
        have hj' : j < scriptLineMax := by
          rw [List.length_take] at hj
          rw [scriptLineMax]
          omega
        exact ((hmem _ _ hk' hj').trans (hother _ _ hj' (.inl hlast))).trans (h.loaded.rows k hk₀ hk' j hj)
  · -- all rows are taken; the line is empty and nothing is stored
    have hge : ¬s.lineCount < scriptMaxLines := by
      rw [h.loaded.count]
      omega
    rw [if_neg hge]
    refine ⟨⟨h.loaded.inside, ?_, fun k hk hk' => ?_⟩, rfl, fun j hj => absurd hj (Nat.not_lt_zero j),
      fun _ => rfl⟩
    · show s.lineCount = _
      rw [h.loaded.count, hlen]
      omega
    · have hk₀ : k < lines.length := by omega
      rw [List.getElem_append_left hk₀]
      exact h.loaded.rows k hk₀ hk'

/-- A character of one of the first 128 lines. -/
theorem Loading.char (h : Loading s lines cur) (hlines : lines.length < scriptMaxLines) {c : UInt8}
    (hc : isLineEnd c = false) : Loading (scriptChar s c) lines (cur ++ [c]) := by
  rw [scriptChar, if_neg (by simp [hc])]
  by_cases hli : s.li < scriptLineMax - 1
  · rw [if_pos hli]
    obtain ⟨hcount, hinside, hself, hother⟩ := h.store hlines c
    rw [h.li, List.length_take, scriptLineMax] at hli
    have hcur : cur.length < 255 := by omega
    have htake : cur.take 255 = cur := List.take_of_length_le hcur.le
    have htake' : (cur ++ [c]).take 255 = cur ++ [c] := List.take_of_length_le (by simp; omega)
    have hs : s.li = cur.length := by rw [h.li, htake]
    have hrow := h.row
    rw [htake] at hrow
    refine ⟨⟨hinside, ?_, fun k hk hk' j hj => ?_⟩, ?_, fun j hj => ?_, fun hge => by omega⟩
    · exact hcount.trans (by omega)
    · have hj' : j < scriptLineMax := by
        rw [List.length_take] at hj
        rw [scriptLineMax]
        omega
      show (s.store c).mem _ = _
      rw [hother k j hj' (.inl hk.ne)]
      exact h.loaded.rows k hk hk' j hj
    · rw [htake', List.length_append, List.length_singleton, ← hs]
    · rw [htake', List.length_append, List.length_singleton] at hj
      have hj' : j < scriptLineMax := by
        rw [scriptLineMax]
        omega
      rw [htake']
      show (s.store c).mem _ = _
      obtain hj | rfl := Nat.lt_succ_iff_lt_or_eq.1 hj
      · rw [hother _ _ hj' (.inr (by omega)), hrow j hj, List.getD_eq_getElem?_getD,
          List.getD_eq_getElem?_getD, List.getElem?_append_left hj]
      · rw [← hs, hself]
        simp [hs]
  · rw [if_neg hli]
    rw [h.li, List.length_take, scriptLineMax] at hli
    have htake : (cur ++ [c]).take 255 = cur.take 255 := List.take_append_of_le_length (by omega)
    exact ⟨h.loaded, by rw [htake, h.li], by rw [htake]; exact h.row, fun hge => by omega⟩

/-- A store outside of the table is not undone. -/
theorem scriptChar_stores (s : ScriptLoad) (c : UInt8) : ∀ st ∈ s.stores, st ∈ (scriptChar s c).stores := by
  intro st hst
  rw [scriptChar]
  split_ifs
  · exact List.mem_cons_of_mem _ hst
  · exact hst
  · exact List.mem_cons_of_mem _ hst
  · exact hst

theorem foldl_scriptChar_stores (cs : List UInt8) : ∀ (s : ScriptLoad), ∀ st ∈ s.stores,
    st ∈ (cs.foldl scriptChar s).stores := by
  induction cs with
  | nil => exact fun _ _ hst => hst
  | cons c cs ih => exact fun s st hst => ih _ st (scriptChar_stores s c st hst)

/-- The rest of the loop. The lines from `cur` on are loaded if those that do not fit are empty, and otherwise
a store is outside of the table. -/
theorem Loading.rest (cs : List UInt8) : ∀ {s : ScriptLoad} {lines : List (List UInt8)} {cur : List UInt8},
    Loading s lines cur →
    let rest := cs.splitOnPPrepend isLineEnd cur.reverse
    let s' := (cs ++ [0]).foldl scriptChar s
    if ∀ l ∈ rest.drop (scriptMaxLines - lines.length), l = [] then ScriptLoaded s' (lines ++ rest)
    else ∃ st ∈ s'.stores, st.1 = scriptMaxLines := by
  induction cs with
  | nil =>
    intro s lines cur h
    -- The NUL ends the last line.
    have hend := (h.lineEnd (c := 0) rfl).loaded
    rw [List.splitOnPPrepend_nil, List.reverse_reverse]
    dsimp only
    rw [if_pos, List.nil_append, List.foldl_cons, List.foldl_nil]
    · exact hend
    · intro l hl
      by_cases hlines : lines.length < scriptMaxLines
      · rw [List.drop_of_length_le (by simp; omega)] at hl
        cases hl
      · rw [List.mem_singleton.1 (List.mem_of_mem_drop hl)]
        exact h.full (not_lt.1 hlines)
  | cons c cs ih =>
    intro s lines cur h
    dsimp only
    rw [List.cons_append, List.foldl_cons]
    by_cases hc : isLineEnd c = true
    · have hrest := ih (h.lineEnd hc)
      dsimp only at hrest
      rw [List.reverse_nil, List.splitOnPPrepend_nil_right, List.append_assoc, List.singleton_append,
        List.length_append, List.length_singleton] at hrest
      rw [List.splitOnPPrepend_cons_pos hc, List.reverse_reverse]
      refine (if_congr ?_ rfl rfl).mp hrest
      -- An empty line beyond the last row stores nothing, and counts neither way.
      by_cases hlines : lines.length < scriptMaxLines
      · have hsub : scriptMaxLines - lines.length = scriptMaxLines - (lines.length + 1) + 1 := by omega
        rw [hsub, List.drop_succ_cons]
      · have hzero : scriptMaxLines - lines.length = 0 := by omega
        have hzero' : scriptMaxLines - (lines.length + 1) = 0 := by omega
        rw [hzero, hzero', List.drop_zero, List.drop_zero, List.forall_mem_cons,
          and_iff_right (h.full (not_lt.1 hlines))]
    · rw [Bool.not_eq_true] at hc
      rw [List.splitOnPPrepend_cons_neg hc]
      by_cases hlines : lines.length < scriptMaxLines
      · have hrest := ih (h.char hlines hc)
        rwa [List.reverse_append, List.reverse_singleton, List.singleton_append] at hrest
      · -- the character goes to row 128
        have hcur := h.full (not_lt.1 hlines)
        have hcount : s.lineCount = scriptMaxLines := by
          rw [h.loaded.count]
          omega
        have hli : s.li = 0 := by rw [h.li, hcur]; rfl
        have hmem : (s.lineCount, s.li) ∈ (scriptChar s c).stores := by
          rw [scriptChar, if_neg (by simp [hc]), if_pos (by rw [hli]; decide)]
          exact List.mem_cons_self
        rw [if_neg]
        · exact ⟨(s.lineCount, s.li), foldl_scriptChar_stores (cs ++ [0]) _ _ hmem, hcount⟩
        · intro hall
          have hzero : scriptMaxLines - lines.length = 0 := by omega
          rw [hzero, List.drop_zero, List.splitOnPPrepend_eq_modifyHead] at hall
          obtain ⟨l, ls, hl⟩ := List.exists_cons_of_ne_nil (List.splitOnP_ne_nil isLineEnd cs)
          rw [hl, List.modifyHead_cons] at hall
          have := hall _ List.mem_cons_self
          simp at this

end

/-! ## The whole file -/

theorem scriptRead_eq (chunk : ℕ → ℕ) (file : List UInt8) (total : ℕ) (h : total ≤ min 8191 file.length) :
    scriptRead chunk file total = min 8191 file.length := by
  fun_induction scriptRead chunk file total with
  | case1 total n hlt ih => exact ih (by omega)
  | case2 total n hlt => omega

/-- What the loader does with a whole file: the rows hold its lines, or a character goes behind the table. -/
theorem scriptLoad_cases (mem : ℤ → UInt8) (chunk : ℕ → ℕ) (file : List UInt8) :
    if ∀ l ∈ (scriptLines file).drop scriptMaxLines, l = [] then
      ScriptLoaded (scriptLoad mem chunk file) (scriptLines file)
    else ∃ st ∈ (scriptLoad mem chunk file).stores, st.1 = scriptMaxLines := by
  have htext : file.take (scriptRead chunk file 0) = file.take 8191 := by
    rw [scriptRead_eq chunk file 0 (Nat.zero_le _), List.take_eq_take_iff]
    omega
  let mem₀ := setInt32 (setInt32 (setInt32 mem lineCountOff 0) (lineCountOff + 4) 0) (lineCountOff + 8) 0
  have hcount : int32At mem₀ lineCountOff = 0 := by
    have hsame : int32At mem₀ lineCountOff = int32At (setInt32 mem lineCountOff 0) lineCountOff :=
      int32At_congr fun x _ hx =>
        (setInt32_of_disjoint (.inl (by omega))).trans (setInt32_of_disjoint (.inl hx))
    rw [hsame, int32At_setInt32 le_rfl (by decide)]
  have hinit : Loading ⟨mem₀, 0, []⟩ [] [] :=
    ⟨⟨fun _ hst => absurd hst List.not_mem_nil, hcount, fun k hk => absurd hk (Nat.not_lt_zero k)⟩, rfl,
      fun j hj => absurd hj (Nat.not_lt_zero j), fun _ => rfl⟩
  have hrest := Loading.rest (file.take 8191) hinit
  dsimp only at hrest
  rw [List.reverse_nil, List.splitOnPPrepend_nil_right, List.nil_append] at hrest
  rw [scriptLoad, htext]
  exact hrest

/-- Nothing is stored behind the table of lines. -/
theorem ScriptLoaded.not_behind {s : ScriptLoad} {lines : List (List UInt8)} (h : ScriptLoaded s lines) :
    ¬∃ st ∈ s.stores, st.1 = scriptMaxLines := by
  rintro ⟨st, hst, hrow⟩
  have := (h.inside st hst).2.1
  omega

/-- For every file, the loader stores inside `ctx.lines` and the rows hold the first lines of the first 8191
bytes of the file exactly if all lines behind the first 128 are empty. -/
theorem script_load_iff (mem : ℤ → UInt8) (chunk : ℕ → ℕ) (file : List UInt8) :
    ScriptLoaded (scriptLoad mem chunk file) (scriptLines file) ↔
      ∀ l ∈ (scriptLines file).drop scriptMaxLines, l = [] := by
  have hcases := scriptLoad_cases mem chunk file
  split_ifs at hcases with hall
  · exact iff_of_true hcases hall
  · exact iff_of_false (fun hloaded => hloaded.not_behind hcases) hall

/-- 128 line ends and a character: the character goes behind the table, where `line_count` is. -/
theorem script_line_129 :
    ¬∀ (mem : ℤ → UInt8) (chunk : ℕ → ℕ) (file : List UInt8),
      ScriptLoaded (scriptLoad mem chunk file) (scriptLines file) := by
  intro h
  have hcases := scriptLoad_cases (fun _ => 0) (fun _ => 0) (List.replicate 128 10 ++ [97])
  rw [if_neg fun hall => absurd (hall [97] (by decide +kernel)) (by decide)] at hcases
  exact (h _ _ _).not_behind hcases

end PlantOS.Shell
