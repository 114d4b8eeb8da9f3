import PlantOS.Shell.EditorRows
import PlantOS.Shell.EditorSave

/-!
# Loading a file into the editor and saving it

Of the lines that `load_file` puts into the rows, a zero ends its line when the text is saved. What is saved is
never longer than the file, so the file is unchanged exactly if it begins with it.

Reference: `load_file` and `save_file` in `shell/editor.c`.
-/

namespace PlantOS.Shell.Editor

open Fs Bytes Buffer

/-! ## Loading -/

/-- A line as it is loaded and saved again. -/
def savedLine (l : List UInt8) : List UInt8 := (loadedLine l).takeWhile (· ≠ 0)

/-- The lines of a file when it has been loaded. -/
theorem loadFile_lines (e : Editor) (file : List UInt8) :
    ∃ e', e.loadFile (some file) = some e' ∧ (0 ≤ e'.numLines ∧ e'.numLines ≤ 512) ∧
      e'.bufferLines = ((file.splitOn 10).take 512).map savedLine := by
  obtain ⟨e', rows, cur, hload, hloading, heq⟩ := e.loadFile_loading (some file)
  have hcount := hloading.count
  have hfits := hloading.fits
  refine ⟨e', hload, by omega, ?_⟩
  rw [hloading.shows_text.bufferLines_eq, heq, List.map_map]
  rfl

/-! ## The round trip -/

section

variable {l : List UInt8}

theorem not_mem_savedLine (h : 10 ∉ l) : 10 ∉ savedLine l := by
  intro hmem
  have hsub := (List.takeWhile_prefix _).subset hmem
  exact h (List.mem_of_mem_filter (List.mem_of_mem_take hsub))

theorem savedLine_eq_self_iff : savedLine l = l ↔ 13 ∉ l ∧ 0 ∉ l ∧ l.length ≤ 255 := by
  constructor
  · intro h
    refine ⟨fun hmem => ?_, fun hmem => ?_, ?_⟩
    · rw [← h] at hmem
      have hfilter := List.mem_of_mem_take ((List.takeWhile_prefix _).subset hmem)
      simpa using (List.mem_filter.1 hfilter).2
    · rw [← h] at hmem
      simpa using List.mem_takeWhile_imp hmem
    · rw [← h]
      exact (List.takeWhile_prefix _).length_le.trans (length_loadedLine l)
  · rintro ⟨hcr, hnul, hlen⟩
    have hfilter : l.filter (· ≠ 13) = l := List.filter_eq_self.2 fun c hc =>
      decide_eq_true fun h => hcr (h ▸ hc)
    rw [savedLine, loadedLine, hfilter, List.take_of_length_le hlen]
    exact List.takeWhile_eq_self_iff.2 fun c hc => decide_eq_true fun h => hnul (h ▸ hc)

theorem not_mem_of_mem_splitOn {c : UInt8} {file : List UInt8} : ∀ l ∈ file.splitOn c, c ∉ l := by
  induction file with
  | nil => simp
  | cons b file ih =>
    intro l hl
    rw [List.splitOn_cons_eq_if_modifyHead] at hl
    split at hl
    · obtain rfl | hl := List.mem_cons.1 hl
      · exact List.not_mem_nil
      · exact ih l hl
    · rename_i hb
      obtain ⟨m, ls, hsplit⟩ := List.exists_cons_of_ne_nil (List.splitOn_ne_nil c file)
      rw [hsplit] at hl ih
      obtain rfl | hl := List.mem_cons.1 hl
      · rw [List.mem_cons, not_or]
        exact ⟨fun h => hb (beq_iff_eq.2 h.symm), ih m List.mem_cons_self⟩
      · exact ih l (List.mem_cons_of_mem _ hl)

end

/-- A text begins with another one, if both have a newline: the first lines are the same. -/
theorem append_newline_prefix_iff {a b x y : List UInt8} (ha : 10 ∉ a) (hb : 10 ∉ b) :
    a ++ 10 :: x <+: b ++ 10 :: y ↔ a = b ∧ x <+: y := by
  induction a generalizing b with
  | nil =>
    cases b with
    | nil => simp
    | cons c b =>
      have hc : 10 ≠ c := fun h => hb (h ▸ List.mem_cons_self)
      simp [List.cons_prefix_cons, hc]
  | cons c a ih =>
    rw [List.mem_cons, not_or] at ha
    cases b with
    | nil => simp [List.cons_prefix_cons, Ne.symm ha.1]
    | cons d b =>
      rw [List.mem_cons, not_or] at hb
      simp [List.cons_prefix_cons, ih ha.2 hb.2, and_assoc]

theorem prefix_append_newline_iff {a b y : List UInt8} (ha : 10 ∉ a) : a <+: b ++ 10 :: y ↔ a <+: b := by
  refine ⟨fun h => ?_, fun h => h.trans (List.prefix_append _ _)⟩
  obtain hab | ⟨t, rfl⟩ := List.prefix_or_prefix_of_prefix h (List.prefix_append b (10 :: y))
  · exact hab
  · rw [List.prefix_append_right_inj] at h
    cases t with
    | nil => rw [List.append_nil]
    | cons c t =>
      obtain ⟨rfl, -⟩ := List.cons_prefix_cons.1 h
      exact absurd (by simp) ha

/-- The saved lines are the beginning of the file exactly if all but the last one are as they were and the
last one is the beginning of what it was. -/
theorem intercalate_savedLine_prefix_iff {L M : List (List UInt8)} (hL : L ≠ []) (h : ∀ l ∈ L ++ M, 10 ∉ l) :
    [10].intercalate (L.map savedLine) <+: [10].intercalate (L ++ M) ↔
      (∀ l ∈ L.dropLast, savedLine l = l) ∧ ∀ l ∈ L.getLast?, savedLine l <+: l := by
  induction L with
  | nil => exact absurd rfl hL
  | cons l L ih =>
    have hl := h l (by simp)
    cases L with
    | nil =>
      have hiff : savedLine l <+: [10].intercalate (l :: M) ↔ savedLine l <+: l := by
        cases M with
        | nil => rw [List.intercalate_singleton]
        | cons m M =>
          rw [List.intercalate_cons_cons, List.append_assoc, List.singleton_append,
            prefix_append_newline_iff (not_mem_savedLine hl)]
      rw [List.map_singleton, List.intercalate_singleton, List.singleton_append, hiff]
      simp
    | cons m L =>
      have ih := ih (List.cons_ne_nil _ _) fun k hk => h k (List.mem_cons_of_mem _ hk)
      rw [List.map_cons, List.map_cons, List.cons_append, List.cons_append, List.intercalate_cons_cons,
        List.intercalate_cons_cons, List.append_assoc, List.append_assoc, List.singleton_append,
        List.singleton_append, append_newline_prefix_iff (not_mem_savedLine hl) hl, ← List.map_cons,
        ← List.cons_append, ih]
      simp [and_assoc]

/-- The loaded lines of a file are unchanged, and of the last one a beginning is left. -/
def KeepsLines (file : List UInt8) : Prop :=
  (∀ l ∈ ((file.splitOn 10).take 512).dropLast, 13 ∉ l ∧ 0 ∉ l ∧ l.length ≤ 255) ∧
    ∀ l ∈ ((file.splitOn 10).take 512).getLast?, savedLine l <+: l

/-- Saving over the file gives the file again exactly if the loaded lines are kept. -/
theorem splice_saved_eq_iff (file : List UInt8) :
    splice file 0 ([10].intercalate (((file.splitOn 10).take 512).map savedLine)) = file ↔
      KeepsLines file := by
  have hne : (file.splitOn 10).take 512 ≠ [] := by
    rw [Ne, List.take_eq_nil_iff, not_or]
    exact ⟨by decide, List.splitOn_ne_nil 10 file⟩
  have hiff := @intercalate_savedLine_prefix_iff _ ((file.splitOn 10).drop 512) hne fun l hl =>
    not_mem_of_mem_splitOn l (by rwa [List.take_append_drop] at hl)
  rw [List.take_append_drop, List.intercalate_splitOn] at hiff
  rw [splice_zero, ← List.prefix_iff_eq_append, hiff, KeepsLines]
  simp only [savedLine_eq_self_iff]

/-- If no `vfs_write` fails, then a file that is loaded and saved again is unchanged, or the failure is
reported, exactly if it cannot be opened to be saved or its lines are unchanged. -/
theorem load_save_keeps_iff (env : RedirectEnv) (hio : env.WritesSucceed) (d : Disks) (e : Editor)
    (path : List UInt8) (r : Option Fd) (v : Vfs)
    (hopen : vfsOpen d.vfs env.cred path ⟨true, false⟩ env.found = some (r, v))
    (hfat : onFat d.vfs path = true → d.fat.opened.Wf env.clusterBytes)
    (hfile : onFat d.vfs path = false → ∀ fd, r = some fd → ∃ node, v.fileAt fd = some node ∧ node.Wf) :
    ∃ e' res d', e.loadFile (some (contentsAt d path)) = some e' ∧ saveFile env d e' path = some (res, d') ∧
      ((res = -1 ∨ ∃ fd, r = some fd ∧
          contentsOf d' (onFat d.vfs path) (v.fds fd).inode = contentsAt d path) ↔
        r = none ∨ KeepsLines (contentsAt d path)) := by
  obtain ⟨e', hload, hlines, htext⟩ := e.loadFile_lines (contentsAt d path)
  cases r with
  | none =>
    refine ⟨e', -1, { d with vfs := v }, hload, ?_, iff_of_true (.inl rfl) (.inl rfl)⟩
    rw [saveFile, hopen]
    rfl
  | some fd =>
    obtain ⟨d', hsave, hcontents⟩ :=
      saveFile_contents env hio d e' path hlines hopen hfat fun honFat => hfile honFat fd rfl
    have hiff := splice_saved_eq_iff (contentsAt d path)
    rw [← htext, ← hcontents] at hiff
    exact ⟨e', 0, d', hload, hsave, by simp [hiff]⟩

/-- The file `ab` is unchanged. -/
theorem load_save_keeps_short :
    ∃ e' res d', emptyText.loadFile (some [97, 98]) = some e' ∧
      saveFile mountedEnv mountedDisks e' [47, 109, 47, 102] = some (res, d') ∧
      (res = -1 ∨ ∃ fd, some (0 : Fd) = some fd ∧ contentsOf d' true 0 = [97, 98]) := by
  obtain ⟨e', res, d', hload, hsave, hiff⟩ :=
    load_save_keeps_iff mountedEnv (fun _ _ => rfl) mountedDisks emptyText [47, 109, 47, 102] (some 0) _ rfl
      (fun _ => ⟨by decide +kernel, by decide +kernel, by decide, by decide⟩) (fun h => by cases h)
  exact ⟨e', res, d', hload, hsave, hiff.2 (.inr ⟨by decide, by decide⟩)⟩

/-- The file `/m/f` with the lines `a` and `b`, the first one with a carriage return. -/
def returnDisks : Disks :=
  ⟨vfsInit (some [47, 109]), ⟨[97, 13, 10, 98] ++ List.replicate 508 0, 1, 4, 0, 0⟩⟩

/-- It is saved with `b` once more at its end. -/
theorem load_save_loses_return :
    contentsAt returnDisks [47, 109, 47, 102] = [97, 13, 10, 98] ∧
      ((emptyText.loadFile (some [97, 13, 10, 98])).bind fun e' =>
        (saveFile mountedEnv returnDisks e' [47, 109, 47, 102]).map fun r => (r.1, contentsOf r.2 true 0)) =
        some (0, [97, 10, 98, 98]) := by
  decide

end PlantOS.Shell.Editor
