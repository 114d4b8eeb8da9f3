import PlantOS.Shell.Editor
import PlantOS.Shell.Redirect

/-!
# Saving the text of the editor

Model of `save_file`: the file is opened without truncation, and each line and each newline is written by a
call of its own. On ramfs and on the FAT volume, writes one after the other through a descriptor overwrite the
file from its beginning (`Stands.write`), so what an old file has behind the text stays.

Reference: `save_file` in `shell/editor.c`.
-/

namespace PlantOS.Shell

open Fs Bytes Buffer

namespace Editor

/-- The loop of `save_file` over `n` lines from `i` on. -/
def saveLoop (env : RedirectEnv) (fd : Fd) (e : Editor) : ℕ → ℤ → Disks → Option Disks
  | 0, _, d => some d
  | n + 1, i, d =>
    (if 0 < e.lineLen i then writeOutput env d fd (e.rowBytes i) else some d) >>= fun d =>
      (if i < e.numLines - 1 then writeOutput env d fd [10] else some d) >>= fun d =>
        saveLoop env fd e n (i + 1) d

/-- `save_file`. -/
def saveFile (env : RedirectEnv) (d : Disks) (e : Editor) (path : List UInt8) : Option (ℤ × Disks) := do
  let (fd, vfs) ← vfsOpen d.vfs env.cred path ⟨true, false⟩ env.found
  match fd with
  | none => pure (-1, { d with vfs := vfs })
  | some fd =>
    let d ← saveLoop env fd e e.numLines.toNat 0 ⟨vfs, d.fat.opened⟩
    pure (0, { d with vfs := vfsClose d.vfs fd })

end Editor

/-! ## Writing in pieces -/

/-- The file behind a descriptor has the contents `old`, and the descriptor stands at `off`. -/
inductive Stands (env : RedirectEnv) (fd : Fd) (d : Disks) : Bool → ℕ → List UInt8 → ℕ → Prop
  | fat (ino : ℕ) (hused : (d.vfs.fds fd).used = true) (hfd : (d.vfs.fds fd).fatFd.isSome)
      (hwf : d.fat.Wf env.clusterBytes) : Stands env fd d true ino d.fat.bytes d.fat.offset
  | ramfs {node : Inode} (hused : (d.vfs.fds fd).used = true) (hat : d.vfs.fileAt fd = some node)
      (hwf : node.Wf) (hoff : (d.vfs.fds fd).offset ≤ node.size) :
      Stands env fd d false (d.vfs.fds fd).inode node.bytes (d.vfs.fds fd).offset

section

variable {env : RedirectEnv} {fd : Fd} {d : Disks} {fat : Bool} {ino off : ℕ} {old : List UInt8}

theorem Stands.contentsOf_eq (h : Stands env fd d fat ino old off) (fd' : Fd) :
    contentsOf { d with vfs := vfsClose d.vfs fd' } fat ino = old := by
  cases h with
  | fat => rfl
  | ramfs hused hat =>
    obtain ⟨-, hget, -⟩ := Vfs.fileAt_eq_some.1 hat
    rw [contentsOf, if_neg (by decide), inodes_vfsClose, (ramfsGetInode_eq_some.1 hget).2]

theorem Stands.off_le (h : Stands env fd d fat ino old off) : off ≤ old.length := by
  cases h with
  | fat _ hused hfd hwf =>
    have := hwf.offset_le
    have := hwf.size_le
    rw [FatContents.bytes, List.length_take]
    omega
  | ramfs hused hat hwf hoff => rwa [Inode.length_bytes]

/-- A write overwrites the contents, and the descriptor stands behind it. -/
theorem Stands.write (hio : env.WritesSucceed) (h : Stands env fd d fat ino old off) (text : List UInt8)
    (hlen : off + text.length < 2 ^ 31) :
    ∃ d', writeOutput env d fd text = some d' ∧
      Stands env fd d' fat ino (splice old off text) (off + text.length) := by
  cases h with
  | fat _ hused hfd hwf =>
    obtain ⟨hwf', hbytes, hoff⟩ := FatContents.write_spec env.clusterBytes_pos env.length_newCluster hwf text
    rw [writeOutput_fat hio hused hfd]
    refine ⟨_, rfl, ?_⟩
    rw [← hbytes, ← hoff]
    exact .fat ino hused hfd hwf'
  | ramfs hused hat hwf hoff =>
    obtain ⟨hfat, hget, htype⟩ := Vfs.fileAt_eq_some.1 hat
    obtain ⟨⟨hlt, hnode⟩, hnode'⟩ := ramfsGetInode_eq_some.1 hget
    rw [writeOutput_vfs hio hfat]
    obtain ⟨hmem, -⟩ | ⟨node', hwrite, hwritten⟩ :=
      vfsWrite_of_fileAt hused hat hwf hlen ⟨some env.newMemory, -1⟩
    · cases hmem
    have hbytes := hwritten.bytes hoff
    have hfds : (d.vfs.wrote fd node' text.length).fds fd =
        { d.vfs.fds fd with offset := (d.vfs.fds fd).offset + text.length } := Vfs.fds_setFd_self ..
    have hinode : (d.vfs.wrote fd node' text.length).inodes (d.vfs.fds fd).inode = node' := by
      rw [Vfs.wrote, Vfs.inodes_setFd, Vfs.inodes_setInode_self]
    have hat' : (d.vfs.wrote fd node' text.length).fileAt fd = some node' := by
      rw [Vfs.fileAt_eq_some, hfds]
      refine ⟨hfat, ramfsGetInode_eq_some.2 ⟨⟨hlt, ?_⟩, hinode⟩, hwritten.type.trans htype⟩
      rw [hinode, hwritten.used, ← hnode', hnode]
    have hsize : (d.vfs.fds fd).offset + text.length ≤ node'.size := by
      rw [← Inode.length_bytes node', hbytes, splice, List.length_append, List.length_append,
        List.length_take, Inode.length_bytes]
      omega
    refine ⟨⟨d.vfs.wrote fd node' text.length, d.fat⟩, by rw [hwrite]; rfl, ?_⟩
    have hstands : Stands env fd ⟨d.vfs.wrote fd node' text.length, d.fat⟩ false _ _ _ :=
      .ramfs (by rw [hfds]; exact hused) hat' hwritten.wf (by rw [hfds]; exact hsize)
    rwa [hfds, hbytes] at hstands

/-- `save_file` begins to write at the beginning of the file. -/
theorem Stands.opened {path : List UInt8} {v : Vfs}
    (hopen : vfsOpen d.vfs env.cred path ⟨true, false⟩ env.found = some (some fd, v))
    (hfat : onFat d.vfs path = true → d.fat.opened.Wf env.clusterBytes)
    (hfile : onFat d.vfs path = false → ∃ node, v.fileAt fd = some node ∧ node.Wf) :
    Stands env fd ⟨v, d.fat.opened⟩ (onFat d.vfs path) (v.fds fd).inode (contentsAt d path) 0 := by
  cases honFat : onFat d.vfs path with
  | true =>
    obtain ⟨hused, hfd⟩ := vfsOpen_fat honFat hopen
    rw [contentsAt, if_pos honFat]
    exact .fat _ hused hfd (hfat honFat)
  | false =>
    obtain ⟨node, hat, hwf⟩ := hfile honFat
    obtain ⟨hused, hpipe, hoff, hbytes⟩ := vfsOpen_ramfs honFat hopen
    obtain ⟨-, hget, -⟩ := Vfs.fileAt_eq_some.1 hat
    have hold : contentsAt d path = node.bytes := by
      rw [contentsAt, if_neg (by simp [honFat]), ← hbytes, (ramfsGetInode_eq_some.1 hget).2]
    have hstands : Stands env fd ⟨v, d.fat.opened⟩ false (v.fds fd).inode node.bytes (v.fds fd).offset :=
      .ramfs hused hat hwf (hoff ▸ Nat.zero_le _)
    rwa [hoff, ← hold] at hstands

theorem Stands.write_if (hio : env.WritesSucceed) (h : Stands env fd d fat ino old off) (p : Prop) [Decidable p]
    (text : List UInt8) (hlen : off + (if p then text else []).length < 2 ^ 31) :
    ∃ d', (if p then writeOutput env d fd text else some d) = some d' ∧
      Stands env fd d' fat ino (splice old off (if p then text else []))
        (off + (if p then text else []).length) := by
  by_cases hp : p
  · simp only [if_pos hp] at hlen ⊢
    exact h.write hio text hlen
  · simp only [if_neg hp, FatContents.splice_nil]
    exact ⟨d, rfl, h⟩

end

/-! ## Saving -/

namespace Editor

variable {env : RedirectEnv} {fd : Fd} {d : Disks} {fat : Bool} {ino off : ℕ} {old : List UInt8} {e : Editor}

/-- The lines from `i` on. -/
def linesFrom (e : Editor) (n : ℕ) (i : ℤ) : List (List UInt8) :=
  (List.range n).map fun k : ℕ => e.rowBytes (i + k)

theorem linesFrom_succ (n : ℕ) (i : ℤ) : e.linesFrom (n + 1) i = e.rowBytes i :: e.linesFrom n (i + 1) := by
  rw [linesFrom, List.range_succ_eq_map, List.map_cons, List.map_map, linesFrom]
  congr 1
  · simp
  · refine List.map_congr_left fun k _ => congrArg e.rowBytes ?_
    simp only [Nat.succ_eq_add_one]
    omega

/-- The text of the lines from `i` on: a line, a newline if it is not the last one, and the other lines. -/
theorem intercalate_linesFrom_succ {n : ℕ} {i : ℤ} (hi : i + (n + 1 : ℕ) = e.numLines) :
    [10].intercalate (e.linesFrom (n + 1) i) =
      e.rowBytes i ++
        ((if i < e.numLines - 1 then [10] else []) ++ [10].intercalate (e.linesFrom n (i + 1))) := by
  rw [linesFrom_succ]
  cases n with
  | zero => rw [if_neg (by omega)]; simp [linesFrom]
  | succ n =>
    rw [if_pos (by omega), linesFrom_succ, List.intercalate_cons_cons, List.append_assoc]

/-- The loop writes the lines from `i` on at the place where the descriptor stands. -/
theorem saveLoop_stands (hio : env.WritesSucceed) {n : ℕ} {i : ℤ} (hi : i + n = e.numLines)
    (h : Stands env fd d fat ino old off)
    (hlen : off + ([10].intercalate (e.linesFrom n i)).length < 2 ^ 31) :
    ∃ d', saveLoop env fd e n i d = some d' ∧
      ∃ off', Stands env fd d' fat ino (splice old off ([10].intercalate (e.linesFrom n i))) off' := by
  induction n generalizing i d old off with
  | zero =>
    have hnil : [10].intercalate (e.linesFrom 0 i) = [] := rfl
    rw [hnil, FatContents.splice_nil]
    exact ⟨d, rfl, off, h⟩
  | succ n ih =>
    rw [intercalate_linesFrom_succ hi] at hlen ⊢
    rw [List.length_append, List.length_append] at hlen
    have hoff := h.off_le
    have hrow : (if 0 < e.lineLen i then e.rowBytes i else []) = e.rowBytes i := by
      split
      · rfl
      · rw [rowBytes, Int.toNat_eq_zero.2 (by omega)]
        rfl
    obtain ⟨d₁, hd₁, h₁⟩ := h.write_if hio (0 < e.lineLen i) (e.rowBytes i) (by rw [hrow]; omega)
    rw [hrow] at h₁
    obtain ⟨d₂, hd₂, h₂⟩ := h₁.write_if hio (i < e.numLines - 1) [10] (by omega)
    obtain ⟨d₃, hd₃, off₃, h₃⟩ := ih (i := i + 1) (by push_cast at hi; omega) h₂ (by omega)
    refine ⟨d₃, ?_, off₃, ?_⟩
    · rw [saveLoop, hd₁, Option.bind_eq_bind, Option.bind_some, hd₂, Option.bind_some, hd₃]
    · rwa [FatContents.splice_splice_append h₁.off_le, FatContents.splice_splice_append h.off_le] at h₃

theorem bufferLines_eq (e : Editor) : e.bufferLines = e.linesFrom e.numLines.toNat 0 := by
  simp only [bufferLines, linesFrom, Int.zero_add]

theorem length_rowBytes_le (e : Editor) (line : ℤ) : (e.rowBytes line).length ≤ 256 := by
  have hle := strlenFrom_le (e.lines line) 256 0
  rw [rowBytes, List.length_map, List.length_range, lineLen, rowLen]
  split <;> omega

theorem length_intercalate_le {lines : List (List UInt8)} (h : ∀ l ∈ lines, l.length ≤ 256) :
    ([10].intercalate lines).length ≤ 257 * lines.length := by
  induction lines with
  | nil => exact Nat.zero_le _
  | cons l lines ih =>
    have hl := h l List.mem_cons_self
    have ih := ih fun m hm => h m (List.mem_cons_of_mem _ hm)
    cases lines with
    | nil =>
      rw [List.intercalate_singleton, List.length_singleton]
      omega
    | cons m lines =>
      rw [List.intercalate_cons_cons, List.length_append, List.length_append, List.length_singleton,
        List.length_cons]
      omega

theorem length_text_le (e : Editor) : ([10].intercalate e.bufferLines).length ≤ 257 * e.numLines.toNat := by
  have hle := @length_intercalate_le e.bufferLines fun l hl => by
    obtain ⟨i, -, rfl⟩ := List.mem_map.1 hl
    exact e.length_rowBytes_le i
  rwa [bufferLines, List.length_map, List.length_range] at hle

/-- `save_file` overwrites the beginning of the file by the lines. -/
theorem saveFile_contents (env : RedirectEnv) (hio : env.WritesSucceed) (d : Disks) (e : Editor) 
    (path : List UInt8) (hlines : 0 ≤ e.numLines ∧ e.numLines ≤ 512) {v : Vfs}
    (hopen : vfsOpen d.vfs env.cred path ⟨true, false⟩ env.found = some (some fd, v))
    (hfat : onFat d.vfs path = true → d.fat.opened.Wf env.clusterBytes)
    (hfile : onFat d.vfs path = false → ∃ node, v.fileAt fd = some node ∧ node.Wf) :
    ∃ d', saveFile env d e path = some (0, d') ∧
      contentsOf d' (onFat d.vfs path) (v.fds fd).inode =
        splice (contentsAt d path) 0 ([10].intercalate e.bufferLines) := by
  obtain ⟨d', hsave, off, hstands⟩ := saveLoop_stands hio (e := e) (n := e.numLines.toNat) (i := 0) (by omega)
    (Stands.opened hopen hfat hfile) (by rw [← bufferLines_eq]; have := e.length_text_le; omega)
  refine ⟨{ d' with vfs := vfsClose d'.vfs fd }, ?_, ?_⟩
  · rw [saveFile, hopen, Option.bind_eq_bind, Option.bind_some]
    simp only
    rw [hsave]
    rfl
  · rw [hstands.contentsOf_eq, bufferLines_eq]

/-- After `save_file` the file is the lines joined by newlines exactly if it has not been longer before. -/
theorem save_file_exact_iff (env : RedirectEnv) (hio : env.WritesSucceed) (d : Disks) (e : Editor)
    (path : List UInt8) (hlines : 0 ≤ e.numLines ∧ e.numLines ≤ 512) (fd : Fd) (v : Vfs)
    (hopen : vfsOpen d.vfs env.cred path ⟨true, false⟩ env.found = some (some fd, v))
    (hfat : onFat d.vfs path = true → d.fat.opened.Wf env.clusterBytes)
    (hfile : onFat d.vfs path = false → ∃ node, v.fileAt fd = some node ∧ node.Wf) :
    ∃ d', saveFile env d e path = some (0, d') ∧
      (contentsOf d' (onFat d.vfs path) (v.fds fd).inode = [10].intercalate e.bufferLines ↔
        (contentsAt d path).length ≤ ([10].intercalate e.bufferLines).length) := by
  obtain ⟨d', hsave, hcontents⟩ := saveFile_contents env hio d e path hlines hopen hfat hfile
  exact ⟨d', hsave, by rw [hcontents, splice_zero_eq_iff]⟩

/-- An editor with the one line `cd`. -/
def oneLine : Editor where
  lines i j := if i = 0 ∧ j = 0 then 99 else if i = 0 ∧ j = 1 then 100 else 0
  numLines := 1
  cx := 0
  cy := 0
  scrollY := 0
  modified := false
  running := true

/-- The line is saved over `ab`. -/
theorem save_file_exact_same_length :
    ∃ d', saveFile mountedEnv mountedDisks oneLine [47, 109, 47, 102] = some (0, d') ∧
      contentsOf d' true 0 = [10].intercalate oneLine.bufferLines := by
  obtain ⟨d', hsave, hiff⟩ := save_file_exact_iff mountedEnv (fun _ _ => rfl) mountedDisks oneLine
    [47, 109, 47, 102] (by decide) 0 _ rfl (fun _ => ⟨by decide +kernel, by decide +kernel, by decide, by decide⟩)
    (fun h => by cases h)
  exact ⟨d', hsave, hiff.2 (by decide)⟩

/-- An editor with one empty line. -/
def emptyText : Editor := { oneLine with lines := fun _ _ => 0 }

/-- Saved over `ab`, it leaves `ab`. -/
theorem save_file_keeps_old_text :
    (saveFile mountedEnv mountedDisks emptyText [47, 109, 47, 102]).map
        (fun r => (r.1, contentsOf r.2 true 0)) = some (0, [97, 98]) ∧
      [10].intercalate emptyText.bufferLines = [] := by
  decide

end Editor

end PlantOS.Shell
