import PlantOS.Fs.FatContents
import PlantOS.Fs.RamfsFile

/-!
# Output redirection

Model of `execute_with_redirection` for `>` and `>>`: what the command prints is captured and then written to
the file. The command is what it does to the variables of the capture (`CaptureOp`). Only `kprintf` is
captured, not what a program prints by `SYS_WRITE`. There is one set of these variables, so a redirection or a
pipe in a script that the command runs takes them over.

The file is opened without truncation. For `>>`, `vfs_lseek` then goes to the end of the file, but not on the
FAT volume, where it returns -1; the result is not looked at. So `>` leaves what an old file has behind the
printed text, and `>>` on the FAT volume overwrites the file from its beginning.

Reference: `execute_with_redirection` and `execute_pipe_chain` in `shell/shell.c`, `lib/printf.c`,
`cpu/syscall.c`, `fs/vfs.c`.
-/

namespace PlantOS.Shell

open Fs Bytes

/-- The file systems; `fat` is the file that the path names if it lies on the FAT volume, empty if there is
none. -/
structure Disks where
  vfs : Vfs
  fat : FatContents

/-- What is fixed around the call: the size of a cluster, the data of new clusters and of new memory, and what
a `vfs_write` of the given bytes leaves if it fails. -/
structure RedirectEnv where
  cred : Cred
  found : OpenEnv
  clusterBytes : ℕ
  clusterBytes_pos : 0 < clusterBytes
  newCluster : ℕ → List UInt8
  length_newCluster : ∀ n, (newCluster n).length = clusterBytes
  newMemory : ℕ → UInt8
  failed : Disks → List UInt8 → Option Disks

/-- No `vfs_write` fails. -/
def RedirectEnv.WritesSucceed (env : RedirectEnv) : Prop := ∀ d text, env.failed d text = none

/-! ## The capture -/

/-- Where `redir_capture_buf` can point to: `NULL`, `capture_buf` and `pipe_buf`. -/
inductive CaptureBuf where
  | null
  | file
  | pipe
deriving DecidableEq

/-- The variables of the capture: whether `capture_fn` is `redir_capture_char`, `redir_capture_buf`,
`redir_capture_len`, and what is in the buffers. -/
structure Capture where
  on : Bool
  buf : CaptureBuf
  len : ℕ
  mem : CaptureBuf → ℕ → UInt8

/-- `redir_capture_char`. -/
def redirCaptureChar (s : Capture) (c : UInt8) : Capture :=
  if s.len < 4096 - 1 then
    { s with mem := Function.update s.mem s.buf (Function.update (s.mem s.buf) s.len c), len := s.len + 1 }
  else s

/-- What a command does to the capture. A command with `>` begins to capture into `capture_buf`, sets the
capture, clears it behind the command and drops the buffer; a pipe does the same with `pipe_buf`, but does not
set the capture if there is no command on its left. -/
inductive CaptureOp where
  | kprintf (c : UInt8)
  /-- `SYS_WRITE` of a character to the console. -/
  | console (c : UInt8)
  /-- `redir_capture_buf = buf; redir_capture_len = 0`. -/
  | begin (buf : CaptureBuf)
  | setCapture
  | clearCapture
  /-- `redir_capture_buf = NULL`. -/
  | drop

def captureStep (s : Capture) : CaptureOp → Capture
  | .kprintf c => if s.on then redirCaptureChar s c else s
  | .console _ => s
  | .begin buf => { s with buf := buf, len := 0 }
  | .setCapture => { s with on := true }
  | .clearCapture => { s with on := false }
  | .drop => { s with buf := .null }

/-- The bytes in the buffer. -/
def Capture.text (s : Capture) : List UInt8 := (List.range s.len).map (s.mem s.buf)

/-- The bytes that `execute_with_redirection` writes to the file when the command has run. -/
def captured (s : Capture) (ops : List CaptureOp) : List UInt8 :=
  let s := captureStep (captureStep s (.begin .file)) .setCapture
  (captureStep (ops.foldl captureStep s) .clearCapture).text

def CaptureOp.char : CaptureOp → Option UInt8
  | .kprintf c | .console c => some c
  | _ => none

/-- What a command prints. -/
def printed (ops : List CaptureOp) : List UInt8 := ops.filterMap CaptureOp.char

/-- The command prints by `kprintf` only, and neither redirects output itself nor starts a pipe. -/
def Plain (ops : List CaptureOp) : Prop := ∀ op ∈ ops, ∃ c, op = .kprintf c

/-- A character after the other. -/
theorem text_foldl_kprintf {ops : List CaptureOp} (hops : Plain ops) {s : Capture} (hon : s.on = true)
    (hlen : s.text.length + (printed ops).length < 4096) :
    (ops.foldl captureStep s).text = s.text ++ printed ops := by
  induction ops generalizing s with
  | nil => simp [printed]
  | cons op ops ih =>
    obtain ⟨c, rfl⟩ := hops op List.mem_cons_self
    have hprinted : printed (.kprintf c :: ops) = c :: printed ops := rfl
    rw [hprinted, List.length_cons] at hlen
    have hs : s.text.length = s.len := by simp [Capture.text]
    have hstep : captureStep s (.kprintf c) = { s with
        mem := Function.update s.mem s.buf (Function.update (s.mem s.buf) s.len c), len := s.len + 1 } := by
      rw [captureStep, if_pos hon, redirCaptureChar, if_pos (by omega)]
    have htext : (captureStep s (.kprintf c)).text = s.text ++ [c] := by
      rw [hstep, Capture.text, List.range_succ, List.map_append, Capture.text]
      simp only [Function.update_self, List.map_singleton]
      refine congrArg (· ++ [c]) (List.map_congr_left fun i hi => Function.update_of_ne ?_ ..)
      exact Nat.ne_of_lt (List.mem_range.1 hi)
    rw [List.foldl_cons, ih (fun op hop => hops op (List.mem_cons_of_mem _ hop)) (by rw [hstep]; exact hon)
      (by rw [htext, List.length_append, List.length_singleton]; omega), htext, hprinted, List.append_assoc,
      List.singleton_append]

/-- The text of a plain command is captured. -/
theorem captured_of_plain {ops : List CaptureOp} (hops : Plain ops) (hlen : (printed ops).length < 4096)
    (s : Capture) : captured s ops = printed ops :=
  text_foldl_kprintf hops (s := { s with on := true, buf := .file, len := 0 }) rfl
    (by simpa [Capture.text] using hlen)

/-- A program prints `a` by `SYS_WRITE`: nothing is captured. -/
example (s : Capture) : captured s [.console 97] = [] := rfl

/-- A script redirects the output `b` of a command and then prints `a`: a byte from the address 0 is written. -/
example (s : Capture) :
    captured s [.begin .file, .setCapture, .kprintf 98, .clearCapture, .drop, .kprintf 97] = [s.mem .null 0] :=
  rfl

/-! ## The redirection -/

/-- `vfs_write`. -/
def writeOutput (env : RedirectEnv) (d : Disks) (fd : Fd) (text : List UInt8) : Option Disks :=
  match env.failed d text with
  | some d => some d
  | none =>
    if (d.vfs.fds fd).used ∧ (d.vfs.fds fd).fatFd.isSome then
      some { d with fat := d.fat.write env.clusterBytes env.newCluster text }
    else (vfsWrite d.vfs fd text ⟨some env.newMemory, -1⟩).map fun r => { d with vfs := r.2 }

/-- `execute_with_redirection` behind the command `ops`. -/
def redirectOutput (env : RedirectEnv) (d : Disks) (path : List UInt8) (append : Bool) (s : Capture)
    (ops : List CaptureOp) : Option Disks := do
  let (fd, vfs) ← vfsOpen d.vfs env.cred path ⟨true, false⟩ env.found
  match fd with
  | none => pure { d with vfs := vfs }
  | some fd =>
    let vfs := if append then (vfsLseek vfs fd 0 .«end»).2 else vfs
    let d ← writeOutput env ⟨vfs, d.fat.opened⟩ fd (captured s ops)
    pure { d with vfs := vfsClose d.vfs fd }

/-- The contents of the file before: nothing if it does not exist. -/
def contentsAt (d : Disks) (path : List UInt8) : List UInt8 :=
  if onFat d.vfs path then d.fat.bytes
  else ((ramfsResolvePath d.vfs.inodes path).map fun ino => (d.vfs.inodes ino).bytes).getD []

/-- The contents of the file that was opened, afterwards. -/
def contentsOf (d : Disks) (onFat : Bool) (ino : ℕ) : List UInt8 :=
  if onFat then d.fat.bytes else (d.vfs.inodes ino).bytes

/-- What the shell means by a redirection. -/
def redirected (append : Bool) (old text : List UInt8) : List UInt8 := if append then old ++ text else text

/-- When a redirection does this. -/
def RedirectOk (append onFat : Bool) (old text : List UInt8) : Prop :=
  if append then onFat → old = [] ∨ text = [] else old.length ≤ text.length

/-! ## Contents -/

section

variable {old text : List UInt8}

theorem splice_zero : splice old 0 text = text ++ old.drop text.length := by
  rw [splice, List.take_zero, List.nil_append, Nat.zero_add]

theorem splice_length : splice old old.length text = old ++ text := by
  rw [splice, List.take_length, List.drop_eq_nil_of_le (Nat.le_add_right _ _), List.append_nil]

/-- Overwriting the beginning leaves exactly the text if there was not more. -/
theorem splice_zero_eq_iff : splice old 0 text = text ↔ old.length ≤ text.length := by
  rw [splice_zero, List.append_right_eq_self, List.drop_eq_nil_iff]

/-- Overwriting the beginning is appending only if one of the two is empty. -/
theorem splice_zero_eq_append_iff : splice old 0 text = old ++ text ↔ old = [] ∨ text = [] := by
  constructor
  · intro h
    have hlen := congrArg List.length h
    rw [splice_zero, List.length_append, List.length_append, List.length_drop] at hlen
    obtain h | h : old.length = 0 ∨ text.length = 0 := by omega
    · exact .inl (List.eq_nil_of_length_eq_zero h)
    · exact .inr (List.eq_nil_of_length_eq_zero h)
  · rintro (rfl | rfl) <;> simp [splice_zero]

end

/-! ## Opening -/

section

variable {v w : Vfs} {cred : Cred} {path : List UInt8} {env : OpenEnv} {fd : Fd}

theorem createNode_new {t t' : Inodes} {parent ino mode : ℕ} {name : List UInt8} {memory : Bool}
    (h : createNode t cred parent name .file mode memory = (some ino, t')) : (t' ino).size = 0 := by
  unfold createNode at h
  split at h
  · cases h
  · rename_i halloc
    obtain ⟨-, -, rfl⟩ := allocInode_eq_some halloc
    simp only [Function.update_self, Function.update_idem] at h
    split at h
    · cases h
    · rename_i hadd
      cases h
      obtain ⟨htype, capacity, rfl⟩ := dirAddEntry_eq_some hadd
      have hne : ino ≠ parent := by
        rintro rfl
        rw [Function.update_self] at htype
        cases htype
      rw [Function.update_of_ne hne, Function.update_self]
      rfl

/-- The contents of the file are not changed by opening it; a new file is empty. -/
theorem bytes_vfsOpenInode {memory : Bool} {ino : ℕ} {t : Inodes}
    (h : vfsOpenInode v cred path ⟨true, false⟩ memory = some (some ino, t)) :
    (t ino).bytes =
      ((ramfsResolvePath v.inodes path).map fun ino => (v.inodes ino).bytes).getD [] := by
  unfold vfsOpenInode at h
  cases hres : ramfsResolvePath v.inodes path with
  | none =>
    rw [hres] at h
    simp only [if_true, ramfsCreateFile, hres] at h
    split at h
    · cases h
    · split at h
      · split at h
        · cases h
        · have hsize := createNode_new (Option.some.inj h)
          exact List.eq_nil_of_length_eq_zero ((Inode.length_bytes _).trans hsize)
      · cases h
  | some i =>
    rw [hres] at h
    simp only [Bool.or_false, if_true] at h
    split at h
    · cases h
      rfl
    · split at h
      · cases h
        rfl
      · cases h

/-- On ramfs the descriptor stands at the beginning of the file. -/
theorem vfsOpen_ramfs (hfat : onFat v path = false)
    (h : vfsOpen v cred path ⟨true, false⟩ env = some (some fd, w)) :
    (w.fds fd).used = true ∧ (w.fds fd).pipe = none ∧ (w.fds fd).offset = 0 ∧
      (w.inodes (w.fds fd).inode).bytes =
        ((ramfsResolvePath v.inodes path).map fun ino => (v.inodes ino).bytes).getD [] := by
  rw [vfsOpen, if_neg (by simp [hfat])] at h
  obtain ⟨⟨ino, t⟩, hinode, h⟩ := Option.map_eq_some_iff.1 h
  simp only at h
  cases ino with
  | none => cases h
  | some ino =>
    cases halloc : allocFd { v with inodes := t } with
    | none =>
      rw [halloc] at h
      cases h
    | some r =>
      obtain ⟨fd', v'⟩ := r
      obtain ⟨-, rfl⟩ := allocFd_some halloc
      rw [halloc] at h
      simp only [Vfs.fds_setFd_self, Vfs.setFd_setFd, Bool.false_eq_true, if_false, Prod.mk.injEq,
        Option.some.injEq] at h
      obtain ⟨rfl, rfl⟩ := h
      rw [Vfs.fds_setFd_self]
      exact ⟨rfl, rfl, rfl, bytes_vfsOpenInode hinode⟩

/-- A path on the FAT volume gets a description with a handle of the volume. -/
theorem vfsOpen_fat (hfat : onFat v path = true)
    (h : vfsOpen v cred path ⟨true, false⟩ env = some (some fd, w)) :
    (w.fds fd).used = true ∧ (w.fds fd).fatFd.isSome := by
  rw [vfsOpen, if_pos hfat, vfsOpenFat] at h
  split_ifs at h
  · split at h
    · cases h
    · split at h
      · cases h
      · rename_i halloc
        obtain ⟨-, rfl⟩ := allocFd_some halloc
        cases h
        simp [VfsFd.fresh]
  · cases h

end

/-! ## Writing -/

/-- On the FAT volume, all of the text is written at the offset. -/
theorem writeOutput_fat {env : RedirectEnv} (hio : env.WritesSucceed) {d : Disks} {fd : Fd}
    (hused : (d.vfs.fds fd).used = true) (hfd : (d.vfs.fds fd).fatFd.isSome) (text : List UInt8) :
    writeOutput env d fd text = some { d with fat := d.fat.write env.clusterBytes env.newCluster text } := by
  rw [writeOutput, hio]
  exact if_pos ⟨hused, hfd⟩

theorem writeOutput_vfs {env : RedirectEnv} (hio : env.WritesSucceed) {d : Disks} {fd : Fd}
    (hfd : (d.vfs.fds fd).fatFd = none) (text : List UInt8) :
    writeOutput env d fd text =
      (vfsWrite d.vfs fd text ⟨some env.newMemory, -1⟩).map fun r => { d with vfs := r.2 } := by
  rw [writeOutput, hio]
  exact if_neg (by simp [hfd])

/-- In the RAM file system, the text goes over what is at the offset; the rest of the file stays. -/
theorem writeOutput_ramfs {env : RedirectEnv} (hio : env.WritesSucceed) (fat : FatContents) (text : List UInt8)
    {v : Vfs} {fd : Fd} {node : Inode} (hused : (v.fds fd).used = true) (hat : v.fileAt fd = some node)
    (hwf : node.Wf) (hoff : (v.fds fd).offset ≤ node.size) (hfits : (v.fds fd).offset + text.length < 2 ^ 31) :
    ∃ w, writeOutput env ⟨v, fat⟩ fd text = some ⟨w, fat⟩ ∧
      (w.inodes (v.fds fd).inode).bytes = splice node.bytes (v.fds fd).offset text := by
  rw [writeOutput_vfs hio (Vfs.fileAt_eq_some.1 hat).1]
  obtain ⟨hmem, -⟩ | ⟨node', hwrite, hwritten⟩ :=
    vfsWrite_of_fileAt hused hat hwf hfits ⟨some env.newMemory, -1⟩
  · cases hmem
  · rw [hwrite]
    refine ⟨_, rfl, ?_⟩
    rw [← hwritten.bytes hoff, Vfs.wrote, Vfs.inodes_setFd, Vfs.inodes_setInode_self]

/-- What `>>` does before it writes to a file of ramfs. -/
theorem vfsLseek_end {v : Vfs} {fd : Fd} {node : Inode} (hused : (v.fds fd).used = true)
    (hpipe : (v.fds fd).pipe = none) (hoff : (v.fds fd).offset = 0) (hat : v.fileAt fd = some node)
    (hsize : node.size < 2 ^ 31) :
    (vfsLseek v fd 0 .«end»).2 = v.setFd fd { v.fds fd with offset := node.size } := by
  have hseek : ∀ base ∈ seekBase node.size (v.fds fd).offset .«end», (base : ℤ) + 0 < 2 ^ 31 := by
    rintro _ ⟨⟩
    omega
  rw [vfsLseek_of_fileAt hused hpipe hat (by omega) hsize (by decide) hseek]
  simp [seekBase]

/-- A volume mounted at `/m`, with the file `/m/f` that has the contents `ab`. -/
def mountedDisks : Disks :=
  ⟨vfsInit (some [47, 109]), ⟨[97, 98] ++ List.replicate 510 0, 1, 2, 0, 0⟩⟩

def mountedEnv : RedirectEnv where
  cred := ⟨0, 0⟩
  found := ⟨true, true⟩
  clusterBytes := 512
  clusterBytes_pos := by decide
  newCluster := fun _ => List.replicate 512 0
  length_newCluster := fun _ => List.length_replicate
  newMemory := fun _ => 0
  failed := fun _ _ => none

/-- The capture before the first redirection. -/
def noCapture : Capture := ⟨false, .null, 0, fun _ _ => 0⟩

end PlantOS.Shell
