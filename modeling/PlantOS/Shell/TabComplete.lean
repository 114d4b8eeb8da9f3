import PlantOS.Kernel.PathResolve
import Mathlib.Data.List.DropRight

/-!
# Tab completion

Model of `tab_complete`: the new input line, and how many bytes are stored in each of the buffers. The names
of a directory come from a parameter.

The name to be completed is copied into a buffer of 64 bytes, and the new line into one of 256 bytes, without
a check of their lengths.

Reference: `tab_complete` in `shell/shell.c`.
-/

namespace PlantOS.Shell

open Kernel

/-- The buffers of `tab_complete`. -/
inductive TabBuffer where
  | inputBuf
  | dirPath
  | partialDir
  | namePrefix
  | matchBuf
  | newArg
  | temp
  deriving DecidableEq

/-- The size of a buffer. -/
def TabBuffer.size : TabBuffer → ℕ
  | .namePrefix => 64
  | .matchBuf => 60
  | .inputBuf | .dirPath | .partialDir | .newArg | .temp => 256

/-- A name in a directory: `VFS_NAME_MAX` is 60. -/
abbrev DirName := {n : List UInt8 // n.length < 60}

/-- The input line after a tab, and the buffers with the number of bytes stored in them. -/
structure TabResult where
  input : List UInt8
  stores : List (TabBuffer × ℕ)

/-! ## The parts of the line -/

/-- What is before the last argument: the line up to its last blank. -/
def beforeArg (input : List UInt8) : List UInt8 := input.rdropWhile (· ≠ 32)

/-- The last argument. -/
def lastArg (input : List UInt8) : List UInt8 := input.rtakeWhile (· ≠ 32)

/-- The directory part of an argument: all up to its last slash. -/
def dirPart (arg : List UInt8) : List UInt8 := arg.rdropWhile (· ≠ 47)

/-- The part of an argument that is completed. -/
def namePart (arg : List UInt8) : List UInt8 := arg.rtakeWhile (· ≠ 47)

/-- `dir_path`: the directory of the argument, or the current directory. -/
def argDir (cwd arg : List UInt8) : List UInt8 :=
  pathResolve cwd (if dirPart arg = [] then dot else dirPart arg) 256

/-! ## Completion -/

/-- Completion of the name of a command. -/
def completeCommand (commands : List (List UInt8)) (input : List UInt8) : TabResult :=
  match commands.filter (input.isPrefixOf ·) with
  | [name] =>
    let line := name.take 255
    if line.length < 255 then ⟨line ++ [32], [(.inputBuf, line.length + 1), (.inputBuf, line.length + 1)]⟩
    else ⟨line, [(.inputBuf, line.length + 1)]⟩
  | _ => ⟨input, []⟩

/-- The stores before the directory is read. -/
def argStores (cwd arg : List UInt8) : List (TabBuffer × ℕ) :=
  (if dirPart arg = [] then [] else [(.partialDir, (dirPart arg).length + 1)]) ++
    [(.namePrefix, (namePart arg).length + 1), (.dirPath, (argDir cwd arg).length + 1)]

/-- Completion of the name of a file in the last argument. -/
def completeFile (cwd : List UInt8) (readDir : List UInt8 → Option (List DirName)) (input : List UInt8) :
    TabResult :=
  let arg := lastArg input
  if arg = [] then ⟨input, []⟩
  else
    match readDir (argDir cwd arg) with
    | none => ⟨input, argStores cwd arg⟩
    | some names =>
      let found := names.filter fun n => (namePart arg).isPrefixOf n.1
      let stores := argStores cwd arg ++ found.map fun n => (.matchBuf, n.1.length + 1)
      match found with
      | [name] =>
        let newArg := dirPart arg ++ name.1
        let line := beforeArg input ++ newArg
        ⟨line, stores ++
          [(.newArg, newArg.length + 1), (.temp, line.length + 1), (.inputBuf, line.length + 1)]⟩
      | _ => ⟨input, stores⟩

/-- `tab_complete`. -/
def tabComplete (commands : List (List UInt8)) (cwd : List UInt8)
    (readDir : List UInt8 → Option (List DirName)) (input : List UInt8) : TabResult :=
  if input = [] then ⟨input, []⟩
  else
    let r := if 32 ∈ input then completeFile cwd readDir input else completeCommand commands input
    { r with stores := (.inputBuf, input.length + 1) :: r.stores }

/-! ## Safety -/

/-- The line is extended, it fits into its buffer, and the stores are inside the buffers. -/
structure TabSafe (input : List UInt8) (r : TabResult) : Prop where
  extends_line : input <+: r.input
  fits : r.input.length ≤ 255
  inside : ∀ st ∈ r.stores, st.2 ≤ st.1.size

/-- The name to be completed has less than 64 characters, and if there is one match for it then the new line
has less than 256. -/
def TabFits (cwd : List UInt8) (readDir : List UInt8 → Option (List DirName)) (input : List UInt8) : Prop :=
  32 ∈ input → lastArg input ≠ [] →
    (namePart (lastArg input)).length < 64 ∧
      ∀ names name, readDir (argDir cwd (lastArg input)) = some names →
        (names.filter fun n => (namePart (lastArg input)).isPrefixOf n.1) = [name] →
          (beforeArg input ++ (dirPart (lastArg input) ++ name.1)).length < 256

section

variable {commands : List (List UInt8)} {cwd input : List UInt8}
  {readDir : List UInt8 → Option (List DirName)}

theorem length_joinLoop_le (comps : List (List UInt8)) {out : List UInt8} (h : out.length ≤ 254) :
    (joinLoop 256 comps out).length ≤ 254 := by
  induction comps generalizing out with
  | nil => exact h
  | cons comp comps ih =>
    rw [joinLoop]
    have hlen : (out ++ [47]).length = out.length + 1 := List.length_append
    split
    · dsimp only
      split
      · omega
      · refine ih ?_
        rw [List.length_append]
        omega
    · exact h

theorem length_pathResolve_le (cwd input : List UInt8) : (pathResolve cwd input 256).length ≤ 254 := by
  rw [pathResolve]
  split
  · decide
  · exact length_joinLoop_le _ (by decide)

/-- The only match extends what has been typed. -/
theorem extends_of_filter {α : Type*} {f : α → List UInt8} {names : List α} {name : α} {typed : List UInt8}
    (h : (names.filter fun n => typed.isPrefixOf (f n)) = [name]) : typed <+: f name := by
  have hmem : name ∈ names.filter fun n => typed.isPrefixOf (f n) := by
    rw [h]
    exact List.mem_singleton_self _
  exact List.isPrefixOf_iff_prefix.1 (List.mem_filter.1 hmem).2

/-- Completion of a command cuts the name to the buffer. -/
theorem completeCommand_safe (hlen : input.length ≤ 255) :
    TabSafe input (completeCommand commands input) := by
  rw [completeCommand]
  split
  · rename_i name hfound
    have hpre : input <+: name.take 255 := by
      rw [List.prefix_take_iff]
      exact ⟨extends_of_filter (f := id) hfound, hlen⟩
    have hle : (name.take 255).length ≤ 255 := by rw [List.length_take]; omega
    dsimp only
    split
    · rename_i hlt
      refine ⟨hpre.trans (List.prefix_append _ _), ?_, fun st hst => ?_⟩
      · rw [List.length_append, List.length_singleton]
        omega
      · obtain rfl : st = (.inputBuf, (name.take 255).length + 1) := by simpa using hst
        exact Nat.succ_le_succ hle
    · refine ⟨hpre, hle, fun st hst => ?_⟩
      obtain rfl := List.mem_singleton.1 hst
      exact Nat.succ_le_succ hle
  · exact ⟨List.prefix_refl _, hlen, fun _ hst => absurd hst List.not_mem_nil⟩

theorem beforeArg_append (input : List UInt8) : beforeArg input ++ lastArg input = input :=
  List.rdropWhile_append_rtakeWhile ..

theorem dirPart_append (arg : List UInt8) : dirPart arg ++ namePart arg = arg :=
  List.rdropWhile_append_rtakeWhile ..

/-- The stores before the directory is read are inside exactly if the name fits. -/
theorem argStores_inside (hlen : input.length ≤ 255) :
    (∀ st ∈ argStores cwd (lastArg input), st.2 ≤ st.1.size) ↔ (namePart (lastArg input)).length < 64 := by
  have hdir : (dirPart (lastArg input)).length ≤ 255 := by
    have h₁ := congrArg List.length (beforeArg_append input)
    have h₂ := congrArg List.length (dirPart_append (lastArg input))
    rw [List.length_append] at h₁ h₂
    omega
  have hpath : (argDir cwd (lastArg input)).length ≤ 254 := length_pathResolve_le _ _
  rw [argStores]
  split
  · simp only [List.nil_append, List.forall_mem_cons, TabBuffer.size]
    simp
    omega
  · simp only [List.cons_append, List.nil_append, List.forall_mem_cons, TabBuffer.size]
    simp
    omega

/-- An unchanged line. -/
theorem tabSafe_same (hlen : input.length ≤ 255) {stores : List (TabBuffer × ℕ)} :
    TabSafe input ⟨input, stores⟩ ↔ ∀ st ∈ stores, st.2 ≤ st.1.size :=
  ⟨fun h => h.inside, fun h => ⟨List.prefix_refl _, hlen, h⟩⟩

/-- The new line. -/
theorem tabSafe_completed {name : List UInt8} (hname : namePart (lastArg input) <+: name)
    {stores : List (TabBuffer × ℕ)} :
    TabSafe input ⟨beforeArg input ++ (dirPart (lastArg input) ++ name),
        stores ++ [(.newArg, (dirPart (lastArg input) ++ name).length + 1),
          (.temp, (beforeArg input ++ (dirPart (lastArg input) ++ name)).length + 1),
          (.inputBuf, (beforeArg input ++ (dirPart (lastArg input) ++ name)).length + 1)]⟩ ↔
      (∀ st ∈ stores, st.2 ≤ st.1.size) ∧
        (beforeArg input ++ (dirPart (lastArg input) ++ name)).length < 256 := by
  have hline : input <+: beforeArg input ++ (dirPart (lastArg input) ++ name) := by
    conv_lhs => rw [← beforeArg_append input, ← dirPart_append (lastArg input)]
    rwa [List.prefix_append_right_inj, List.prefix_append_right_inj]
  have hle : (dirPart (lastArg input) ++ name).length ≤
      (beforeArg input ++ (dirPart (lastArg input) ++ name)).length :=
    (List.sublist_append_right _ _).length_le
  generalize (dirPart (lastArg input) ++ name).length = k at hle
  constructor
  · intro h
    refine ⟨fun st hst => h.inside st (List.mem_append_left _ hst), ?_⟩
    have := h.fits
    dsimp only at this
    omega
  · rintro ⟨hstores, hlt⟩
    refine ⟨hline, by dsimp only; omega, fun st hst => ?_⟩
    obtain hst | hst := List.mem_append.1 hst
    · exact hstores st hst
    · simp only [List.mem_cons, List.not_mem_nil, or_false] at hst
      obtain rfl | rfl | rfl := hst <;> simp only [TabBuffer.size] <;> omega

/-- Completion of a file name checks no lengths, and is safe exactly if they fit. -/
theorem completeFile_safe_iff (hlen : input.length ≤ 255) (hspace : 32 ∈ input) :
    TabSafe input (completeFile cwd readDir input) ↔ TabFits cwd readDir input := by
  have hstores : (∀ st ∈ argStores cwd (lastArg input), st.2 ≤ st.1.size) ↔
      (namePart (lastArg input)).length < 64 := argStores_inside hlen
  rw [completeFile, TabFits]
  dsimp only
  split
  · rename_i harg
    refine iff_of_true ((tabSafe_same hlen).2 fun _ hst => absurd hst List.not_mem_nil) fun _ hne => ?_
    exact absurd harg hne
  rename_i harg
  simp only [hspace, harg, ne_eq, not_false_eq_true, forall_const]
  cases hdir : readDir (argDir cwd (lastArg input)) with
  | none =>
    dsimp only
    rw [tabSafe_same hlen, hstores]
    exact (and_iff_left fun _ _ heq => by cases heq).symm
  | some names =>
    -- The names of a directory fit in their buffer, so only the last argument matters.
    have hmatch : ∀ st ∈ (names.filter fun n => (namePart (lastArg input)).isPrefixOf n.1).map
        fun n : DirName => (TabBuffer.matchBuf, n.1.length + 1), st.2 ≤ st.1.size := by
      intro st hst
      obtain ⟨n, -, rfl⟩ := List.mem_map.1 hst
      exact n.2
    have hall : (∀ st ∈ argStores cwd (lastArg input) ++
        (names.filter fun n => (namePart (lastArg input)).isPrefixOf n.1).map
          fun n : DirName => (TabBuffer.matchBuf, n.1.length + 1), st.2 ≤ st.1.size) ↔
        (namePart (lastArg input)).length < 64 := by
      rw [List.forall_mem_append, hstores]
      exact and_iff_left hmatch
    dsimp only
    split
    · rename_i name hfound
      rw [tabSafe_completed (extends_of_filter hfound), hall]
      refine and_congr_right fun _ => ⟨fun h names' name' heq hfound' => ?_, fun h => h names name rfl hfound⟩
      obtain rfl := Option.some.inj heq
      obtain rfl : name = name' := by simpa using hfound.symm.trans hfound'
      exact h
    · rename_i hfound
      rw [tabSafe_same hlen, hall]
      refine (and_iff_left fun names' name' heq hfound' => ?_).symm
      obtain rfl := Option.some.inj heq
      exact absurd hfound' (hfound name')

end

/-- Tab extends the line and stores only inside its buffers exactly if the name to be completed and the new
line fit. -/
theorem tab_complete_safe_iff (commands : List (List UInt8)) (cwd : List UInt8)
    (readDir : List UInt8 → Option (List DirName)) (input : List UInt8) (hlen : input.length ≤ 255) :
    TabSafe input (tabComplete commands cwd readDir input) ↔ TabFits cwd readDir input := by
  have hfirst : ∀ r : TabResult,
      TabSafe input { r with stores := (.inputBuf, input.length + 1) :: r.stores } ↔
      TabSafe input r := by
    intro r
    refine ⟨fun h => ⟨h.extends_line, h.fits, fun st hst => h.inside st (List.mem_cons_of_mem _ hst)⟩,
      fun h => ⟨h.extends_line, h.fits, fun st hst => ?_⟩⟩
    obtain rfl | hst := List.mem_cons.1 hst
    · exact Nat.succ_le_succ hlen
    · exact h.inside st hst
  rw [tabComplete]
  split
  · rename_i hnil
    subst hnil
    exact iff_of_true ((tabSafe_same hlen).2 fun _ hst => absurd hst List.not_mem_nil)
      fun hspace => absurd hspace List.not_mem_nil
  dsimp only
  rw [hfirst]
  split
  · rename_i hspace
    exact completeFile_safe_iff hlen hspace
  · rename_i hspace
    exact iff_of_true (completeCommand_safe hlen) fun h => absurd h hspace

/-- `cat x` in a directory with one file `xy`. -/
theorem tab_complete_safe_short :
    [99, 97, 116, 32, 120].length ≤ 255 ∧
      (TabSafe [99, 97, 116, 32, 120] (tabComplete [] [47] (fun _ => some [⟨[120, 121], by decide⟩])
          [99, 97, 116, 32, 120]) ↔
        TabFits [47] (fun _ => some [⟨[120, 121], by decide⟩]) [99, 97, 116, 32, 120]) :=
  ⟨by decide, tab_complete_safe_iff _ _ _ _ (by decide)⟩

/-- After `x` and a blank, a name of 64 characters overruns the buffer for the name. -/
theorem tab_complete_overruns :
    (120 :: 32 :: List.replicate 64 120).length = 66 ∧
      (TabBuffer.namePrefix, 65) ∈
        (tabComplete [] [47] (fun _ => none) (120 :: 32 :: List.replicate 64 120)).stores ∧
      TabBuffer.namePrefix.size = 64 := by
  have harg : lastArg (120 :: 32 :: List.replicate 64 120) = List.replicate 64 120 := by decide +kernel
  have hdir : dirPart (List.replicate 64 120) = [] := by decide +kernel
  refine ⟨by decide, ?_, rfl⟩
  rw [tabComplete, if_neg (by decide)]
  dsimp only
  rw [if_pos (by decide), completeFile]
  dsimp only
  rw [harg, if_neg (by decide), argStores, if_pos hdir]
  exact List.mem_cons_of_mem _ List.mem_cons_self

end PlantOS.Shell
