import PlantOS.Fs.Path
import Mathlib.Data.List.Flatten
import Mathlib.Data.List.Infix
import Mathlib.Order.Bounds.Basic

/-!
# Path resolution

Model of `path_resolve`. The path is made absolute, cut into its components, and put together again from the
components on a stack of 64 pointers.

The result is the canonical path unless a limit is met: `depth >= 64` ends the loop over the components, and
a path of exactly 255 characters loses its last component, because the buffer is compared with
`outsize - 1` where the NUL would still fit.

Reference: `kernel/env.c`.
-/

namespace PlantOS.Kernel

open Fs

/-- `.` -/
def dot : List UInt8 := [46]

/-- `..` -/
def dotDot : List UInt8 := [46, 46]

/-- `temp`. A current directory has at most 254 characters, so that the length given to `strncpy` is not
negative. -/
def absolutePath (cwd input : List UInt8) : List UInt8 :=
  if input.head? = some 47 then input.take 255
  else
    let dir := if 1 < cwd.length then cwd ++ [47] else cwd
    dir ++ input.take (255 - dir.length)

/-- Behind the slashes a component starts. -/
theorem exists_component {p : List UInt8} (h : p.dropWhile (· = 47) ≠ []) :
    ∃ comp rest, comp ≠ [] ∧ 47 ∉ comp ∧ (rest = [] ∨ rest.head? = some 47) ∧
      (p.dropWhile (· = 47)).takeWhile (· ≠ 47) = comp ∧ (p.dropWhile (· = 47)).dropWhile (· ≠ 47) = rest ∧
      p.dropWhile (· = 47) = comp ++ rest ∧ rest.length < p.length := by
  have hhead := List.head_dropWhile_not (fun c : UInt8 => decide (c = 47)) h
  have hle := (List.dropWhile_suffix (fun c : UInt8 => decide (c = 47)) (l := p)).length_le
  generalize p.dropWhile (· = 47) = start at h hhead hle
  have hne : start.takeWhile (· ≠ 47) ≠ [] := by
    cases start with
    | nil => exact absurd rfl h
    | cons c t =>
      have hc : c ≠ 47 := of_decide_eq_false hhead
      rw [List.takeWhile_cons, if_pos (decide_eq_true hc)]
      exact List.cons_ne_nil _ _
  have hslash : 47 ∉ start.takeWhile (· ≠ 47) := fun hmem => by
    have hc := List.mem_takeWhile_imp hmem
    exact of_decide_eq_true hc rfl
  refine ⟨_, _, hne, hslash, ?_, rfl, rfl, (List.takeWhile_append_dropWhile).symm, ?_⟩
  · by_cases hrest : start.dropWhile (· ≠ 47) = []
    · exact .inl hrest
    · have hslash := List.head_dropWhile_not (fun c : UInt8 => decide (c ≠ 47)) hrest
      rw [List.head?_eq_some_head hrest]
      exact .inr (congrArg some (not_not.1 (of_decide_eq_false hslash)))
  · have hlen := congrArg List.length (List.takeWhile_append_dropWhile (p := (· ≠ 47)) (l := start))
    have := List.length_pos_of_ne_nil hne
    rw [List.length_append] at hlen
    omega

/-- The loop over the components. `comps` is the stack, with the top at the end. -/
def resolveLoop (comps : List (List UInt8)) (p : List UInt8) : List (List UInt8) :=
  let start := p.dropWhile (· = 47)
  if start = [] then comps
  else
    let comp := start.takeWhile (· ≠ 47)
    let rest := start.dropWhile (· ≠ 47)
    if comp = dot then resolveLoop comps rest
    else if comp = dotDot then resolveLoop comps.dropLast rest.tail
    else if 64 ≤ (comps ++ [comp]).length then comps ++ [comp]
    else resolveLoop (comps ++ [comp]) rest.tail
termination_by p.length
decreasing_by
  all_goals
    obtain ⟨_, rest, -, -, -, -, hrest, -, hlt⟩ := exists_component ‹_›
    rw [← hrest] at hlt
    first | exact hlt | exact (List.length_tail ▸ Nat.sub_le _ _).trans_lt hlt

/-- The loop that puts the components into the output buffer. -/
def joinLoop (outsize : ℕ) : List (List UInt8) → List UInt8 → List UInt8
  | [], out => out
  | comp :: comps, out =>
    if out.length < outsize - 2 then
      let out := out ++ [47]
      if outsize - 1 ≤ out.length + comp.length then out else joinLoop outsize comps (out ++ comp)
    else out

/-- `path_resolve`: the string in `output`. -/
def pathResolve (cwd input : List UInt8) (outsize : ℕ) : List UInt8 :=
  let comps := resolveLoop [] (absolutePath cwd input)
  if comps = [] then [47] else joinLoop outsize comps []

/-! ## Canonical paths -/

/-- What a component does to those before it. -/
def stepComponent (comps : List (List UInt8)) (comp : List UInt8) : List (List UInt8) :=
  if comp = dot then comps else if comp = dotDot then comps.dropLast else comps ++ [comp]

/-- The components that remain. -/
def remaining (comps : List (List UInt8)) : List (List UInt8) := comps.foldl stepComponent []

/-- A slash before each component, and the root for no component. -/
def joinPath (comps : List (List UInt8)) : List UInt8 :=
  if comps = [] then [47] else comps.flatMap (47 :: ·)

/-- The canonical form of an absolute path. -/
def canonicalPath (path : List UInt8) : List UInt8 := joinPath (remaining (segments path))

/-- A name that can stay in a canonical path. -/
structure IsName (comp : List UInt8) : Prop where
  ne_nil : comp ≠ []
  slash : 47 ∉ comp
  ne_dot : comp ≠ dot
  ne_dotDot : comp ≠ dotDot

/-- A canonical path. -/
def IsCanonical (path : List UInt8) : Prop := ∃ comps, (∀ c ∈ comps, IsName c) ∧ path = joinPath comps

/-- The absolute form of a path: the path itself, or directory, slash and path. -/
def absoluteForm (cwd input : List UInt8) : List UInt8 :=
  if input.head? = some 47 then input else cwd ++ 47 :: input

/-- As soon as 64 components remain, those that follow change nothing. -/
def WithinDepth (comps : List (List UInt8)) : Prop :=
  ∀ k, IsLeast {k | (remaining (comps.take k)).length = 64} k → remaining comps = remaining (comps.take k)

/-! ## The loop over the components -/

/-- The loop over the components, when they have been cut. -/
def pushComponents : List (List UInt8) → List (List UInt8) → List (List UInt8)
  | comps, [] => comps
  | comps, comp :: cs =>
    if comp = dot then pushComponents comps cs
    else if comp = dotDot then pushComponents comps.dropLast cs
    else if 64 ≤ (comps ++ [comp]).length then comps ++ [comp]
    else pushComponents (comps ++ [comp]) cs

theorem segments_dropWhile (p : List UInt8) : segments (p.dropWhile (· = 47)) = segments p := by
  induction p with
  | nil => rfl
  | cons c p ih =>
    by_cases hc : c = 47
    · subst hc
      rw [List.dropWhile_cons, if_pos (decide_eq_true rfl), ih]
      exact (segments_append_slash [] p).symm
    · rw [List.dropWhile_cons, if_neg (by simpa using hc)]

/-- The components behind the first one. -/
theorem segments_rest {rest : List UInt8} (h : rest = [] ∨ rest.head? = some 47) :
    segments rest = segments rest.tail := by
  obtain rfl | h := h
  · rfl
  · obtain ⟨t, rfl⟩ := List.head?_eq_some_iff.1 h
    exact segments_append_slash [] t

theorem segments_component {comp rest : List UInt8} (hne : comp ≠ []) (hslash : 47 ∉ comp)
    (h : rest = [] ∨ rest.head? = some 47) : segments (comp ++ rest) = comp :: segments rest.tail := by
  have hcomp := segments_of_notMem hslash
  rw [if_neg hne] at hcomp
  obtain rfl | h := h
  · rw [List.append_nil, hcomp]
    rfl
  · obtain ⟨t, rfl⟩ := List.head?_eq_some_iff.1 h
    rw [segments_append_slash, hcomp]
    rfl

theorem resolveLoop_eq (comps : List (List UInt8)) (p : List UInt8) :
    resolveLoop comps p = pushComponents comps (segments p) := by
  induction hn : p.length using Nat.strong_induction_on generalizing comps p with
  | _ n ih =>
    subst hn
    rw [resolveLoop, ← segments_dropWhile p]
    split
    · rename_i hstart
      rw [hstart]
      rfl
    · rename_i hstart
      obtain ⟨comp, rest, hne, hslash, hrest, hcomp, hdrop, happ, hlt⟩ := exists_component hstart
      have htail : rest.tail.length < p.length := (List.length_tail ▸ Nat.sub_le _ _).trans_lt hlt
      rw [hcomp, hdrop, happ, segments_component hne hslash hrest, pushComponents]
      dsimp only
      rw [ih _ hlt comps rest rfl, ih _ htail comps.dropLast rest.tail rfl,
        ih _ htail (comps ++ [comp]) rest.tail rfl, segments_rest hrest]

theorem pushComponents_cons {comps : List (List UInt8)} (c : List UInt8) (cs : List (List UInt8))
    (h : comps.length < 64) :
    pushComponents comps (c :: cs) =
      if (stepComponent comps c).length = 64 then stepComponent comps c
      else pushComponents (stepComponent comps c) cs := by
  rw [pushComponents, stepComponent]
  split
  · rw [if_neg h.ne]
  split
  · have : comps.dropLast.length = comps.length - 1 := List.length_dropLast
    rw [if_neg (by omega)]
  · rw [List.length_append, List.length_singleton]
    exact if_congr (by omega) rfl rfl

/-- Either the limit is never met, or the loop stops at the first component with which 64 remain. -/
theorem pushComponents_eq (comps cs : List (List UInt8)) (h : comps.length < 64) :
    (pushComponents comps cs = cs.foldl stepComponent comps ∧
        ∀ k, ((cs.take k).foldl stepComponent comps).length < 64) ∨
      ∃ k, pushComponents comps cs = (cs.take k).foldl stepComponent comps ∧
        IsLeast {k | ((cs.take k).foldl stepComponent comps).length = 64} k := by
  induction cs generalizing comps with
  | nil => exact .inl ⟨rfl, fun k => by rwa [List.take_nil]⟩
  | cons c cs ih =>
    rw [pushComponents_cons c cs h]
    have hle : (stepComponent comps c).length ≤ 64 := by
      rw [stepComponent]
      split
      · exact h.le
      split
      · rw [List.length_dropLast]
        omega
      · rw [List.length_append, List.length_singleton]
        omega
    by_cases hfull : (stepComponent comps c).length = 64
    · rw [if_pos hfull]
      refine .inr ⟨1, rfl, hfull, fun k hk => ?_⟩
      cases k with
      | zero => exact absurd hk h.ne
      | succ k => omega
    rw [if_neg hfull]
    obtain ⟨heq, hlt⟩ | ⟨k, heq, hk, hleast⟩ := ih _ (lt_of_le_of_ne hle hfull)
    · refine .inl ⟨heq, fun k => ?_⟩
      cases k with
      | zero => exact h
      | succ k => exact hlt k
    · refine .inr ⟨k + 1, heq, hk, fun j hj => ?_⟩
      cases j with
      | zero => exact absurd hj h.ne
      | succ j => exact Nat.succ_le_succ (hleast hj)

/-- The limit of the stack matters unless the components are within the depth. -/
theorem pushComponents_iff (cs : List (List UInt8)) :
    pushComponents [] cs = remaining cs ↔ WithinDepth cs := by
  obtain ⟨heq, hlt⟩ | ⟨k, heq, hk⟩ := pushComponents_eq [] cs (by decide)
  · exact iff_of_true heq fun k hk => absurd hk.1 (hlt k).ne
  · rw [heq]
    constructor
    · intro h j hj
      rw [hj.unique hk]
      exact h.symm
    · intro h
      exact (h k hk).symm

/-- At most 64 components are kept. -/
theorem pushComponents_length (cs : List (List UInt8)) : (pushComponents [] cs).length ≤ 64 := by
  obtain ⟨heq, hlt⟩ | ⟨k, heq, hk, -⟩ := pushComponents_eq [] cs (by decide)
  · have := hlt cs.length
    rw [List.take_length] at this
    rw [heq]
    exact this.le
  · rw [heq]
    exact hk.le

/-! ## Names -/

/-- Components are dropped and never made up. -/
theorem foldl_stepComponent_sublist (comps cs : List (List UInt8)) :
    (cs.foldl stepComponent comps).Sublist (comps ++ cs) := by
  induction cs generalizing comps with
  | nil => rw [List.append_nil]; rfl
  | cons c cs ih =>
    refine (ih _).trans ?_
    rw [stepComponent]
    split
    · exact List.Sublist.append_left (List.sublist_cons_self c cs) comps
    split
    · exact (List.dropLast_sublist comps).append (List.sublist_cons_self c cs)
    · rw [List.append_assoc]
      rfl

/-- Components are left out, but none are made up and the order stays. -/
theorem pushComponents_sublist (cs : List (List UInt8)) : (pushComponents [] cs).Sublist cs := by
  obtain ⟨heq, -⟩ | ⟨k, heq, -⟩ := pushComponents_eq [] cs (by decide)
  · rw [heq]
    exact foldl_stepComponent_sublist [] cs
  · rw [heq]
    exact (foldl_stepComponent_sublist [] _).trans (List.take_sublist k cs)

/-- Names are all kept. -/
theorem foldl_stepComponent_of_names {comps cs : List (List UInt8)} (h : ∀ c ∈ cs, IsName c) :
    cs.foldl stepComponent comps = comps ++ cs := by
  induction cs generalizing comps with
  | nil => rw [List.append_nil]; rfl
  | cons c cs ih =>
    obtain ⟨hc, hcs⟩ := List.forall_mem_cons.1 h
    rw [List.foldl_cons, ih hcs, stepComponent, if_neg hc.ne_dot, if_neg hc.ne_dotDot, List.append_assoc]
    rfl

/-- The components of a path that remain are names. -/
theorem isName_of_mem_foldl {comps cs : List (List UInt8)} (hcomps : ∀ c ∈ comps, IsName c)
    (hcs : ∀ c ∈ cs, c ≠ [] ∧ 47 ∉ c) : ∀ c ∈ cs.foldl stepComponent comps, IsName c := by
  induction cs generalizing comps with
  | nil => exact hcomps
  | cons c cs ih =>
    obtain ⟨hc, hcs⟩ := List.forall_mem_cons.1 hcs
    refine ih ?_ hcs
    rw [stepComponent]
    split
    · exact hcomps
    split
    · exact fun d hd => hcomps d (List.mem_of_mem_dropLast hd)
    · rename_i hdot hdotDot
      intro d hd
      obtain hd | hd := List.mem_append.1 hd
      · exact hcomps d hd
      · obtain rfl := List.mem_singleton.1 hd
        exact ⟨hc.1, hc.2, hdot, hdotDot⟩

/-- The components of a path have no slash, are not empty, and are not longer together than the path. -/
theorem segments_spec (p : List UInt8) :
    (∀ c ∈ segments p, c ≠ [] ∧ 47 ∉ c) ∧ ((segments p).flatMap (47 :: ·)).length ≤ p.length + 1 := by
  induction hn : p.length using Nat.strong_induction_on generalizing p with
  | _ n ih =>
    subst hn
    have hle := (List.dropWhile_suffix (fun c : UInt8 => decide (c = 47)) (l := p)).length_le
    rw [← segments_dropWhile p]
    by_cases hstart : p.dropWhile (· = 47) = []
    · rw [hstart]
      exact ⟨fun c hc => absurd hc List.not_mem_nil, Nat.zero_le _⟩
    obtain ⟨comp, rest, hne, hslash, hrest, -, -, happ, hlt⟩ := exists_component hstart
    have htail : rest.tail.length < p.length := (List.length_tail ▸ Nat.sub_le _ _).trans_lt hlt
    obtain ⟨hmem, hlen⟩ := ih _ htail rest.tail rfl
    rw [happ, List.length_append] at hle
    rw [happ, segments_component hne hslash hrest, List.flatMap_cons, List.length_append, List.length_cons]
    refine ⟨List.forall_mem_cons.2 ⟨⟨hne, hslash⟩, hmem⟩, ?_⟩
    obtain rfl | hhead := hrest
    · exact (Nat.add_le_add_right hle 1)
    · obtain ⟨t, rfl⟩ := List.head?_eq_some_iff.1 hhead
      rw [List.length_cons] at hle
      rw [List.tail_cons] at hlen ⊢
      omega

theorem flatMap_slash_head (cs : List (List UInt8)) :
    cs.flatMap (47 :: ·) = [] ∨ (cs.flatMap (47 :: ·)).head? = some 47 := by
  cases cs with
  | nil => exact .inl rfl
  | cons c cs => exact .inr rfl

theorem segments_flatMap {cs : List (List UInt8)} (h : ∀ c ∈ cs, c ≠ [] ∧ 47 ∉ c) :
    segments (cs.flatMap (47 :: ·)) = cs := by
  induction cs with
  | nil => rfl
  | cons c cs ih =>
    obtain ⟨hc, hcs⟩ := List.forall_mem_cons.1 h
    have hhead := flatMap_slash_head cs
    rw [List.flatMap_cons, segments_rest (.inr rfl)]
    exact (segments_component hc.1 hc.2 hhead).trans (by rw [← segments_rest hhead, ih hcs])

/-- Splitting undoes joining. -/
theorem segments_joinPath {cs : List (List UInt8)} (h : ∀ c ∈ cs, c ≠ [] ∧ 47 ∉ c) :
    segments (joinPath cs) = cs := by
  rw [joinPath]
  split
  · rename_i hnil
    rw [hnil]
    rfl
  · exact segments_flatMap h

/-! ## Putting the components together -/

/-- With room for all of them the components are joined. -/
theorem joinLoop_of_le {cs : List (List UInt8)} {out : List UInt8} (hne : ∀ c ∈ cs, c ≠ [])
    (h : out.length + (cs.flatMap (47 :: ·)).length ≤ 254) :
    joinLoop 256 cs out = out ++ cs.flatMap (47 :: ·) := by
  induction cs generalizing out with
  | nil => exact (List.append_nil out).symm
  | cons c cs ih =>
    obtain ⟨hc, hcs⟩ := List.forall_mem_cons.1 hne
    have hpos := List.length_pos_of_ne_nil hc
    rw [List.flatMap_cons, List.length_append, List.length_cons] at h
    have hlen : (out ++ [47]).length = out.length + 1 := List.length_append
    rw [joinLoop, if_pos (by omega), if_neg (by omega), ih hcs]
    · simp
    · rw [List.length_append, hlen]
      omega

/-- A path of 255 characters loses its last component. -/
theorem joinLoop_of_eq {cs : List (List UInt8)} {c out : List UInt8} (hne : ∀ d ∈ cs ++ [c], d ≠ [])
    (h : out.length + ((cs ++ [c]).flatMap (47 :: ·)).length = 255) :
    joinLoop 256 (cs ++ [c]) out = out ++ cs.flatMap (47 :: ·) ++ [47] := by
  induction cs generalizing out with
  | nil =>
    have hpos := List.length_pos_of_ne_nil (hne c (by simp))
    have hlen : (out ++ [47]).length = out.length + 1 := List.length_append
    simp at h
    rw [List.nil_append, joinLoop, if_pos (by omega), if_pos (by omega)]
    simp
  | cons d cs ih =>
    obtain ⟨hd, hcs⟩ := List.forall_mem_cons.1 hne
    have hpos := List.length_pos_of_ne_nil (hcs c (by simp))
    have hlen : (out ++ [47]).length = out.length + 1 := List.length_append
    rw [List.cons_append, List.flatMap_cons, List.length_append, List.length_cons] at h
    have htail : 2 ≤ ((cs ++ [c]).flatMap (47 :: ·)).length := by simp; omega
    rw [List.cons_append, joinLoop, if_pos (by omega), if_neg (by omega), ih hcs]
    · simp
    · rw [List.length_append, hlen]
      omega

/-! ## The result -/

section

variable {cwd input : List UInt8}

/-- The path in the buffer has the components of the absolute form. -/
theorem absolutePath_spec (hcwd : IsCanonical cwd) (hlen : (absoluteForm cwd input).length ≤ 255) :
    (absolutePath cwd input).head? = some 47 ∧ (absolutePath cwd input).length ≤ 255 ∧
      segments (absolutePath cwd input) = segments (absoluteForm cwd input) := by
  rw [absoluteForm] at hlen
  rw [absolutePath, absoluteForm]
  split at hlen
  · rename_i hhead
    rw [if_pos hhead, if_pos hhead, List.take_of_length_le hlen]
    exact ⟨hhead, hlen, rfl⟩
  rename_i hhead
  rw [if_neg hhead, if_neg hhead]
  obtain ⟨comps, hnames, rfl⟩ := hcwd
  rw [List.length_append, List.length_cons] at hlen
  cases comps with
  | nil =>
    have hroot : (joinPath []).length = 1 := rfl
    dsimp only
    rw [if_neg (by omega), List.take_of_length_le (by omega), List.length_append]
    refine ⟨rfl, by omega, ?_⟩
    exact (segments_append_slash [] input).trans (segments_append_slash [47] input).symm
  | cons c cs =>
    have hjoin : joinPath (c :: cs) = 47 :: (c ++ cs.flatMap (47 :: ·)) := rfl
    have hpos := List.length_pos_of_ne_nil (hnames c List.mem_cons_self).ne_nil
    have hdir : (joinPath (c :: cs) ++ [47]).length = (joinPath (c :: cs)).length + 1 := List.length_append
    have hlong : 1 < (joinPath (c :: cs)).length := by
      rw [hjoin, List.length_cons, List.length_append]
      omega
    dsimp only
    rw [if_pos hlong, List.take_of_length_le (by omega), List.append_assoc, List.singleton_append,
      List.length_append, List.length_cons]
    exact ⟨rfl, hlen, rfl⟩

/-- The components on the stack at the end fit into the buffer. -/
theorem length_joinPath_pushComponents (hcwd : IsCanonical cwd)
    (hlen : (absoluteForm cwd input).length ≤ 255) :
    ((pushComponents [] (segments (absoluteForm cwd input))).flatMap (47 :: ·)).length ≤ 255 := by
  obtain ⟨hhead, hlen, hseg⟩ := absolutePath_spec hcwd hlen
  obtain ⟨t, ht⟩ := List.head?_eq_some_iff.1 hhead
  have hsub := ((pushComponents_sublist (segments (absoluteForm cwd input))).flatMap (47 :: ·)).length_le
  have hcut : segments t = segments (absoluteForm cwd input) := by
    rw [← hseg, ht]
    exact (@segments_rest (47 :: t) (.inr rfl)).symm
  have hle := (segments_spec t).2
  rw [hcut] at hle
  rw [ht, List.length_cons] at hlen
  omega

/-- The result is the path of the components on the stack, or is cut before the last of them. -/
theorem pathResolve_cases (hcwd : IsCanonical cwd) (hlen : (absoluteForm cwd input).length ≤ 255) :
    ∃ comps, comps = pushComponents [] (segments (absoluteForm cwd input)) ∧
      ((joinPath comps).length ≤ 254 ∧ pathResolve cwd input 256 = joinPath comps ∨
        ∃ cs c, comps = cs ++ [c] ∧ (comps.flatMap (47 :: ·)).length = 255 ∧
          pathResolve cwd input 256 = cs.flatMap (47 :: ·) ++ [47]) := by
  have hle := length_joinPath_pushComponents hcwd hlen
  have hne : ∀ c ∈ pushComponents [] (segments (absoluteForm cwd input)), c ≠ [] := fun c hc =>
    ((segments_spec _).1 c ((pushComponents_sublist _).subset hc)).1
  have hres : pathResolve cwd input 256 =
      if pushComponents [] (segments (absoluteForm cwd input)) = [] then [47]
      else joinLoop 256 (pushComponents [] (segments (absoluteForm cwd input))) [] := by
    rw [pathResolve, resolveLoop_eq, (absolutePath_spec hcwd hlen).2.2]
  refine ⟨_, rfl, ?_⟩
  generalize pushComponents [] (segments (absoluteForm cwd input)) = comps at hle hne hres ⊢
  rw [joinPath]
  by_cases hnil : comps = []
  · rw [if_pos hnil] at hres ⊢
    exact .inl ⟨by decide, hres⟩
  rw [if_neg hnil] at hres ⊢
  by_cases hfits : (comps.flatMap (47 :: ·)).length ≤ 254
  · refine .inl ⟨hfits, hres.trans ?_⟩
    exact joinLoop_of_le hne (by simpa using hfits)
  · have heq : (comps.flatMap (47 :: ·)).length = 255 := by omega
    obtain ⟨cs, c, rfl⟩ := (List.eq_nil_or_concat' comps).resolve_left hnil
    exact .inr ⟨cs, c, rfl, heq, hres.trans (joinLoop_of_eq hne (by simpa using heq))⟩

end

/-- Names on their own are not changed by the limit, if there are at most 64. -/
theorem pushComponents_of_names {cs : List (List UInt8)} (h : ∀ c ∈ cs, IsName c) (hlen : cs.length ≤ 64) :
    pushComponents [] cs = cs := by
  have hremain : ∀ k, remaining (cs.take k) = cs.take k := fun k =>
    foldl_stepComponent_of_names fun c hc => h c (List.mem_of_mem_take hc)
  have hall : remaining cs = cs := foldl_stepComponent_of_names h
  refine ((pushComponents_iff cs).2 fun k hk => ?_).trans hall
  have hk : (remaining (cs.take k)).length = 64 := hk.1
  rw [hremain, List.length_take] at hk
  rw [hall, hremain, List.take_of_length_le (by omega)]

/-- A canonical path that is not the root does not end with a slash. -/
theorem flatMap_append_slash_ne {cs : List (List UInt8)} (h : ∀ c ∈ cs, IsName c) (hne : cs ≠ [])
    (l : List UInt8) : cs.flatMap (47 :: ·) ≠ l ++ [47] := by
  intro heq
  obtain ⟨cs, c, rfl⟩ := (List.eq_nil_or_concat' cs).resolve_left hne
  have hc := h c (by simp)
  obtain ⟨c, x, rfl⟩ := (List.eq_nil_or_concat' c).resolve_left hc.ne_nil
  rw [List.flatMap_append, List.flatMap_singleton, ← List.cons_append, ← List.append_assoc] at heq
  obtain rfl : x = 47 := by simpa using (List.append_inj' heq rfl).2
  exact hc.slash (by simp)

/-- A path is resolved to its canonical form, which then stays as it is, exactly if this form has less than
255 characters and nothing is lost when 64 components remain. -/
theorem path_resolve_canonical_iff (cwd input : List UInt8) (hcwd : IsCanonical cwd)
    (hlen : (absoluteForm cwd input).length ≤ 255) :
    pathResolve cwd input 256 = canonicalPath (absoluteForm cwd input) ∧
        pathResolve cwd (pathResolve cwd input 256) 256 = pathResolve cwd input 256 ↔
      (canonicalPath (absoluteForm cwd input)).length ≤ 254 ∧
        WithinDepth (segments (absoluteForm cwd input)) := by
  obtain ⟨hmem, -⟩ := segments_spec (absoluteForm cwd input)
  have hnames : ∀ c ∈ remaining (segments (absoluteForm cwd input)), IsName c :=
    isName_of_mem_foldl (fun c hc => absurd hc List.not_mem_nil) hmem
  have hcount := pushComponents_length (segments (absoluteForm cwd input))
  have hpush := pushComponents_eq [] (segments (absoluteForm cwd input)) (by decide)
  have hsub := pushComponents_sublist (segments (absoluteForm cwd input))
  obtain ⟨comps, hcomps, hcases⟩ := pathResolve_cases hcwd hlen
  rw [← pushComponents_iff, canonicalPath]
  rw [← hcomps] at hcount hpush hsub ⊢
  generalize hfull : remaining (segments (absoluteForm cwd input)) = full at hnames ⊢
  have hparts : ∀ c ∈ full, c ≠ [] ∧ 47 ∉ c := fun c hc => ⟨(hnames c hc).ne_nil, (hnames c hc).slash⟩
  constructor
  · rintro ⟨heq, -⟩
    -- Either the components are joined, or the output was full and ends in a slash.
    obtain ⟨hle, hres⟩ | ⟨cs, c, rfl, hlong, hres⟩ := hcases
    · have hinj := congrArg segments (hres.symm.trans heq)
      rw [segments_joinPath fun c hc => hmem c (hsub.subset hc), segments_joinPath hparts] at hinj
      exact ⟨by rw [← heq, hres]; exact hle, hinj⟩
    · rw [hres, joinPath] at heq
      split at heq
      · -- The root is left, so that the stack held one component and was not full.
        rename_i hnil
        have hcs : cs = [] := by
          cases cs with
          | nil => rfl
          | cons d cs => simp at heq
        subst hcs
        obtain ⟨hall, -⟩ | ⟨k, hall, hk, -⟩ := hpush
        · exact absurd (hall.trans (hfull.trans hnil)) (by simp)
        · rw [Set.mem_ofPred_eq, ← hall] at hk
          exact absurd hk (by simp)
      · rename_i hnil
        exact absurd heq.symm (flatMap_append_slash_ne hnames hnil _)
  · rintro ⟨hle, rfl⟩
    have hres : pathResolve cwd input 256 = joinPath comps := by
      obtain ⟨-, hres⟩ | ⟨cs, c, rfl, hlong, -⟩ := hcases
      · exact hres
      · rw [joinPath, if_neg (by simp)] at hle
        omega
    refine ⟨hres, ?_⟩
    rw [hres]
    -- The result is absolute, so the second call does not look at `cwd`.
    have hform : absoluteForm cwd (joinPath comps) = joinPath comps := by
      refine if_pos ?_
      rw [joinPath]
      split
      · rfl
      · rename_i hnil
        exact (flatMap_slash_head comps).resolve_left fun h => by
          cases comps with
          | nil => exact hnil rfl
          | cons c cs => cases h
    have hshort : (absoluteForm cwd (joinPath comps)).length ≤ 255 := by
      rw [hform]
      omega
    obtain ⟨comps', hcomps', hcases'⟩ := pathResolve_cases hcwd hshort
    rw [hform, segments_joinPath hparts, pushComponents_of_names hnames hcount] at hcomps'
    subst hcomps'
    obtain ⟨-, hres⟩ | ⟨cs, c, rfl, hlong, -⟩ := hcases'
    · exact hres
    · rw [joinPath, if_neg (by simp)] at hle
      omega

/-- The path `..//./b` in the directory `/a`. -/
theorem path_resolve_canonical_dots :
    (absoluteForm [47, 97] [46, 46, 47, 47, 46, 47, 98]).length = 10 ∧
      (pathResolve [47, 97] [46, 46, 47, 47, 46, 47, 98] 256 =
            canonicalPath (absoluteForm [47, 97] [46, 46, 47, 47, 46, 47, 98]) ∧
          pathResolve [47, 97] (pathResolve [47, 97] [46, 46, 47, 47, 46, 47, 98] 256) 256 =
            pathResolve [47, 97] [46, 46, 47, 47, 46, 47, 98] 256 ↔
        (canonicalPath (absoluteForm [47, 97] [46, 46, 47, 47, 46, 47, 98])).length ≤ 254 ∧
          WithinDepth (segments (absoluteForm [47, 97] [46, 46, 47, 47, 46, 47, 98]))) :=
  ⟨by decide, path_resolve_canonical_iff [47, 97] _
    ⟨[[97]], List.forall_mem_singleton.2 ⟨by decide, by decide, by decide, by decide⟩, rfl⟩ (by decide)⟩

/-- A name of 254 characters in the root directory is lost: the result is the root. -/
theorem path_resolve_loses_name :
    (absoluteForm [47] (47 :: List.replicate 254 97)).length = 255 ∧
      pathResolve [47] (47 :: List.replicate 254 97) 256 = [47] ∧
      canonicalPath (absoluteForm [47] (47 :: List.replicate 254 97)) = 47 :: List.replicate 254 97 := by
  rw [pathResolve, resolveLoop_eq]
  exact ⟨by decide +kernel, by decide +kernel, by decide +kernel⟩

end PlantOS.Kernel
