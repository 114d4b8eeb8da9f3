import Mathlib.Data.List.Basic
import Mathlib.Data.Nat.Digits.Defs
import PlantOS.Common.Word

/-!
# `printf` of the user library

Model of `vsnprintf`: the scanner with its flags, widths and length modifiers, the conversions, and the stores
into the buffer. A format is the list of its characters before the terminating zero. The scanner has no result
if it goes on behind that zero, which is what happens after a directive without a conversion character.

The arguments are 64-bit words. `int`s wrap.

The loop is given what `PUTC` does, so that the same loop yields the text (`formatText`) and, with the guarded
store of `PUTC`, the contents of the buffer (`formatLoop_eq`). The guard `pos < size - 1` is always true for a
buffer of size 0.

Reference: `user/libc/uprintf.c`.
-/

namespace PlantOS.User

open Word

/-! ## Directives -/

/-- The words of the argument list, and the characters of the strings they can point to. -/
structure PrintfArgs where
  word : ℕ → UInt64
  str : UInt64 → List UInt8

/-- `va_arg(ap, int)`. -/
def vaInt (w : UInt64) : ℤ := toInt32 w.toNat

/-- What stands between `%` and the conversion character. -/
structure Directive where
  padZero : Bool
  leftAlign : Bool
  width : ℤ
  longFlag : ℕ
  deriving DecidableEq

def parseFlags (padZero leftAlign : Bool) : List UInt8 → Bool × Bool × List UInt8
  | [] => (padZero, leftAlign, [])
  | c :: s =>
    if c = 48 then parseFlags true leftAlign s
    else if c = 45 then parseFlags padZero true s
    else (padZero, leftAlign, c :: s)

def parseWidth (width : ℤ) : List UInt8 → ℤ × List UInt8
  | [] => (width, [])
  | c :: s =>
    if 48 ≤ c ∧ c ≤ 57 then parseWidth (toInt32 (width * 10 + (c.toNat - 48))) s else (width, c :: s)

def parseLength : List UInt8 → ℕ × List UInt8
  | 108 :: 108 :: s => (2, s)
  | 108 :: s => (1, s)
  | s => (0, s)

/-- The scanner from behind the `%` up to the conversion character. -/
def parseDirective (s : List UInt8) : Directive × List UInt8 :=
  let flags := parseFlags false false s
  let width := parseWidth 0 flags.2.2
  let length := parseLength width.2
  (⟨flags.1 && !flags.2.1, flags.2.1, width.1, length.1⟩, length.2)

def digitChar (upper : Bool) (d : ℕ) : UInt8 :=
  UInt8.ofNat (if d < 10 then 48 + d else if upper then 55 + d else 87 + d)

/-- The digits of a number in `numbuf`, after they have been reversed. -/
def numeral (base : ℕ) (upper : Bool) (v : ℕ) : List UInt8 :=
  if v = 0 then [48] else ((Nat.digits base v).map (digitChar upper)).reverse

/-- `str` for a conversion character that takes an argument. -/
def convert (a : PrintfArgs) (d : Directive) (c : UInt8) (w : UInt64) : Option (List UInt8) :=
  let signed := if 1 ≤ d.longFlag then (w.toNat : ℤ).bmod (2 ^ 64) else vaInt w
  let unsigned := if 1 ≤ d.longFlag then w.toNat else w.toNat % 2 ^ 32
  if c = 100 ∨ c = 105 then
    -- The sign is stored behind the digits before they are reversed.
    some ((if signed < 0 then [45] else []) ++ numeral 10 false signed.natAbs)
  else if c = 117 then some (numeral 10 false unsigned)
  else if c = 120 ∨ c = 88 then some (numeral 16 (c = 88) unsigned)
  else if c = 112 then some (numeral 16 false w.toNat)
  else if c = 115 then some (if w = 0 then [40, 110, 117, 108, 108, 41] else a.str w)
  else if c = 99 then some [w.toUInt8]
  else none

/-- The characters that are put for `str`. -/
def padded (d : Directive) (str : List UInt8) : List UInt8 :=
  let slen := toInt32 str.length
  let padding := (toInt32 (d.width - slen)).toNat
  let body := str.take slen.toNat
  if d.leftAlign then body ++ List.replicate padding 32
  else List.replicate padding (if d.padZero then 48 else 32) ++ body

/-- The characters that are put for a directive, and the number of arguments used. -/
def directiveText (a : PrintfArgs) (ap : ℕ) (d : Directive) (c : UInt8) : List UInt8 × ℕ :=
  match convert a d c (a.word ap) with
  | some str => (if c = 112 then [48, 120] ++ padded { d with width := 0 } str else padded d str, ap + 1)
  | none => (if c = 37 then [37] else [37, c], ap)

/-! ## The loop -/

section

variable {ω : Type} (a : PrintfArgs) (put : ω → UInt8 → ω)

/-- The loop over the format, with at most `n` rounds. -/
def formatLoop : ℕ → List UInt8 → ℕ → ω → Option ω
  | _, [], _, o => some o
  | 0, _ :: _, _, _ => none
  | n + 1, c :: fmt, ap, o =>
    if c ≠ 37 then formatLoop n fmt ap (put o c)
    else
      match parseDirective fmt with
      -- `%` and the terminating zero are put, and `fmt++` leaves the string.
      | (_, []) => none
      | (d, c :: rest) =>
        let r := directiveText a ap d c
        formatLoop n rest r.2 (r.1.foldl put o)

end

/-- The text with an unlimited buffer. -/
def formatText (a : PrintfArgs) (fmt : List UInt8) : Option (List UInt8) :=
  formatLoop a (fun text c => text ++ [c]) fmt.length fmt 0 []

/-- The stores into the buffer, and `pos`. -/
structure PutState where
  stores : List (ℕ × UInt8)
  pos : ℕ

/-- `PUTC`. -/
def putc (size : UInt64) (o : PutState) (c : UInt8) : PutState where
  stores := if o.pos < (size - 1).toNat then o.stores ++ [(o.pos, c)] else o.stores
  pos := o.pos + 1

/-- The stores and the result of a call. -/
structure Printed where
  stores : List (ℕ × UInt8)
  ret : ℤ

/-- `vsnprintf`. -/
def vsnprintf (a : PrintfArgs) (size : UInt64) (fmt : List UInt8) : Option Printed :=
  (formatLoop a (putc size) fmt.length fmt 0 ⟨[], 0⟩).map fun o =>
    { stores :=
        if o.pos < size.toNat then o.stores ++ [(o.pos, 0)]
        else if 0 < size.toNat then o.stores ++ [(size.toNat - 1, 0)]
        else o.stores
      ret := toInt32 o.pos }

/-- A buffer after some stores. -/
def storeAll (stores : List (ℕ × UInt8)) (buf : ℕ → UInt8) : ℕ → UInt8 :=
  stores.foldl (fun b st => Function.update b st.1 st.2) buf

/-! ## Formats -/

/-- Every directive has its conversion character. -/
inductive Complete : List UInt8 → Prop
  | nil : Complete []
  | char {c : UInt8} {fmt : List UInt8} (hc : c ≠ 37) (h : Complete fmt) : Complete (c :: fmt)
  | directive {c : UInt8} {fmt rest : List UInt8} (hc : (parseDirective fmt).2 = c :: rest)
      (h : Complete rest) : Complete (37 :: fmt)

theorem length_parseFlags (z l : Bool) (s : List UInt8) : (parseFlags z l s).2.2.length ≤ s.length := by
  induction s generalizing z l with
  | nil => exact le_rfl
  | cons c s ih =>
    rw [parseFlags]
    split_ifs
    · exact (ih _ _).trans (Nat.le_succ _)
    · exact (ih _ _).trans (Nat.le_succ _)
    · exact le_rfl

theorem length_parseWidth (w : ℤ) (s : List UInt8) : (parseWidth w s).2.length ≤ s.length := by
  induction s generalizing w with
  | nil => exact le_rfl
  | cons c s ih =>
    rw [parseWidth]
    split_ifs
    · exact (ih _).trans (Nat.le_succ _)
    · exact le_rfl

theorem length_parseLength (s : List UInt8) : (parseLength s).2.length ≤ s.length := by
  unfold parseLength
  split <;> simp
  omega

theorem length_parseDirective (s : List UInt8) : (parseDirective s).2.length ≤ s.length :=
  (length_parseLength _).trans ((length_parseWidth _ _).trans (length_parseFlags _ _ _))

section

variable {ω : Type} {a : PrintfArgs}

/-- The loop has a result exactly if the format is complete. -/
theorem formatLoop_isSome_iff (put : ω → UInt8 → ω) {n : ℕ} {fmt : List UInt8} (hn : fmt.length ≤ n) (ap : ℕ)
    (o : ω) : (formatLoop a put n fmt ap o).isSome ↔ Complete fmt := by
  induction n generalizing fmt ap o with
  | zero =>
    obtain rfl := List.eq_nil_of_length_eq_zero (Nat.le_zero.1 hn)
    exact iff_of_true rfl .nil
  | succ n ih =>
    cases fmt with
    | nil => exact iff_of_true (by rw [formatLoop]; rfl) .nil
    | cons c fmt =>
      have hlen : fmt.length ≤ n := Nat.le_of_succ_le_succ hn
      rw [formatLoop]
      by_cases hc : c = 37
      · subst hc
        rw [if_neg (not_not.2 rfl)]
        have hrest := length_parseDirective fmt
        split
        · rename_i hparse
          refine iff_of_false (by simp) fun h => ?_
          cases h with
          | char hc => exact hc rfl
          | directive hc => rw [hparse] at hc; cases hc
        · rename_i d c rest hparse
          rw [hparse, List.length_cons] at hrest
          rw [ih (by omega)]
          refine ⟨fun h => .directive (by rw [hparse]) h, fun h => ?_⟩
          cases h with
          | char hc => exact absurd rfl hc
          | directive hc h =>
            rw [hparse] at hc
            cases hc
            exact h
      · rw [if_pos hc, ih hlen]
        refine ⟨.char hc, fun h => ?_⟩
        cases h with
        | char _ h => exact h
        | directive => exact absurd rfl hc

theorem foldl_append (text acc : List UInt8) : text.foldl (fun t c => t ++ [c]) acc = acc ++ text := by
  induction text generalizing acc with
  | nil => rw [List.foldl_nil, List.append_nil]
  | cons c text ih => rw [List.foldl_cons, ih, List.append_assoc, List.singleton_append]

/-- What `PUTC` does is done for the characters of the text, one after the other. -/
theorem formatLoop_eq (put : ω → UInt8 → ω) (n : ℕ) (fmt : List UInt8) (ap : ℕ) (o : ω) :
    formatLoop a put n fmt ap o =
      (formatLoop a (fun t c => t ++ [c]) n fmt ap []).map fun text => text.foldl put o := by
  induction n generalizing fmt ap o ω with
  | zero =>
    cases fmt with
    | nil => rfl
    | cons c fmt => rfl
  | succ n ih =>
    cases fmt with
    | nil => rfl
    | cons c fmt =>
      rw [formatLoop, formatLoop]
      split
      · rw [ih put, ih _ fmt ap ([] ++ [c]), Option.map_map]
        refine congrArg (Option.map · _) (funext fun text => ?_)
        rw [Function.comp_apply, foldl_append, List.foldl_append]
        rfl
      · split
        · rfl
        · rename_i d c rest hparse
          dsimp only
          rw [ih put, ih _ rest _ (List.foldl _ [] _), Option.map_map]
          refine congrArg (Option.map · _) (funext fun text => ?_)
          rw [Function.comp_apply, foldl_append, foldl_append, List.nil_append, List.foldl_append]

/-- A format can be expanded exactly if it is complete. -/
theorem formatText_isSome_iff {fmt : List UInt8} : (formatText a fmt).isSome ↔ Complete fmt :=
  formatLoop_isSome_iff _ le_rfl 0 _

end

/-! ## Stores -/

section

variable {size : UInt64} {o : PutState} {text : List UInt8}

theorem pos_foldl_putc : (text.foldl (putc size) o).pos = o.pos + text.length := by
  induction text generalizing o with
  | nil => rfl
  | cons c text ih =>
    rw [List.foldl_cons, ih, List.length_cons, putc]
    dsimp only
    omega

theorem mem_foldl_putc {st : ℕ × UInt8} (h : st ∈ (text.foldl (putc size) o).stores) :
    st ∈ o.stores ∨ st.1 < (size - 1).toNat := by
  induction text generalizing o with
  | nil => exact .inl h
  | cons c text ih =>
    obtain h | h := ih h
    · rw [putc] at h
      dsimp only at h
      split at h
      · rename_i hlt
        obtain h | h := List.mem_append.1 h
        · exact .inl h
        · rw [List.mem_singleton.1 h]
          exact .inr hlt
      · exact .inl h
    · exact .inr h

theorem mem_foldl_putc_of_mem {st : ℕ × UInt8} (h : st ∈ o.stores) :
    st ∈ (text.foldl (putc size) o).stores := by
  induction text generalizing o with
  | nil => exact h
  | cons c text ih =>
    refine ih ?_
    rw [putc]
    dsimp only
    split
    · exact List.mem_append_left _ h
    · exact h

theorem storeAll_append (stores : List (ℕ × UInt8)) (st : ℕ × UInt8) (buf : ℕ → UInt8) :
    storeAll (stores ++ [st]) buf = Function.update (storeAll stores buf) st.1 st.2 := by
  rw [storeAll, List.foldl_append]
  rfl

/-- The buffer after the characters of a text. -/
theorem storeAll_foldl_putc (buf : ℕ → UInt8) (i : ℕ) :
    storeAll (text.foldl (putc size) o).stores buf i =
      if o.pos ≤ i ∧ i < o.pos + text.length ∧ i < (size - 1).toNat then text.getD (i - o.pos) 0
      else storeAll o.stores buf i := by
  induction text generalizing o with
  | nil => rw [if_neg (by rw [List.length_nil]; omega)]; rfl
  | cons c text ih =>
    rw [List.foldl_cons, ih, List.length_cons, putc]
    dsimp only
    by_cases hi : i = o.pos
    · subst hi
      rw [if_neg (by omega)]
      by_cases hlt : o.pos < (size - 1).toNat
      · rw [if_pos hlt, if_pos (by omega), storeAll_append, Function.update_self, Nat.sub_self]
        rfl
      · rw [if_neg hlt, if_neg (by omega)]
    · have hsame : storeAll (if o.pos < (size - 1).toNat then o.stores ++ [(o.pos, c)] else o.stores) buf i =
          storeAll o.stores buf i := by
        split
        · rw [storeAll_append, Function.update_of_ne hi]
        · rfl
      rw [hsame]
      by_cases hin : o.pos ≤ i ∧ i < o.pos + (text.length + 1) ∧ i < (size - 1).toNat
      · rw [if_pos (by omega), if_pos hin, show i - o.pos = i - (o.pos + 1) + 1 by omega, List.getD_cons_succ]
      · rw [if_neg (by omega), if_neg hin]

end

/-! ## The buffer -/

section

variable {a : PrintfArgs} {size : UInt64} {fmt text : List UInt8}

/-- What is stored and returned, by the expanded text. -/
theorem vsnprintf_eq (htext : formatText a fmt = some text) :
    vsnprintf a size fmt = some
      { stores :=
          if text.length < size.toNat then (text.foldl (putc size) ⟨[], 0⟩).stores ++ [(text.length, 0)]
          else if 0 < size.toNat then (text.foldl (putc size) ⟨[], 0⟩).stores ++ [(size.toNat - 1, 0)]
          else (text.foldl (putc size) ⟨[], 0⟩).stores
        ret := toInt32 text.length } := by
  have hloop : formatLoop a (fun t c => t ++ [c]) fmt.length fmt 0 [] = some text := htext
  rw [vsnprintf, formatLoop_eq, hloop, Option.map_some, Option.map_some]
  simp only [pos_foldl_putc, Nat.zero_add]

/-- The stores of a call: below the size, unless it is zero and something is put. -/
theorem stores_lt_iff {p : Printed} (htext : formatText a fmt = some text)
    (hp : vsnprintf a size fmt = some p) :
    (∀ st ∈ p.stores, st.1 < size.toNat) ↔ (size.toNat = 0 → text = []) := by
  rw [vsnprintf_eq htext] at hp
  obtain rfl := Option.some.inj hp
  by_cases hsize : size.toNat = 0
  · -- `size - 1` wraps, and every character is stored
    dsimp only
    rw [if_neg (by omega), if_neg (by omega)]
    refine ⟨fun h _ => ?_, fun h => ?_⟩
    · cases text with
      | nil => rfl
      | cons c text =>
        have hone : (size - 1).toNat = 2 ^ 64 - 1 := by rw [UInt64.toNat_sub, hsize]; rfl
        have hmem : (0, c) ∈ (putc size ⟨[], 0⟩ c).stores := by
          rw [putc, if_pos (by rw [hone]; decide)]
          exact List.mem_singleton_self _
        have hstored : (0, c) ∈ ((c :: text).foldl (putc size) ⟨[], 0⟩).stores := by
          rw [List.foldl_cons]
          exact mem_foldl_putc_of_mem hmem
        exact absurd (h _ hstored) (by omega)
    · rw [h hsize]
      exact fun _ hst => absurd hst List.not_mem_nil
  · refine iff_of_true (fun st hst => ?_) fun h => absurd h hsize
    have hone : (size - 1).toNat = size.toNat - 1 := by
      rw [UInt64.toNat_sub_of_le _ _ (UInt64.le_iff_toNat_le.2 (by rw [UInt64.toNat_one]; omega))]
      rfl
    have hput : ∀ st ∈ (text.foldl (putc size) ⟨[], 0⟩).stores, st.1 < size.toNat := fun st hst => by
      obtain h | h := mem_foldl_putc hst
      · exact absurd h List.not_mem_nil
      · omega
    dsimp only at hst
    -- The terminator goes behind the text or to the last byte.
    split_ifs at hst with hlt
    · obtain h | h := List.mem_append.1 hst
      · exact hput st h
      · rw [List.mem_singleton.1 h]
        exact hlt
    · obtain h | h := List.mem_append.1 hst
      · exact hput st h
      · rw [List.mem_singleton.1 h]
        exact Nat.sub_one_lt hsize
    · omega

/-- The buffer of a call with a size that is not zero. -/
theorem vsnprintf_buffer {p : Printed} (htext : formatText a fmt = some text)
    (hp : vsnprintf a size fmt = some p) (hsize : 0 < size.toNat) (buf : ℕ → UInt8) :
    storeAll p.stores buf (min text.length (size.toNat - 1)) = 0 ∧
      ∀ i < min text.length (size.toNat - 1), storeAll p.stores buf i = text.getD i 0 := by
  rw [vsnprintf_eq htext] at hp
  obtain rfl := Option.some.inj hp
  have hone : (size - 1).toNat = size.toNat - 1 := by
    rw [UInt64.toNat_sub_of_le _ _ (UInt64.le_iff_toNat_le.2 (by rw [UInt64.toNat_one]; omega))]
    rfl
  have hstores : (if text.length < size.toNat then
        (text.foldl (putc size) ⟨[], 0⟩).stores ++ [(text.length, 0)]
      else if 0 < size.toNat then (text.foldl (putc size) ⟨[], 0⟩).stores ++ [(size.toNat - 1, 0)]
      else (text.foldl (putc size) ⟨[], 0⟩).stores) =
      (text.foldl (putc size) ⟨[], 0⟩).stores ++ [(min text.length (size.toNat - 1), 0)] := by
    split
    · rw [min_eq_left (by omega)]
    · rw [min_eq_right (by omega)]
  dsimp only
  rw [hstores, storeAll_append]
  refine ⟨Function.update_self .., fun i hi => ?_⟩
  rw [Function.update_of_ne (by omega), storeAll_foldl_putc, hone, if_pos (by dsimp only; omega)]
  rfl

end

/-- A call of `vsnprintf` stores only inside the buffer, ends the text with a zero, stores the longest part of
it that fits, does not read behind the format and returns the length of the whole text. -/
def PrintsBounded (a : PrintfArgs) (size : UInt64) (fmt : List UInt8) : Prop :=
  ∃ text p, formatText a fmt = some text ∧ vsnprintf a size fmt = some p ∧
    (∀ st ∈ p.stores, st.1 < size.toNat) ∧
    (0 < size.toNat → ∀ buf, storeAll p.stores buf (min text.length (size.toNat - 1)) = 0 ∧
      ∀ i < min text.length (size.toNat - 1), storeAll p.stores buf i = text.getD i 0) ∧
    p.ret = text.length

/-- This holds exactly if no directive is cut off by the end of the format, the text has less than 2^31
characters, and for a buffer of size 0 the text is empty. -/
theorem vsnprintf_bounded_iff (a : PrintfArgs) (size : UInt64) (fmt : List UInt8) :
    PrintsBounded a size fmt ↔
      Complete fmt ∧ ∀ text, formatText a fmt = some text →
        text.length < 2 ^ 31 ∧ (size.toNat = 0 → text = []) := by
  constructor
  · rintro ⟨text, p, htext, hp, hstores, -, hret⟩
    refine ⟨formatText_isSome_iff.1 (by rw [htext]; rfl), fun text' htext' => ?_⟩
    obtain rfl := Option.some.inj (htext.symm.trans htext')
    refine ⟨?_, (stores_lt_iff htext hp).1 hstores⟩
    rw [vsnprintf_eq htext] at hp
    obtain rfl := Option.some.inj hp
    have := toInt32_lt text.length
    dsimp only at hret
    omega
  · rintro ⟨hcomplete, h⟩
    obtain ⟨text, htext⟩ := Option.isSome_iff_exists.1 (formatText_isSome_iff.2 hcomplete)
    obtain ⟨hlen, hzero⟩ := h text htext
    have hp := @vsnprintf_eq a size fmt text htext
    refine ⟨text, _, htext, hp, (stores_lt_iff htext hp).2 hzero, vsnprintf_buffer htext hp, ?_⟩
    dsimp only
    rw [toInt32_of_lt hlen]

/-- Arguments that are all zero. -/
def zeroArgs : PrintfArgs := ⟨fun _ => 0, fun _ => []⟩

/-- The format `a` with a buffer of size 0 is stored at index 0, and the format `%` leads behind its end. -/
theorem vsnprintf_stores_outside :
    ((vsnprintf zeroArgs 0 [97]).map Printed.stores) = some [(0, 97)] ∧
      vsnprintf zeroArgs 16 [37] = none := by
  decide

end PlantOS.User
