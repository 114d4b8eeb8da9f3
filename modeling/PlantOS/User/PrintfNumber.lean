import PlantOS.User.Printf
import Mathlib.Data.List.DropRight
import Mathlib.Data.List.GetD
import Mathlib.Data.Nat.Digits.Lemmas

/-!
# Printed numbers

The text of an `int` with the formats `%d`, `%Nd`, `%-Nd` and `%0Nd`. Padding is put in front of the sign, so
`%0Nd` of a negative number that is shorter than the width has zeros before the minus sign, and cannot be read
back. All other texts can.

Reference: `vsnprintf` in `user/libc/uprintf.c`.
-/

namespace PlantOS.User

open Word

/-! ## Formats -/

inductive IntForm where
  | plain
  | width
  | left
  | zero
  deriving DecidableEq

/-- A width of at most two digits. -/
def widthText (n : ℕ) : List UInt8 :=
  if n < 10 then [UInt8.ofNat (48 + n)] else [UInt8.ofNat (48 + n / 10), UInt8.ofNat (48 + n % 10)]

/-- `%d`, `%Nd`, `%-Nd`, `%0Nd`. -/
def IntForm.format : IntForm → ℕ → List UInt8
  | .plain, _ => [37, 100]
  | .width, n => 37 :: (widthText n ++ [100])
  | .left, n => 37 :: 45 :: (widthText n ++ [100])
  | .zero, n => 37 :: 48 :: (widthText n ++ [100])

/-- The number of characters asked for. -/
def IntForm.minWidth : IntForm → ℕ → ℕ
  | .plain, _ => 0
  | .width, n | .left, n | .zero, n => n

/-- What the scanner makes of a form; `%0d` is scanned as a flag. -/
def IntForm.directive (f : IntForm) (n : ℕ) : Directive :=
  ⟨f = .zero ∨ f = .width ∧ n = 0, f = .left, f.minWidth n, 0⟩

theorem parseDirective_format (f : IntForm) {n : ℕ} (hn : n ≤ 99) :
    parseDirective (f.format n).tail = (f.directive n, [100]) := by
  have hall : ∀ n < 100, parseDirective (f.format n).tail = (f.directive n, [100]) := by
    cases f <;> decide +kernel
  exact hall n (by omega)

/-! ## Texts -/

/-- The sign and the digits. -/
def intText (v : ℤ) : List UInt8 := (if v < 0 then [45] else []) ++ numeral 10 false v.natAbs

/-- The text of a format that is one number. -/
theorem formatText_format (a : PrintfArgs) (f : IntForm) {n : ℕ} (hn : n ≤ 99) :
    formatText a (f.format n) = some (padded (f.directive n) (intText (vaInt (a.word 0)))) := by
  have hcons : f.format n = 37 :: (f.format n).tail := by cases f <;> rfl
  have hstr : convert a (f.directive n) 100 (a.word 0) = some (intText (vaInt (a.word 0))) := by
    have hlong : ¬1 ≤ (f.directive n).longFlag := Nat.not_succ_le_zero 0
    simp only [convert, hlong, true_or, if_true, if_false, intText]
  have htext : directiveText a 0 (f.directive n) 100 =
      (padded (f.directive n) (intText (vaInt (a.word 0))), 1) := by
    rw [directiveText, hstr]
    exact congrArg (·, 1) (if_neg (by decide))
  rw [formatText, hcons, List.length_cons, formatLoop, if_neg (not_not.2 rfl), parseDirective_format f hn]
  dsimp only
  rw [htext, formatLoop, foldl_append, List.nil_append]

theorem natAbs_vaInt_le (w : UInt64) : (vaInt w).natAbs ≤ 2 ^ 31 := by
  have hlo := le_toInt32 w.toNat
  have hhi := toInt32_lt w.toNat
  rw [vaInt]
  omega

/-- The digits of a number, the first one first. -/
theorem numeral_eq (m : ℕ) : ∃ ds : List ℕ, ds ≠ [] ∧ (∀ d ∈ ds, d < 10) ∧
    numeral 10 false m = ds.map (digitChar false) ∧ Nat.ofDigits 10 ds.reverse = m := by
  rw [numeral]
  split
  · rename_i hm
    exact ⟨[0], by simp, by simp, rfl, by simp [hm]⟩
  · rename_i hm
    refine ⟨(Nat.digits 10 m).reverse, ?_, fun d hd => ?_, by rw [List.map_reverse], ?_⟩
    · rwa [ne_eq, List.reverse_eq_nil_iff, Nat.digits_eq_nil_iff_eq_zero]
    · exact Nat.digits_lt_base' (List.mem_reverse.1 hd)
    · rw [List.reverse_reverse, Nat.ofDigits_digits]

/-- An `int` has at most ten digits and a sign. -/
theorem length_intText_le {v : ℤ} (hv : v.natAbs ≤ 2 ^ 31) : (intText v).length ≤ 11 := by
  have hnum : (numeral 10 false v.natAbs).length ≤ 10 := by
    rw [numeral]
    split
    · simp
    · rw [List.length_reverse, List.length_map, Nat.digits_length_le_iff (by decide)]
      omega
  rw [intText, List.length_append]
  split <;> simp only [List.length_singleton, List.length_nil] <;> omega

/-- A text with the padding of a form. -/
def IntForm.pad (f : IntForm) (n : ℕ) (s : List UInt8) : List UInt8 :=
  if f = .left then s ++ List.replicate (n - s.length) 32
  else List.replicate (f.minWidth n - s.length) (if f = .zero then 48 else 32) ++ s

/-- The padding of the program is that of the form, as the number fits into its buffer. -/
theorem padded_directive (f : IntForm) {n : ℕ} (hn : n ≤ 99) {s : List UInt8} (hs : s.length ≤ 11) :
    padded (f.directive n) s = f.pad n s := by
  have hmin : f.minWidth n ≤ 99 := by cases f <;> simp only [IntForm.minWidth] <;> omega
  have hslen : toInt32 s.length = s.length := toInt32_of_lt (by omega)
  have hpad : (toInt32 ((f.directive n).width - s.length)).toNat = f.minWidth n - s.length := by
    have hwidth : (f.directive n).width = f.minWidth n := rfl
    rw [hwidth, toInt32_of_range (by omega) (by omega)]
    omega
  rw [padded, hslen, Int.toNat_natCast, List.take_length, hpad]
  cases f with
  | left => rfl
  | plain => rfl
  | zero => rfl
  | width =>
    cases n with
    | zero => simp [IntForm.pad, IntForm.directive, IntForm.minWidth]
    | succ n => rfl

/-! ## Reading back -/

/-- A text without the blanks around it. -/
def stripBlanks (s : List UInt8) : List UInt8 := (s.dropWhile (· = 32)).rdropWhile (· = 32)

/-- An optional minus sign and decimal digits with the value `v`. -/
def ReadsBack (s : List UInt8) (v : ℤ) : Prop :=
  ∃ (neg : Bool) (ds : List ℕ), ds ≠ [] ∧ (∀ d ∈ ds, d < 10) ∧
    s = (if neg then [45] else []) ++ ds.map (digitChar false) ∧
    v = (if neg then -1 else 1) * (Nat.ofDigits 10 ds.reverse : ℕ)

theorem digit_le {ds : List ℕ} (hlt : ∀ d ∈ ds, d < 10) {c : UInt8} (h : c ∈ ds.map (digitChar false)) :
    48 ≤ c := by
  obtain ⟨d, hd, rfl⟩ := List.mem_map.1 h
  have hall : ∀ d < 10, 48 ≤ digitChar false d := by decide
  exact hall d (hlt d hd)

theorem ReadsBack.mem {s : List UInt8} {v : ℤ} (h : ReadsBack s v) {c : UInt8} (hc : c ∈ s) :
    c = 45 ∨ 48 ≤ c := by
  obtain ⟨neg, ds, -, hlt, rfl, -⟩ := h
  obtain hc | hc := List.mem_append.1 hc
  · cases neg with
    | false => cases hc
    | true => exact .inl (List.mem_singleton.1 hc)
  · exact .inr (digit_le hlt hc)

theorem ReadsBack.ne_blank {s : List UInt8} {v : ℤ} (h : ReadsBack s v) : ∀ c ∈ s, c ≠ 32 := by
  rintro c hc rfl
  obtain hc | hc := h.mem hc
  · cases hc
  · exact absurd hc (by decide)

theorem intText_readsBack (v : ℤ) : ReadsBack (intText v) v := by
  obtain ⟨ds, hne, hlt, hnum, hval⟩ := numeral_eq v.natAbs
  refine ⟨v < 0, ds, hne, hlt, by simp only [intText, hnum, decide_eq_true_eq], ?_⟩
  simp only [hval, decide_eq_true_eq]
  split <;> omega

/-- Blanks around a text without blanks are removed. -/
theorem stripBlanks_eq {s : List UInt8} (hs : ∀ c ∈ s, c ≠ 32) (k l : ℕ) :
    stripBlanks (List.replicate k 32 ++ s ++ List.replicate l 32) = s := by
  have hdrop : ∀ t : List UInt8, (List.replicate k 32 ++ t).dropWhile (· = 32) = t.dropWhile (· = 32) :=
    fun t => List.dropWhile_append_of_pos (by simp)
  cases s with
  | nil =>
    rw [List.append_nil, stripBlanks, hdrop, List.dropWhile_eq_nil_iff.2 (by simp)]
    rfl
  | cons c s =>
    rw [stripBlanks, List.append_assoc, hdrop, List.cons_append,
      List.dropWhile_cons_of_neg (by simpa using hs c List.mem_cons_self), ← List.cons_append,
      List.rdropWhile, List.reverse_append, List.dropWhile_append_of_pos (by simp)]
    have hlast : ∀ x ∈ (c :: s).reverse, ¬decide (x = 32) = true := fun x hx => by
      simpa using hs x (List.mem_reverse.1 hx)
    have hkeep : ((c :: s).reverse).dropWhile (· = 32) = (c :: s).reverse := by
      rw [List.dropWhile_eq_self_iff]
      exact fun hpos => hlast _ (List.getElem_mem hpos)
    rw [hkeep, List.reverse_reverse]

/-- Zeros in front of the digits. -/
theorem zeros_readsBack {v : ℤ} (hv : 0 ≤ v) (k : ℕ) : ReadsBack (List.replicate k 48 ++ intText v) v := by
  obtain ⟨ds, hne, hlt, hnum, hval⟩ := numeral_eq v.natAbs
  refine ⟨false, List.replicate k 0 ++ ds, by simp [hne], fun d hd => ?_, ?_, ?_⟩
  · obtain hd | hd := List.mem_append.1 hd
    · rw [List.eq_of_mem_replicate hd]
      decide
    · exact hlt d hd
  · rw [intText, if_neg (by omega), List.nil_append, hnum, List.map_append, List.map_replicate]
    rfl
  · rw [List.reverse_append, List.reverse_replicate, Nat.ofDigits_append_replicate_zero, hval]
    simp only [Bool.false_eq_true, if_false]
    omega

/-- Zeros in front of a minus sign. -/
theorem not_readsBack_zeros {v v' : ℤ} (hv : v < 0) {k : ℕ} (hk : 0 < k) :
    ¬ReadsBack (List.replicate k 48 ++ intText v) v' := by
  rintro ⟨neg, ds, -, hlt, heq, -⟩
  obtain ⟨k, rfl⟩ : ∃ j, k = j + 1 := ⟨k - 1, by omega⟩
  have hmem : (45 : UInt8) ∈ List.replicate (k + 1) 48 ++ intText v := by
    rw [intText, if_pos hv]
    simp
  cases neg with
  | true =>
    rw [List.replicate_succ] at heq
    cases heq
  | false =>
    rw [heq] at hmem
    have hdigit : (45 : UInt8) ∈ ds.map (digitChar false) := by simpa using hmem
    exact absurd (digit_le hlt hdigit) (by decide)

/-- Padding fills the width. -/
theorem minWidth_le_length_pad (f : IntForm) (n : ℕ) (s : List UInt8) :
    f.minWidth n ≤ (f.pad n s).length := by
  rw [IntForm.pad]
  split
  · rename_i hf
    rw [hf, List.length_append, List.length_replicate, IntForm.minWidth]
    omega
  · rw [List.length_append, List.length_replicate]
    omega

/-- Padding consists of blanks and zeros. -/
theorem mem_pad {f : IntForm} {n : ℕ} {s : List UInt8} {c : UInt8} (h : c ∈ f.pad n s) :
    c ∈ s ∨ c = 32 ∨ c = 48 := by
  rw [IntForm.pad] at h
  split at h
  · obtain h | h := List.mem_append.1 h
    · exact .inl h
    · exact .inr (.inl (List.eq_of_mem_replicate h))
  · obtain h | h := List.mem_append.1 h
    · have hc := List.eq_of_mem_replicate h
      split at hc
      · exact .inr (.inr hc)
      · exact .inr (.inl hc)
    · exact .inl h

/-- What can be read back of a padded number. -/
theorem pad_readsBack_iff (f : IntForm) (n : ℕ) (v : ℤ) :
    ReadsBack (stripBlanks (f.pad n (intText v))) v ↔ (f = .zero → v < 0 → n ≤ (intText v).length) := by
  have hread := intText_readsBack v
  have hblank := hread.ne_blank
  have hfront : ∀ k, stripBlanks (List.replicate k 32 ++ intText v) = intText v := fun k => by
    simpa using stripBlanks_eq hblank k 0
  cases f with
  | plain =>
    refine iff_of_true ?_ (fun hf => by cases hf)
    rw [IntForm.pad, if_neg (by decide), if_neg (by decide), hfront]
    exact hread
  | width =>
    refine iff_of_true ?_ (fun hf => by cases hf)
    rw [IntForm.pad, if_neg (by decide), if_neg (by decide), hfront]
    exact hread
  | left =>
    refine iff_of_true ?_ (fun hf => by cases hf)
    have hback := stripBlanks_eq hblank 0 (n - (intText v).length)
    rw [List.replicate_zero, List.nil_append] at hback
    rw [IntForm.pad, if_pos rfl, hback]
    exact hread
  | zero =>
    have hzeros : ∀ c ∈ List.replicate (n - (intText v).length) 48 ++ intText v, c ≠ 32 := fun c hc => by
      obtain hc | hc := List.mem_append.1 hc
      · rw [List.eq_of_mem_replicate hc]
        decide
      · exact hblank c hc
    have hstrip := stripBlanks_eq hzeros 0 0
    rw [List.replicate_zero, List.nil_append, List.append_nil] at hstrip
    rw [IntForm.pad, if_neg (by decide), if_pos rfl, IntForm.minWidth, hstrip]
    obtain hv | hv := lt_or_ge v 0
    · obtain hn | hn := Nat.lt_or_ge (intText v).length n
      · exact iff_of_false (not_readsBack_zeros hv (by omega)) fun h => absurd (h rfl hv) (by omega)
      · rw [Nat.sub_eq_zero_of_le hn, List.replicate_zero, List.nil_append]
        exact iff_of_true hread fun _ _ => hn
    · exact iff_of_true (zeros_readsBack hv _) fun _ h => absurd h (by omega)

/-! ## The buffer -/

/-- The C string at the start of a buffer. -/
def CStringAt (buf : ℕ → UInt8) (text : List UInt8) : Prop :=
  0 ∉ text ∧ buf text.length = 0 ∧ ∀ i < text.length, buf i = text.getD i 0

/-- Memory holds one string at an address. -/
theorem CStringAt.unique {buf : ℕ → UInt8} {s t : List UInt8} (hs : CStringAt buf s) (ht : CStringAt buf t) :
    s = t := by
  have hle : ∀ {s t : List UInt8}, CStringAt buf s → CStringAt buf t → s.length ≤ t.length := by
    intro s t hs ht
    by_contra hlt
    have hget := hs.2.2 t.length (by omega)
    rw [ht.2.1, List.getD_eq_getElem _ _ (by omega)] at hget
    exact hs.1 (hget ▸ List.getElem_mem _)
  have hlen : s.length = t.length := Nat.le_antisymm (hle hs ht) (hle ht hs)
  refine List.ext_getElem hlen fun i h₁ h₂ => ?_
  rw [← List.getD_eq_getElem s 0 h₁, ← List.getD_eq_getElem t 0 h₂, ← hs.2.2 i h₁, ht.2.2 i h₂]

/-- If there is room, the buffer holds the text with its terminator. -/
theorem snprintf_cstring {a : PrintfArgs} {size : UInt64} {fmt text : List UInt8} {p : Printed}
    (htext : formatText a fmt = some text) (hp : vsnprintf a size fmt = some p)
    (hsize : text.length < size.toNat) (hzero : 0 ∉ text) (buf : ℕ → UInt8) :
    CStringAt (storeAll p.stores buf) text := by
  have h := vsnprintf_buffer htext hp (by omega) buf
  rw [min_eq_left (by omega)] at h
  exact ⟨hzero, h.1, h.2⟩

/-- The text of a number has no zero byte in it. -/
theorem zero_notMem_pad (f : IntForm) (n : ℕ) (v : ℤ) : 0 ∉ f.pad n (intText v) := by
  intro h
  obtain h | h | h := mem_pad h
  · obtain h | h := (intText_readsBack v).mem h
    · cases h
    · exact absurd h (by decide)
  · exact absurd h (by decide)
  · exact absurd h (by decide)

/-- In a large enough buffer, the text of an `int` can be read back and is as long as asked for, exactly if it
is not a negative number that `%0Nd` has to pad. -/
theorem printed_int_reads_back_iff (a : PrintfArgs) (f : IntForm) (n : ℕ) (hn : n ≤ 99) (size : UInt64)
    (hsize : ∀ text, formatText a (f.format n) = some text → text.length < size.toNat) (buf : ℕ → UInt8) :
    (∃ p text, vsnprintf a size (f.format n) = some p ∧ CStringAt (storeAll p.stores buf) text ∧
        f.minWidth n ≤ text.length ∧ ReadsBack (stripBlanks text) (vaInt (a.word 0))) ↔
      (f = .zero → vaInt (a.word 0) < 0 → n ≤ (intText (vaInt (a.word 0))).length) := by
  have htext := formatText_format a f hn
  rw [padded_directive f hn (length_intText_le (natAbs_vaInt_le (a.word 0)))] at htext
  have hp := @vsnprintf_eq a size _ _ htext
  have hstr := snprintf_cstring htext hp (hsize _ htext) (zero_notMem_pad f n _) buf
  rw [← pad_readsBack_iff]
  constructor
  · rintro ⟨p, text, hp', htext', -, hread⟩
    obtain rfl := Option.some.inj (hp.symm.trans hp')
    obtain rfl := htext'.unique hstr
    exact hread
  · exact fun h => ⟨_, _, hp, hstr, minWidth_le_length_pad f n _, h⟩

/-- `%3d` of 0. -/
theorem printed_zero_reads_back :
    ∃ p text, vsnprintf zeroArgs 16 (IntForm.width.format 3) = some p ∧
      CStringAt (storeAll p.stores fun _ => 7) text ∧ 3 ≤ text.length ∧ ReadsBack (stripBlanks text) 0 := by
  have htext : formatText zeroArgs (IntForm.width.format 3) = some [32, 32, 48] := by decide
  have hsize : ∀ text, formatText zeroArgs (IntForm.width.format 3) = some text →
      text.length < (16 : UInt64).toNat := fun text h => by
    obtain rfl := Option.some.inj (htext.symm.trans h)
    decide
  have hvalue : vaInt (zeroArgs.word 0) = 0 := by decide
  have h := (printed_int_reads_back_iff zeroArgs .width 3 (by decide) 16 hsize fun _ => 7).2
    fun hf => by cases hf
  rwa [hvalue] at h

/-- The argument -5. -/
def minusFive : PrintfArgs := ⟨fun _ => 4294967291, fun _ => []⟩

/-- `%03d` of -5 is `0-5`. -/
theorem printed_minus_five :
    vaInt (minusFive.word 0) = -5 ∧
      ((vsnprintf minusFive 16 (IntForm.zero.format 3)).map Printed.stores) =
        some [(0, 48), (1, 45), (2, 53), (3, 0)] := by
  decide +kernel

end PlantOS.User
