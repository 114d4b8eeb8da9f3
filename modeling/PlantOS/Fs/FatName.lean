import PlantOS.Fs.Fat

/-!
# 8.3 names

`fat_name_to_83` packs a name into eleven bytes: eight for what stands before the last dot and three for what
stands behind it, both cut, upper-cased and padded with spaces (`fatNameTo83_dot`, `fatNameTo83_noDot`).
`fat_83_to_name` shows such an entry: each part up to its first space, lower-cased, and the dot if there is
an extension. The two undo each other on names that fit (`names83_round_trip`).

Reference: `fs/fat.c`.
-/

namespace PlantOS.Fs

open Bytes

/-- `if (c >= 'A' && c <= 'Z') c += 32;`. -/
def lower (c : UInt8) : UInt8 := if 65 ≤ c ∧ c ≤ 90 then c + 32 else c

/-- `fat_83_to_name` of the eleven bytes of `name` and `ext`: what is stored before the final NUL. -/
def fat83ToName (n : List UInt8) : List UInt8 :=
  ((n.take 8).takeWhile (· ≠ 32)).map lower ++
    if n.getD 8 32 ≠ 32 then 46 :: (((n.drop 8).take 3).takeWhile (· ≠ 32)).map lower else []

/-! ## Letters -/

theorem forall_byte {P : UInt8 → Prop} (h : ∀ b : BitVec 8, P ⟨b⟩) (c : UInt8) : P c := h c.toBitVec

theorem lower_upper (c : UInt8) : lower (upper c) = lower c := by
  revert c
  refine forall_byte ?_
  decide +kernel

theorem upper_lower (c : UInt8) (h : ¬(97 ≤ c ∧ c ≤ 122)) : upper (lower c) = c := by
  revert c
  refine forall_byte ?_
  decide +kernel

theorem upper_eq_space (c : UInt8) : upper c = 32 ↔ c = 32 := by
  revert c
  refine forall_byte ?_
  decide +kernel

theorem lower_eq_dot (c : UInt8) : lower c = 46 ↔ c = 46 := by
  revert c
  refine forall_byte ?_
  decide +kernel

/-! ## Packing -/

/-- A part of a packed name: cut, upper-cased and padded with spaces. -/
def packPart (n : ℕ) (l : List UInt8) : List UInt8 :=
  (l.take n).map upper ++ List.replicate (n - (l.take n).length) 32

theorem lastDot_noDot {name : List UInt8} (h : 46 ∉ name) (i : ℕ) (dot : Option ℕ) :
    lastDot name i dot = dot := by
  induction name generalizing i dot with
  | nil => rfl
  | cons c name ih =>
    rw [List.mem_cons, not_or] at h
    rw [lastDot, if_neg (Ne.symm h.1), ih h.2]

theorem lastDot_dot {ext : List UInt8} (h : 46 ∉ ext) (base : List UInt8) (i : ℕ) (dot : Option ℕ) :
    lastDot (base ++ 46 :: ext) i dot = some (i + base.length) := by
  induction base generalizing i dot with
  | nil =>
    rw [List.nil_append, lastDot, if_pos rfl, lastDot_noDot h]
    rfl
  | cons c base ih =>
    rw [List.cons_append, lastDot, ih, List.length_cons, Nat.add_assoc, Nat.add_comm 1]

@[simp] theorem length_packPart (n : ℕ) (l : List UInt8) : (packPart n l).length = n := by
  rw [packPart, List.length_append, List.length_map, List.length_replicate, List.length_take]
  omega

theorem take_min_length (l : List UInt8) (n : ℕ) : l.take (min l.length n) = l.take n := by
  rw [List.take_eq_take_iff]
  omega

/-- The first part over eleven spaces. -/
theorem splice_spaces (l : List UInt8) : splice (List.replicate 11 32) 0 ((l.take 8).map upper) =
    packPart 8 l ++ List.replicate 3 32 := by
  have hle : (l.take 8).length ≤ 8 := by
    rw [List.length_take]
    omega
  have hpad : List.replicate (8 - (l.take 8).length) (32 : UInt8) ++ List.replicate 3 32 =
      List.replicate (11 - (l.take 8).length) 32 := by
    rw [List.replicate_append_replicate]
    congr 1
    omega
  rw [splice, packPart, List.append_assoc, List.append_assoc, hpad, List.take_zero, List.nil_append,
    List.length_map, List.drop_replicate, Nat.zero_add]

/-- A packed name without a dot. -/
theorem fatNameTo83_noDot {name : List UInt8} (h : 46 ∉ name) :
    fatNameTo83 name = packPart 8 name ++ packPart 3 [] := by
  rw [fatNameTo83, lastDot_noDot h]
  simp only [Option.getD_none, take_min_length]
  exact splice_spaces name

/-- A packed name with a dot. -/
theorem fatNameTo83_dot (base : List UInt8) {ext : List UInt8} (h : 46 ∉ ext) :
    fatNameTo83 (base ++ 46 :: ext) = packPart 8 base ++ packPart 3 ext := by
  have hbase : (base ++ 46 :: ext).take (min base.length 8) = base.take 8 := by
    rw [List.take_append_of_le_length (Nat.min_le_left _ _), take_min_length]
  have hext : (base ++ 46 :: ext).drop (base.length + 1) = ext := by
    rw [List.drop_append, List.drop_of_length_le (by omega), Nat.add_sub_cancel_left]
    rfl
  have hle : (ext.take 3).length ≤ 3 := by
    rw [List.length_take]
    omega
  rw [fatNameTo83, lastDot_dot h]
  simp only [Option.getD_some, Nat.zero_add, hbase, hext]
  rw [splice_spaces, splice, List.take_left' (length_packPart 8 base), List.append_assoc, List.length_map,
    ← List.drop_drop, List.drop_left' (length_packPart 8 base), List.drop_replicate]
  rfl

/-- Padding does not show. -/
theorem takeWhile_pad (l : List UInt8) (k : ℕ) :
    (l ++ List.replicate k 32).takeWhile (· ≠ 32) = l.takeWhile (· ≠ 32) := by
  induction l with
  | nil =>
    rw [List.nil_append, List.takeWhile_replicate, if_neg (by decide)]
    rfl
  | cons c l ih =>
    rw [List.cons_append, List.takeWhile_cons, List.takeWhile_cons, ih]

theorem takeWhile_packPart (n : ℕ) (l : List UInt8) : (packPart n l).takeWhile (· ≠ 32) =
    ((l.take n).takeWhile (· ≠ 32)).map upper := by
  have hcomp : ((fun c : UInt8 => decide (c ≠ 32)) ∘ upper) = fun c => decide (c ≠ 32) := by
    funext c
    simp only [Function.comp, ne_eq, upper_eq_space]
  rw [packPart, takeWhile_pad, List.takeWhile_map, hcomp]

theorem map_lower_upper (l : List UInt8) : (l.map upper).map lower = l.map lower := by
  rw [List.map_map]
  exact List.map_congr_left fun c _ => lower_upper c

theorem getD_packPart (ext : List UInt8) : (packPart 3 ext).getD 0 32 = upper (ext.headD 32) := by
  cases ext with
  | nil => rfl
  | cons c ext => rfl

/-- The shown form of packed parts. -/
theorem fat83ToName_pack (base ext : List UInt8) : fat83ToName (packPart 8 base ++ packPart 3 ext) =
    ((base.take 8).takeWhile (· ≠ 32)).map lower ++
      if ext.headD 32 ≠ 32 then 46 :: ((ext.take 3).takeWhile (· ≠ 32)).map lower else [] := by
  have hbase := length_packPart 8 base
  have hext : (packPart 3 ext).take 3 = packPart 3 ext :=
    List.take_of_length_le (Nat.le_of_eq (length_packPart 3 ext))
  have hfirst : (packPart 8 base ++ packPart 3 ext).getD 8 32 = upper (ext.headD 32) := by
    rw [List.getD_append_right _ _ _ _ (Nat.le_of_eq hbase), hbase, getD_packPart]
  rw [fat83ToName, List.take_left' hbase, List.drop_left' hbase, hext, hfirst, takeWhile_packPart,
    takeWhile_packPart, map_lower_upper, map_lower_upper]
  simp only [ne_eq, upper_eq_space]

/-! ## The round trips -/

/-- The name with a base and an optional extension. -/
def dotted (base : List UInt8) : Option (List UInt8) → List UInt8
  | none => base
  | some ext => base ++ 46 :: ext

/-- A part of a name of at most `n` characters, none of them NUL, space or dot. -/
structure NamePart (n : ℕ) (l : List UInt8) : Prop where
  ne_nil : l ≠ []
  length_le : l.length ≤ n
  plain : ∀ c ∈ l, c ≠ 0 ∧ c ≠ 32 ∧ c ≠ 46

/-- The parts of an entry name: spaces only at their ends, no NUL, dot or lower-case letter. -/
structure EntryPart (n : ℕ) (l : List UInt8) : Prop where
  length_eq : l.length = n
  padded : ∀ c ∈ l.dropWhile (· ≠ 32), c = 32
  plain : ∀ c ∈ l, c ≠ 0 ∧ c ≠ 46 ∧ ¬(97 ≤ c ∧ c ≤ 122)

theorem NamePart.noDot {n : ℕ} {l : List UInt8} (h : NamePart n l) : 46 ∉ l :=
  fun hmem => (h.plain 46 hmem).2.2 rfl

theorem NamePart.shown {n : ℕ} {l : List UInt8} (h : NamePart n l) : (l.take n).takeWhile (· ≠ 32) = l := by
  rw [List.take_of_length_le h.length_le, List.takeWhile_eq_self_iff]
  intro c hc
  simpa using (h.plain c hc).2.1

theorem NamePart.headD {n : ℕ} {l : List UInt8} (h : NamePart n l) : l.headD 32 ≠ 32 := by
  obtain ⟨c, l, rfl⟩ := List.exists_cons_of_ne_nil h.ne_nil
  exact (h.plain c List.mem_cons_self).2.1

/-- Packing a name and showing it. -/
theorem fat83ToName_fatNameTo83 {base : List UInt8} {ext : Option (List UInt8)} (hbase : NamePart 8 base)
    (hext : ∀ x, ext = some x → NamePart 3 x) :
    fat83ToName (fatNameTo83 (dotted base ext)) = (dotted base ext).map lower := by
  cases ext with
  | none =>
    rw [dotted, fatNameTo83_noDot hbase.noDot, fat83ToName_pack, hbase.shown, if_neg (by simp),
      List.append_nil]
  | some x =>
    have hx := hext x rfl
    rw [dotted, fatNameTo83_dot base hx.noDot, fat83ToName_pack, hbase.shown, hx.shown, if_pos hx.headD,
      List.map_append, List.map_cons]
    rfl

/-- An entry part is the packed form of what is shown of it. -/
theorem EntryPart.packPart_shown {n : ℕ} {l : List UInt8} (h : EntryPart n l) :
    packPart n ((l.takeWhile (· ≠ 32)).map lower) = l := by
  have hsplit : l.takeWhile (· ≠ 32) ++ l.dropWhile (· ≠ 32) = l := List.takeWhile_append_dropWhile
  have hlen : (l.takeWhile (· ≠ 32)).length + (l.dropWhile (· ≠ 32)).length = n := by
    rw [← List.length_append, hsplit, h.length_eq]
  have hpad : l.dropWhile (· ≠ 32) = List.replicate (n - (l.takeWhile (· ≠ 32)).length) 32 :=
    List.eq_replicate_iff.2 ⟨by omega, h.padded⟩
  have hshort : ((l.takeWhile (· ≠ 32)).map lower).take n = (l.takeWhile (· ≠ 32)).map lower :=
    List.take_of_length_le (by rw [List.length_map]; omega)
  have hletters : ((l.takeWhile (· ≠ 32)).map lower).map upper = l.takeWhile (· ≠ 32) := by
    rw [List.map_map]
    refine (List.map_congr_left fun c hc => ?_).trans (List.map_id' _)
    exact upper_lower c (h.plain c ((List.takeWhile_sublist _).subset hc)).2.2
  rw [packPart, hshort, hletters, List.length_map, ← hpad]
  exact hsplit

theorem EntryPart.noDot {n : ℕ} {l : List UInt8} (h : EntryPart n l) :
    46 ∉ (l.takeWhile (· ≠ 32)).map lower := by
  intro hmem
  obtain ⟨c, hc, hdot⟩ := List.mem_map.1 hmem
  exact (h.plain c ((List.takeWhile_sublist _).subset hc)).2.1 ((lower_eq_dot c).1 hdot)

/-- Showing an entry name and packing it; the base may be empty. -/
theorem fatNameTo83_fat83ToName {n : List UInt8} (hbase : EntryPart 8 (n.take 8))
    (hext : EntryPart 3 (n.drop 8)) : fatNameTo83 (fat83ToName n) = n := by
  have htake : (n.drop 8).take 3 = n.drop 8 := List.take_of_length_le (Nat.le_of_eq hext.length_eq)
  have hfirst : n.getD 8 32 = (n.drop 8).headD 32 := by
    rw [List.headD_eq_head?_getD, List.head?_drop, List.getD_eq_getElem?_getD]
  rw [fat83ToName, htake, hfirst]
  have hpack := List.take_append_drop 8 n
  rw [← hbase.packPart_shown, ← hext.packPart_shown] at hpack
  by_cases hnone : (n.drop 8).headD 32 = 32
  · -- an extension that starts with a space has nothing to show
    have hempty : (n.drop 8).takeWhile (· ≠ 32) = [] := by
      cases hdrop : n.drop 8 with
      | nil => rfl
      | cons c x =>
        rw [hdrop, List.headD_cons] at hnone
        rw [List.takeWhile_cons, hnone]
        rfl
    rw [hempty] at hpack
    rw [if_neg (not_not.2 hnone), List.append_nil, fatNameTo83_noDot hbase.noDot]
    exact hpack
  · rw [if_pos hnone, fatNameTo83_dot _ hext.noDot]
    exact hpack

/-- 8.3 names round trip: packing a name of a base and an optional extension and showing it lower-cases the
name, and showing a well-formed entry name and packing it gives the same eleven bytes. -/
theorem names83_round_trip :
    (∀ (base : List UInt8) (ext : Option (List UInt8)), NamePart 8 base → (∀ x, ext = some x → NamePart 3 x) →
      fat83ToName (fatNameTo83 (dotted base ext)) = (dotted base ext).map lower) ∧
    ∀ n : List UInt8, n.length = 11 → n.headD 32 ≠ 32 → EntryPart 8 (n.take 8) → EntryPart 3 (n.drop 8) →
      fatNameTo83 (fat83ToName n) = n :=
  ⟨fun _ _ hbase hext => fat83ToName_fatNameTo83 hbase hext,
    fun _ _ _ hbase hext => fatNameTo83_fat83ToName hbase hext⟩

/-- The name `Read.me` and the entry of `FOO.C`. -/
theorem names83_round_trip_read_me :
    fat83ToName (fatNameTo83 (dotted [82, 101, 97, 100] (some [109, 101]))) =
        [114, 101, 97, 100, 46, 109, 101] ∧
      fatNameTo83 (fat83ToName [70, 79, 79, 32, 32, 32, 32, 32, 67, 32, 32]) =
        [70, 79, 79, 32, 32, 32, 32, 32, 67, 32, 32] := by
  refine ⟨?_, names83_round_trip.2 _ rfl (by decide) ⟨rfl, by decide +kernel, by decide +kernel⟩
    ⟨rfl, by decide +kernel, by decide +kernel⟩⟩
  rw [names83_round_trip.1 _ _ ⟨by decide, by decide, by decide +kernel⟩ (fun x hx => by
    obtain rfl := Option.some.inj hx
    exact ⟨by decide, by decide, by decide +kernel⟩)]
  decide

end PlantOS.Fs
