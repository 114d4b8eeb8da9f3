import Mathlib.Data.Fintype.Card

/-!
# Recency

A fixed set of slots, each with a key and the time of its last access, against the history of the accesses.
`mostRecent n` reads the `n` most recently accessed keys off the history. `Tracks` says that the valid slots
hold these keys and that their ticks are in the same order. It is kept by the two moves of a least recently
used policy: touching a slot on a hit, and reusing an unused or the oldest slot on a miss.
-/

namespace Recency

variable {κ : Type*} [DecidableEq κ]

/-! ## Histories -/

/-- The `n` most recently accessed keys of a history, the latest first. Histories are oldest first. -/
def mostRecent (n : ℕ) (accesses : List κ) : List κ := accesses.dedup.reverse.take n

/-- The accesses made after the last access to `x`. -/
def since (x : κ) (accesses : List κ) : List κ := accesses.reverse.takeWhile (· ≠ x)

@[simp] theorem mostRecent_nil (n : ℕ) : mostRecent n ([] : List κ) = [] := by simp [mostRecent]

theorem nodup_mostRecent (n : ℕ) (l : List κ) : (mostRecent n l).Nodup :=
  (List.take_sublist _ _).nodup (List.nodup_reverse.mpr l.nodup_dedup)

theorem dedup_concat (l : List κ) (x : κ) : (l ++ [x]).dedup = l.dedup.erase x ++ [x] := by
  induction l with
  | nil => simp
  | cons a l ih =>
    by_cases ha : a ∈ l
    · rw [List.cons_append, List.dedup_cons_of_mem (List.mem_append_left _ ha), ih,
        List.dedup_cons_of_mem ha]
    · rw [List.cons_append, List.dedup_cons_of_notMem ha]
      by_cases hax : a = x
      · subst hax
        have herase : l.dedup.erase a = l.dedup :=
          List.erase_of_not_mem (by rwa [List.mem_dedup])
        rw [List.dedup_cons_of_mem (by simp), ih, herase, List.erase_cons_head]
      · have hnot : a ∉ l ++ [x] := by simp [ha, hax]
        rw [List.dedup_cons_of_notMem hnot, ih, List.erase_cons_tail (by simpa using hax)]
        rfl

/-- Accessing the latest key again changes nothing. -/
theorem mostRecent_concat_concat (n : ℕ) (l : List κ) (x : κ) :
    mostRecent n (l ++ [x] ++ [x]) = mostRecent n (l ++ [x]) := by
  have hnot : x ∉ l.dedup.erase x := l.nodup_dedup.not_mem_erase
  rw [mostRecent, mostRecent, dedup_concat, dedup_concat, List.erase_append_right _ hnot]
  simp

theorem take_erase_of_mem {x : κ} {r : List κ} {m : ℕ} (h : x ∈ r.take (m + 1)) :
    (r.erase x).take m = (r.take (m + 1)).erase x := by
  induction r generalizing m with
  | nil => simp
  | cons y ys ih =>
    by_cases hy : y = x
    · subst hy
      simp
    · have hmem : x ∈ ys.take m := by
        simpa [Ne.symm hy] using h
      cases m with
      | zero => simp at hmem
      | succ k =>
        rw [List.erase_cons_tail (by simpa using hy), List.take_succ_cons, List.take_succ_cons, ih hmem,
          List.erase_cons_tail (by simpa using hy)]

theorem take_erase_of_notMem {x : κ} {r : List κ} {m : ℕ} (h : x ∉ r.take m) :
    (r.erase x).take m = r.take m := by
  induction r generalizing m with
  | nil => simp
  | cons y ys ih =>
    cases m with
    | zero => simp
    | succ k =>
      rw [List.take_succ_cons, List.mem_cons, not_or] at h
      rw [List.erase_cons_tail (by simpa using Ne.symm h.1), List.take_succ_cons, List.take_succ_cons,
        ih h.2]

theorem mostRecent_concat (m : ℕ) (l : List κ) (x : κ) :
    mostRecent (m + 1) (l ++ [x]) = x :: (l.dedup.reverse.erase x).take m := by
  have herase : (l.dedup.erase x).reverse = l.dedup.reverse.erase x := by
    rw [l.nodup_dedup.erase_eq_filter, (List.nodup_reverse.mpr l.nodup_dedup).erase_eq_filter,
      List.filter_reverse]
  rw [mostRecent, dedup_concat, List.reverse_append, herase]
  rfl

/-- An access to one of the most recent keys moves it to the front. -/
theorem mostRecent_concat_of_mem {n : ℕ} {l : List κ} {x : κ} (h : x ∈ mostRecent n l) :
    mostRecent n (l ++ [x]) = x :: (mostRecent n l).erase x := by
  cases n with
  | zero => simp [mostRecent] at h
  | succ m =>
    rw [mostRecent_concat, take_erase_of_mem h]
    rfl

/-- An access to any other key puts it in front, and drops the oldest one if there are `n` already. -/
theorem mostRecent_concat_of_notMem {n : ℕ} (hn : 0 < n) {l : List κ} {x : κ} (h : x ∉ mostRecent n l) :
    mostRecent n (l ++ [x]) =
      x :: if (mostRecent n l).length < n then mostRecent n l else (mostRecent n l).dropLast := by
  obtain ⟨m, rfl⟩ := Nat.exists_eq_add_of_lt hn
  rw [Nat.zero_add] at h ⊢
  have hm : x ∉ l.dedup.reverse.take m := fun hx =>
    h ((List.take_sublist_take_left (Nat.le_succ m)).mem hx)
  rw [mostRecent_concat, take_erase_of_notMem hm]
  congr 1
  set r := l.dedup.reverse with hr
  have hlen : (mostRecent (m + 1) l).length = min (m + 1) r.length := by simp [mostRecent, hr]
  by_cases hfull : r.length ≤ m
  · rw [if_pos (by omega), mostRecent, ← hr, List.take_of_length_le hfull,
      List.take_of_length_le (by omega)]
  · rw [if_neg (by omega), List.dropLast_eq_take, mostRecent, ← hr, List.take_take, List.length_take]
    congr 1
    omega

omit [DecidableEq κ] in
theorem mem_take_middle {x : κ} {a t : List κ} (h : x ∉ a) (n : ℕ) :
    x ∈ (a ++ x :: t).take n ↔ a.length < n := by
  have ha : x ∉ a.take n := fun hx => h ((List.take_sublist _ _).mem hx)
  rw [List.take_append, List.mem_append, or_iff_right ha]
  cases hn : n - a.length with
  | zero => simpa using by omega
  | succ k => simpa using by omega

/-- A key is among the `n` most recent ones if it was accessed, and fewer than `n` other keys have been
accessed since. -/
theorem mem_mostRecent {n : ℕ} {l : List κ} {x : κ} :
    x ∈ mostRecent n l ↔ x ∈ l ∧ (since x l).toFinset.card < n := by
  by_cases hx : x ∈ l
  · -- split the history at the last access to `x`
    obtain ⟨s, p, hrev, hs⟩ := List.eq_append_cons_of_mem (List.mem_reverse.mpr hx)
    have hsince : since x l = s := by
      rw [since, hrev, List.takeWhile_append_of_pos (by simpa using fun y hy => ne_of_mem_of_not_mem hy hs),
        List.takeWhile_cons_of_neg (by simp), List.append_nil]
    have hl : l = p.reverse ++ x :: s.reverse := by
      rw [← List.reverse_reverse l, hrev]
      simp
    obtain ⟨t, -, ht⟩ := List.sublist_suffix_of_union p.reverse (x :: s.reverse).dedup
    have hdedup : l.dedup.reverse = s.reverse.dedup.reverse ++ x :: t.reverse := by
      rw [hl, List.dedup_append, ← ht, List.dedup_cons_of_notMem (by simpa using hs)]
      simp
    have hcard : s.toFinset.card = s.reverse.dedup.reverse.length := by
      rw [List.length_reverse, ← List.card_toFinset, List.toFinset_reverse]
    have hnot : x ∉ s.reverse.dedup.reverse := by simpa using hs
    rw [mostRecent, hdedup, mem_take_middle hnot, hsince, hcard, and_iff_right hx]
  · refine iff_of_false (fun h => hx ?_) fun h => hx h.1
    exact List.mem_dedup.mp (List.mem_reverse.mp ((List.take_sublist _ _).mem h))

/-! ## Slots -/

/-- A slot of the cache, as far as the replacement policy looks at it. -/
structure Slot (κ : Type*) where
  key : κ
  tick : ℕ
  valid : Bool

section Ordered

variable {κ ι : Type*} {slots : ι → Slot κ} {clock : ℕ} {order : List ι}

/-- The valid slots in the order of their ticks, latest first. No tick is later than `clock`. -/
structure Ordered (slots : ι → Slot κ) (clock : ℕ) (order : List ι) : Prop where
  mem_iff : ∀ i, i ∈ order ↔ (slots i).valid
  sorted : order.Pairwise fun i j => (slots j).tick < (slots i).tick
  le_clock : ∀ i ∈ order, (slots i).tick ≤ clock

namespace Ordered

theorem nodup (h : Ordered slots clock order) : order.Nodup :=
  h.sorted.imp fun hlt heq => by
    subst heq
    exact lt_irrefl _ hlt

/-- A slot written at a later time, whatever it held, moves to the front. -/
theorem promote [DecidableEq ι] (h : Ordered slots clock order) (i : ι) (x : κ) {t : ℕ} (ht : clock < t) :
    Ordered (Function.update slots i ⟨x, t, true⟩) t (i :: order.erase i) := by
  have hne : ∀ j ∈ order.erase i, j ≠ i := fun j hj => ((h.nodup.mem_erase_iff).mp hj).1
  have hold : ∀ j ∈ order.erase i, (slots j).tick < t := fun j hj =>
    Nat.lt_of_le_of_lt (h.le_clock j (List.mem_of_mem_erase hj)) ht
  refine ⟨fun j => ?_, List.pairwise_cons.mpr ⟨fun j hj => ?_, ?_⟩, fun j hj => ?_⟩
  · by_cases hj : j = i
    · subst hj
      simp
    · simp [hj, h.nodup.mem_erase_iff, h.mem_iff]
  · simpa [hne j hj] using hold j hj
  · refine (h.sorted.sublist List.erase_sublist).imp_of_mem fun hj hk hlt => ?_
    simpa [hne _ hj, hne _ hk] using hlt
  · rcases List.mem_cons.mp hj with rfl | hj
    · simp
    · simpa [hne j hj] using (hold j hj).le

/-- The valid slot with the earliest tick comes last. -/
theorem exists_concat (h : Ordered slots clock order) {i : ι} (hi : (slots i).valid)
    (hmin : ∀ j, (slots i).tick ≤ (slots j).tick) : ∃ p, order = p ++ [i] := by
  have hmem := (h.mem_iff i).mpr hi
  obtain ⟨p, k, rfl⟩ := (List.eq_nil_or_concat order).resolve_left (List.ne_nil_of_mem hmem)
  rw [List.concat_eq_append] at h hmem ⊢
  rcases List.mem_append.mp hmem with hp | hk
  · have hlt := (List.pairwise_append.mp h.sorted).2.2 i hp k (List.mem_singleton_self k)
    exact absurd (hmin k) (by omega)
  · exact ⟨p, by rw [List.mem_singleton.mp hk]⟩

theorem length_lt_card [Fintype ι] (h : Ordered slots clock order) {i : ι} (hi : (slots i).valid = false) :
    order.length < Fintype.card ι := by
  have hnot : i ∉ order := fun hmem => by simp [(h.mem_iff i).mp hmem] at hi
  exact (List.nodup_cons.mpr ⟨hnot, h.nodup⟩).length_le_card

theorem length_eq_card [Fintype ι] (h : Ordered slots clock order) (hall : ∀ i, (slots i).valid) :
    order.length = Fintype.card ι := by
  classical
  rw [← List.toFinset_card_of_nodup h.nodup, ← Finset.card_univ]
  congr 1
  ext i
  simp [h.mem_iff, hall]

/-- The keys after `promote`. -/
theorem map_key_promote [DecidableEq ι] (h : Ordered slots clock order) (i : ι) (s : Slot κ) :
    (i :: order.erase i).map (fun j => (Function.update slots i s j).key) =
      s.key :: (order.erase i).map fun j => (slots j).key := by
  rw [List.map_cons, Function.update_self]
  congr 1
  refine List.map_congr_left fun j hj => ?_
  rw [Function.update_of_ne ((h.nodup.mem_erase_iff).mp hj).1]

end Ordered

end Ordered

/-! ## The policy -/

variable {ι : Type*} [Fintype ι] {slots : ι → Slot κ} {clock : ℕ} {accesses : List κ}

/-- The valid slots hold the most recently accessed keys, and their ticks are in the order of the
accesses. -/
def Tracks (slots : ι → Slot κ) (clock : ℕ) (accesses : List κ) : Prop :=
  ∃ order, Ordered slots clock order ∧
    order.map (fun i => (slots i).key) = mostRecent (Fintype.card ι) accesses

/-- The slots a miss may reuse: an unused one, or the oldest if all are in use. -/
def Reusable (slots : ι → Slot κ) (i : ι) : Prop :=
  (slots i).valid = false ∨ (∀ j, (slots j).valid) ∧ ∀ j, (slots i).tick ≤ (slots j).tick

namespace Tracks

theorem of_invalid (clock : ℕ) (h : ∀ i, (slots i).valid = false) : Tracks slots clock ([] : List κ) :=
  ⟨[], ⟨by simp [h], List.Pairwise.nil, by simp⟩, by simp⟩

/-- The valid slots hold exactly the most recently accessed keys. -/
theorem mem_iff (h : Tracks slots clock accesses) (x : κ) :
    x ∈ mostRecent (Fintype.card ι) accesses ↔ ∃ i, (slots i).valid ∧ (slots i).key = x := by
  obtain ⟨order, ho, hkeys⟩ := h
  rw [← hkeys, List.mem_map]
  exact exists_congr fun i => and_congr_left fun _ => ho.mem_iff i

/-- No two valid slots hold the same key. -/
theorem unique (h : Tracks slots clock accesses) {i j : ι} (hi : (slots i).valid) (hj : (slots j).valid)
    (hkey : (slots i).key = (slots j).key) : i = j := by
  obtain ⟨order, ho, hkeys⟩ := h
  have hnodup := nodup_mostRecent (Fintype.card ι) accesses
  rw [← hkeys] at hnodup
  exact List.inj_on_of_nodup_map hnodup ((ho.mem_iff i).mpr hi) ((ho.mem_iff j).mpr hj) hkey

/-- A hit gives the slot of the key the latest tick. -/
theorem hit [DecidableEq ι] (h : Tracks slots clock accesses) {i : ι} (hi : (slots i).valid) {t : ℕ}
    (ht : clock < t) :
    Tracks (Function.update slots i ⟨(slots i).key, t, true⟩) t (accesses ++ [(slots i).key]) := by
  have hmem : (slots i).key ∈ mostRecent (Fintype.card ι) accesses := (h.mem_iff _).mpr ⟨i, hi, rfl⟩
  obtain ⟨order, ho, hkeys⟩ := h
  refine ⟨i :: order.erase i, ho.promote i _ ht, ?_⟩
  have hnodup := nodup_mostRecent (Fintype.card ι) accesses
  rw [← hkeys] at hnodup
  rw [ho.map_key_promote, mostRecent_concat_of_mem hmem, ← hkeys,
    ho.nodup.erase_eq_filter, hnodup.erase_eq_filter, List.filter_map]
  congr 2
  refine List.filter_congr fun j hj => ?_
  have hiff : (slots j).key = (slots i).key ↔ j = i :=
    ⟨List.inj_on_of_nodup_map hnodup hj ((ho.mem_iff i).mpr hi), congrArg fun k => (slots k).key⟩
  simp [bne, hiff]

theorem concat_concat {x : κ} (h : Tracks slots clock (accesses ++ [x] ++ [x])) :
    Tracks slots clock (accesses ++ [x]) := by
  rwa [Tracks, mostRecent_concat_concat] at h

/-- A miss gives a reusable slot the key and the latest tick. -/
theorem miss [DecidableEq ι] (h : Tracks slots clock accesses) {i : ι} (hi : Reusable slots i) {x : κ}
    (hx : ∀ j, (slots j).valid → (slots j).key ≠ x) {t : ℕ} (ht : clock < t) :
    Tracks (Function.update slots i ⟨x, t, true⟩) t (accesses ++ [x]) := by
  have hnot : x ∉ mostRecent (Fintype.card ι) accesses := fun hmem =>
    let ⟨j, hj, hkey⟩ := (h.mem_iff x).mp hmem
    hx j hj hkey
  obtain ⟨order, ho, hkeys⟩ := h
  refine ⟨i :: order.erase i, ho.promote i x ht, ?_⟩
  rw [ho.map_key_promote, mostRecent_concat_of_notMem (Fintype.card_pos_iff.mpr ⟨i⟩) hnot, ← hkeys,
    List.length_map]
  congr 1
  rcases hi with hi | ⟨hall, hmin⟩
  · have hio : i ∉ order := fun hmem => by simp [(ho.mem_iff i).mp hmem] at hi
    rw [if_pos (ho.length_lt_card hi), List.erase_of_not_mem hio]
  · obtain ⟨p, rfl⟩ := ho.exists_concat (hall i) hmin
    have hip : i ∉ p := (List.nodup_append.mp ho.nodup).2.2 |> fun h hp => h i hp i (by simp) rfl
    rw [if_neg (by rw [ho.length_eq_card hall]; exact lt_irrefl _), List.erase_append_right _ hip]
    simp

end Tracks

end Recency
