import PlantOS.Mm.VmmSpaces

/-!
# The frames that `vmm_destroy_address_space` releases

`vmm_destroy_address_space` goes through the first entry of the PML4 and the first four entries of the page
directory pointer table, that is through the first 4 GB. If an address space has no tables behind these
entries (`LowOnly`), it calls `pmm_free_page` once for each frame of the address space: the user pages, the
tables and the PML4 (`vmmDestroyAddressSpace_frames`).
-/

namespace PlantOS.Mm

open NodeForest

/-! ## The frames of an address space by their paths -/

/-- The frame `a` is at the path `p`: it is the table there, or the frame of the user page there. -/
def FrameAt (mem : ℕ → ℕ → ℕ) (r : ℕ) (p : List ℕ) (a : ℕ) : Prop :=
  tableAt mem r p = some a ∨ ∃ e, UserEntry mem r p e ∧ pteAddr e = a

/-- The frame `a` is at the path `q` or below it. -/
def Under (mem : ℕ → ℕ → ℕ) (r : ℕ) (q : List ℕ) (a : ℕ) : Prop := ∃ p, q <:+ p ∧ FrameAt mem r p a

section

variable {mem : ℕ → ℕ → ℕ} {r t a i : ℕ} {p q : List ℕ}

theorem owns_iff_under : Owns mem r a ↔ Under mem r [] a := by
  constructor
  · rintro (⟨_, p, rfl, hp⟩ | ⟨_, p, e, rfl, he, ha⟩)
    · exact ⟨p, List.nil_suffix, .inl hp⟩
    · exact ⟨p, List.nil_suffix, .inr ⟨e, he, ha⟩⟩
  · rintro ⟨p, -, hp | ⟨e, he, ha⟩⟩
    · exact .inl ⟨r, p, rfl, hp⟩
    · exact .inr ⟨r, p, e, rfl, he, ha⟩

theorem UserEntry.length {e : ℕ} (h : UserEntry mem r p e) : p.length = 4 := by
  obtain ⟨k, q, pt, rfl, hq, -⟩ := leafAt_eq_some.1 h.1
  rw [List.length_cons, hq]

theorem FrameAt.length_le (h : FrameAt mem r p a) : p.length ≤ 4 := by
  rcases h with hp | ⟨e, he, -⟩
  · exact (tableAt_length hp).trans (by decide)
  · exact he.length.le

/-- At the path of a table there is no other frame. -/
theorem FrameAt.eq_table (h : FrameAt mem r q a) (ht : tableAt mem r q = some t) : a = t := by
  rcases h with hq | ⟨e, he, -⟩
  · exact Option.some.inj (hq.symm.trans ht)
  · have hlen := tableAt_length ht
    rw [he.length] at hlen
    exact absurd hlen (by decide)

theorem under_iff (ht : tableAt mem r q = some t) : Under mem r q a ↔ a = t ∨ ∃ i, Under mem r (i :: q) a := by
  constructor
  · rintro ⟨p, ⟨l, rfl⟩, hp⟩
    rcases List.eq_nil_or_concat l with rfl | ⟨l', i, rfl⟩
    · exact .inl (FrameAt.eq_table hp ht)
    · exact .inr ⟨i, _, ⟨l', by simp⟩, hp⟩
  · rintro (rfl | ⟨i, p, hp, ha⟩)
    · exact ⟨q, List.suffix_rfl, .inl ht⟩
    · exact ⟨p, (List.suffix_cons i q).trans hp, ha⟩

/-- There are frames below an entry of a table only if the entry refers to a table. -/
theorem Under.exists_table (h : Under mem r q a) (hq : q.length ≤ 3) : ∃ b, tableAt mem r q = some b := by
  obtain ⟨p, hp, ha⟩ := h
  refine Option.ne_none_iff_exists'.1 fun hnone => ?_
  rcases ha with ha | ⟨e, he, -⟩
  · rw [tableAt, walk_eq_none_of_suffix hnone hp] at ha
    cases ha
  · obtain ⟨k, q', pt, rfl, hq', -, hpt, -⟩ := leafAt_eq_some.1 he.1
    have hsuf : q <:+ q' := by
      rcases List.suffix_cons_iff.1 hp with rfl | hsuf
      · rw [List.length_cons, hq'] at hq
        exact absurd hq (by decide)
      · exact hsuf
    rw [tableAt, walk_eq_none_of_suffix hnone hsuf] at hpt
    cases hpt

theorem Under.entry (h : Under mem r (i :: q) a) (ht : tableAt mem r q = some t) (hq : q.length < 3) :
    i < 512 ∧ Present (mem t i) ∧ ¬Huge (mem t i) := by
  obtain ⟨b, hb⟩ := h.exists_table hq
  rw [tableAt_cons, ht, Option.bind_some] at hb
  obtain ⟨⟨hi, -, hp, hh⟩, -⟩ := tableChild_eq_some.1 hb
  exact ⟨hi, hp, hh⟩

/-- Below an entry of a page table there is the frame of its page. -/
theorem under_leaf (hq : q.length = 3) :
    Under mem r (i :: q) a ↔ ∃ e, UserEntry mem r (i :: q) e ∧ pteAddr e = a := by
  constructor
  · rintro ⟨p, hp, ha⟩
    have hlen : (i :: q).length = 4 := by rw [List.length_cons, hq]
    obtain rfl : i :: q = p := hp.eq_of_length (le_antisymm hp.length_le (by rw [hlen]; exact ha.length_le))
    rcases ha with ha | ha
    · have hle := tableAt_length ha
      rw [hlen] at hle
      exact absurd hle (by decide)
    · exact ha
  · exact fun he => ⟨i :: q, List.suffix_rfl, .inr he⟩

end

section

variable {K : Kernel} {roots : ℕ → Prop} {s : Vm} {r : ℕ}

/-- No frame is at two paths. -/
theorem FrameInv.path_unique (h : FrameInv K True roots s) (hr : roots r) {p p' : List ℕ} {a : ℕ}
    (hp : FrameAt s.mem r p a) (hp' : FrameAt s.mem r p' a) : p = p' := by
  rcases hp with hp | ⟨e, he, rfl⟩
  · rcases hp' with hp' | ⟨e', he', rfl⟩
    · exact (h.forest hr hr hp hp').2
    · exact absurd ⟨r, p, hr, hp⟩ (h.user r p' e' hr he').2.2
  · rcases hp' with hp' | ⟨e', he', heq⟩
    · exact absurd ⟨r, p', hr, hp'⟩ (h.user r p e hr he).2.2
    · exact (h.unique trivial r r p p' e e' hr hr he he' heq.symm).2

theorem FrameInv.under_unique (h : FrameInv K True roots s) (hr : roots r) {q : List ℕ} {i j a : ℕ}
    (hi : Under s.mem r (i :: q) a) (hj : Under s.mem r (j :: q) a) : i = j := by
  obtain ⟨p, hp, ha⟩ := hi
  obtain ⟨p', hp', ha'⟩ := hj
  obtain rfl := h.path_unique hr ha ha'
  have heq : i :: q = j :: q := (List.suffix_of_suffix_length_le hp hp' (by simp)).eq_of_length (by simp)
  exact (List.cons.inj heq).1

/-- The list has each frame at the path `q` and below it once. -/
structure FramesUnder (s : Vm) (r : ℕ) (q l : List ℕ) : Prop where
  nodup : l.Nodup
  mem : ∀ a, a ∈ l ↔ Under s.mem r q a

/-- The frames of a table: those below its entries, and the table itself. -/
theorem FramesUnder.table (h : FrameInv K True roots s) (hr : roots r) {q : List ℕ} {t n : ℕ}
    {f : ℕ → List ℕ} (ht : tableAt s.mem r q = some t) (hf : ∀ i < n, FramesUnder s r (i :: q) (f i))
    (hout : ∀ i a, n ≤ i → ¬Under s.mem r (i :: q) a) :
    FramesUnder s r q ((List.range n).flatMap f ++ [t]) := by
  have hmem : ∀ a, a ∈ (List.range n).flatMap f ↔ ∃ i, Under s.mem r (i :: q) a := by
    intro a
    rw [List.mem_flatMap]
    constructor
    · rintro ⟨i, hi, ha⟩
      exact ⟨i, ((hf i (List.mem_range.1 hi)).mem a).1 ha⟩
    · rintro ⟨i, hi⟩
      have hlt : i < n := not_le.1 fun hle => hout i a hle hi
      exact ⟨i, List.mem_range.2 hlt, ((hf i hlt).mem a).2 hi⟩
  refine ⟨?_, fun a => ?_⟩
  · rw [List.nodup_append]
    refine ⟨?_, List.nodup_singleton t, ?_⟩
    · rw [List.nodup_flatMap]
      refine ⟨fun i hi => (hf i (List.mem_range.1 hi)).nodup, ?_⟩
      refine List.nodup_range.imp_of_mem fun {i j} hi hj hne a hai haj => ?_
      exact hne (h.under_unique hr (((hf i (List.mem_range.1 hi)).mem a).1 hai)
        (((hf j (List.mem_range.1 hj)).mem a).1 haj))
    · rintro a ha b hb rfl
      -- the table is not below one of its entries
      rw [List.mem_singleton] at hb
      subst hb
      obtain ⟨i, p, hp, hat⟩ := (hmem a).1 ha
      obtain rfl := h.path_unique hr hat (.inl ht)
      have hlen := hp.length_le
      rw [List.length_cons] at hlen
      omega
  · rw [List.mem_append, hmem, List.mem_singleton, under_iff ht]
    exact or_comm

end

/-! ## The calls of `pmm_free_page` -/

/-- The frames that `destroyPt` releases. -/
def ptFrames (mem : ℕ → ℕ → ℕ) (pt base : ℕ) : List ℕ :=
  (List.range 512).flatMap fun k =>
    if Present (mem pt k) ∧ pteAddr (mem pt k) ≠ base + k * 2 ^ 12 then [pteAddr (mem pt k)] else []

/-- The frames that `destroyPd` releases. -/
def pdFrames (mem : ℕ → ℕ → ℕ) (pd base : ℕ) : List ℕ :=
  (List.range 512).flatMap fun j =>
    if Present (mem pd j) ∧ ¬Huge (mem pd j) then
      ptFrames mem (pteAddr (mem pd j)) (base + j * 2 ^ 21) ++ [pteAddr (mem pd j)]
    else []

/-- The frames that `destroyPdpt` releases. -/
def pdptFrames (mem : ℕ → ℕ → ℕ) (pdpt : ℕ) : List ℕ :=
  (List.range 4).flatMap fun i =>
    if Present (mem pdpt i) then pdFrames mem (pteAddr (mem pdpt i)) (i * 2 ^ 30) ++ [pteAddr (mem pdpt i)]
    else []

/-- The frames that `vmm_destroy_address_space` releases. -/
def spaceFrames (mem : ℕ → ℕ → ℕ) (r : ℕ) : List ℕ :=
  (List.range 1).flatMap (fun i =>
    if Present (mem r i) then pdptFrames mem (pteAddr (mem r i)) ++ [pteAddr (mem r i)] else []) ++ [r]

section

variable {s t : Vm}

theorem destroyPt_eq (pt base : ℕ) (ht : t.mem = s.mem) :
    destroyPt pt base t = (ptFrames s.mem pt base).foldl Vm.free t := by
  refine foldl_eq_free (fun t' ht' k _ => ?_) ht
  dsimp only
  rw [ht']
  split <;> rfl

theorem destroyPd_eq (pd base : ℕ) (ht : t.mem = s.mem) :
    destroyPd pd base t = (pdFrames s.mem pd base).foldl Vm.free t := by
  refine foldl_eq_free (fun t' ht' j _ => ?_) ht
  dsimp only
  rw [ht']
  split
  · rw [destroyPt_eq _ _ ht', List.foldl_append]
    rfl
  · rfl

theorem destroyPdpt_eq (pdpt : ℕ) (ht : t.mem = s.mem) :
    destroyPdpt pdpt t = (pdptFrames s.mem pdpt).foldl Vm.free t := by
  refine foldl_eq_free (fun t' ht' i _ => ?_) ht
  dsimp only
  rw [ht']
  split
  · rw [destroyPd_eq _ _ ht', List.foldl_append]
    rfl
  · rfl

theorem vmmDestroyAddressSpace_eq {boot r : ℕ} (hr : ¬(r = 0 ∨ r = boot)) :
    vmmDestroyAddressSpace boot s r = (spaceFrames s.mem r).foldl Vm.free s := by
  rw [vmmDestroyAddressSpace, if_neg hr, spaceFrames, List.range_one, List.flatMap_singleton]
  dsimp only
  by_cases hp : Present (s.mem r 0)
  · rw [if_neg (not_not.2 hp), if_pos hp, destroyPdpt_eq _ rfl, List.foldl_append, List.foldl_append]
    rfl
  · rw [if_pos hp, if_neg hp]
    rfl

end

section

variable {K : Kernel} {roots : ℕ → Prop} {s : Vm} {r : ℕ}

/-- The address space has no tables for addresses from 4 GB on. -/
structure LowOnly (mem : ℕ → ℕ → ℕ) (r : ℕ) : Prop where
  pml4 : ∀ i < 512, 1 ≤ i → ¬Present (mem r i)
  pdpt : Present (mem r 0) → ∀ i < 512, 4 ≤ i → ¬Present (mem (pteAddr (mem r 0)) i)

theorem framesUnder_nil {q : List ℕ} (h : ∀ a, ¬Under s.mem r q a) : FramesUnder s r q [] :=
  ⟨List.nodup_nil, fun a => iff_of_false List.not_mem_nil (h a)⟩

theorem ptFrames_spec (h : FrameInv K True roots s) (hr : roots r) {q : List ℕ} {pt base : ℕ}
    (hpt : tableAt s.mem r q = some pt) (hq : q.length = 3) (hbase : base = vpn q * 2 ^ 21) :
    FramesUnder s r q (ptFrames s.mem pt base ++ [pt]) := by
  have hvpn : ∀ k, vpn (k :: q) * 4096 = base + k * 2 ^ 12 := by
    intro k
    rw [hbase, vpn]
    omega
  have hentry : ∀ k a, Under s.mem r (k :: q) a ↔
      k < 512 ∧ Present (s.mem pt k) ∧ pteAddr (s.mem pt k) ≠ base + k * 2 ^ 12 ∧ pteAddr (s.mem pt k) = a := by
    intro k a
    rw [under_leaf hq]
    constructor
    · rintro ⟨e, ⟨he, hp, hne⟩, rfl⟩
      obtain ⟨k', q', pt', hkq, -, hk, hpt', rfl⟩ := leafAt_eq_some.1 he
      obtain ⟨rfl, rfl⟩ := List.cons.inj hkq
      obtain rfl := Option.some.inj (hpt.symm.trans hpt')
      rw [hvpn] at hne
      exact ⟨hk, hp, hne, rfl⟩
    · rintro ⟨hk, hp, hne, rfl⟩
      refine ⟨_, ⟨leafAt_eq_some.2 ⟨k, q, pt, rfl, hq, hk, hpt, rfl⟩, hp, ?_⟩, rfl⟩
      rw [hvpn]
      exact hne
  refine .table h hr hpt (fun k hk => ?_) fun k a hle hu => ?_
  · split
    · rename_i hc
      refine ⟨List.nodup_singleton _, fun a => ?_⟩
      rw [List.mem_singleton, hentry]
      exact ⟨fun ha => ⟨hk, hc.1, hc.2, ha.symm⟩, fun hu => hu.2.2.2.symm⟩
    · rename_i hc
      refine framesUnder_nil fun a hu => ?_
      obtain ⟨-, hp, hne, -⟩ := (hentry k a).1 hu
      exact hc ⟨hp, hne⟩
  · exact absurd ((hentry k a).1 hu).1 (not_lt.2 hle)

theorem pdFrames_spec (h : FrameInv K True roots s) (hr : roots r) {q : List ℕ} {pd base : ℕ}
    (hpd : tableAt s.mem r q = some pd) (hq : q.length = 2) (hbase : base = vpn q * 2 ^ 30) :
    FramesUnder s r q (pdFrames s.mem pd base ++ [pd]) := by
  refine .table h hr hpd (fun j hj => ?_) fun j a hle hu => ?_
  · split
    · rename_i hc
      have hpt := tableAt_next hpd hj (by omega) hc.1 hc.2
      refine ptFrames_spec h hr hpt (by rw [List.length_cons, hq]) ?_
      rw [hbase, vpn]
      omega
    · rename_i hc
      exact framesUnder_nil fun a hu => hc (hu.entry hpd (by omega)).2
  · exact absurd (hu.entry hpd (by omega)).1 (not_lt.2 hle)

theorem pdptFrames_spec (h : FrameInv K True roots s) (hr : roots r) {pdpt : ℕ}
    (hpdpt : tableAt s.mem r [0] = some pdpt) (hlow : ∀ i < 512, 4 ≤ i → ¬Present (s.mem pdpt i)) :
    FramesUnder s r [0] (pdptFrames s.mem pdpt ++ [pdpt]) := by
  refine .table h hr hpdpt (fun i hi => ?_) fun i a hle hu => ?_
  · split
    · rename_i hp
      have hi' : i < 512 := hi.trans (by decide)
      have hpd := tableAt_next hpdpt hi' (by decide) hp (h.not_huge hr hpdpt hi' (by decide) hp)
      exact pdFrames_spec h hr hpd rfl (by simp [vpn])
    · rename_i hp
      exact framesUnder_nil fun a hu => hp (hu.entry hpdpt (by decide)).2.1
  · obtain ⟨hi, hp, -⟩ := hu.entry hpdpt (by decide)
    exact hlow i hi hle hp

theorem spaceFrames_spec (h : FrameInv K True roots s) (hr : roots r) (hlow : LowOnly s.mem r) :
    FramesUnder s r [] (spaceFrames s.mem r) := by
  have hroot : tableAt s.mem r [] = some r := rfl
  refine .table h hr hroot (fun i hi => ?_) fun i a hle hu => ?_
  · obtain rfl : i = 0 := by omega
    split
    · rename_i hp
      have hpdpt := tableAt_next hroot (by decide) (by decide) hp
        (h.not_huge hr hroot (by decide) (by decide) hp)
      exact pdptFrames_spec h hr hpdpt (hlow.pdpt hp)
    · rename_i hp
      exact framesUnder_nil fun a hu => hp (hu.entry hroot (by decide)).2.1
  · obtain ⟨hi, hp, -⟩ := hu.entry hroot (by decide)
    exact hlow.pml4 i hi hle hp

/-- Destroying an address space without tables from 4 GB on calls `pmm_free_page` for each of its frames
once. -/
theorem vmmDestroyAddressSpace_frames (h : FrameInv K True roots s) (hr : roots r)
    (hlow : LowOnly s.mem r) :
    ∃ l : List ℕ, l.Nodup ∧ (∀ a, a ∈ l ↔ Owns s.mem r a) ∧
      vmmDestroyAddressSpace K.boot s r = l.foldl Vm.free s := by
  have hlive : ¬(r = 0 ∨ r = K.boot) := by
    rintro (h0 | hb)
    · exact h.root_ne_zero hr h0
    · exact h.root_ne_boot hr hb
  obtain ⟨hnodup, hmem⟩ := spaceFrames_spec h hr hlow
  refine ⟨_, hnodup, fun a => ?_, vmmDestroyAddressSpace_eq hlive⟩
  rw [hmem, owns_iff_under]

end

end PlantOS.Mm
