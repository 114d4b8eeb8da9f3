import PlantOS.Mm.VmmFrames

/-!
# The free frames in their order

`pmm_alloc_page` takes the lowest free frame, so the free frames in ascending order are the frames that the
next calls return. `Vm.Takes s t l` says that between `s` and `t` the frames `l` have been allocated, in this
order, and none has been released. `Vm.Gains s t F` says only which frames have been allocated, so that others
may have been taken and given back; `Vm.SameFrames` says that the same frames are allocated.
-/

namespace PlantOS.Mm

/-- The addresses of the free frames, in ascending order. -/
def Vm.freeFrames (s : Vm) : List ℕ :=
  ((List.range s.pmm.totalPages).filter fun i => !s.pmm.bitmap i).map (· * 4096)

section FirstFree

variable {bitmap : ℕ → Bool} {n i j : ℕ}

theorem filter_of_firstFree_eq_none (h : firstFree bitmap n i = none) :
    ((List.range' i n).filter fun k => !bitmap k) = [] := by
  rw [List.filter_eq_nil_iff]
  intro k hk
  rw [List.mem_range'_1] at hk
  simp [bitmap_of_firstFree_eq_none h hk.1 hk.2]

/-- The page that the loop of `pmm_alloc_page` finds is the first free one, and taking it leaves the rest. -/
theorem filter_of_firstFree (h : firstFree bitmap n i = some j) :
    ((List.range' i n).filter fun k => !bitmap k) =
      j :: (List.range' i n).filter fun k => !Function.update bitmap j true k := by
  induction n generalizing i with
  | zero => exact absurd h (by simp [firstFree])
  | succ n ih =>
    rw [firstFree] at h
    rw [List.range'_succ]
    split at h
    · rename_i hi
      have hne : i ≠ j := by
        rintro rfl
        rw [(firstFree_spec h).1] at hi
        cases hi
      rw [List.filter_cons_of_neg (by simp [hi]),
        List.filter_cons_of_neg (by simp [Function.update_of_ne hne, hi]), ih h]
    · rename_i hi
      obtain rfl := Option.some.inj h
      rw [List.filter_cons_of_pos (by simpa using hi), List.filter_cons_of_neg (by simp)]
      congr 1
      refine List.filter_congr fun k hk => ?_
      rw [List.mem_range'_1] at hk
      rw [Function.update_of_ne (by omega)]

end FirstFree

namespace Vm

variable {s t u : Vm} {l l' : List ℕ} {a : ℕ}

theorem mem_freeFrames :
    a ∈ s.freeFrames ↔ a % 4096 = 0 ∧ a / 4096 < s.pmm.totalPages ∧ ¬s.Used a := by
  simp only [freeFrames, List.mem_map, List.mem_filter, List.mem_range, Bool.not_eq_true', Used]
  constructor
  · rintro ⟨i, ⟨hlt, hfree⟩, rfl⟩
    rw [Nat.mul_div_cancel i (by decide), hfree]
    exact ⟨Nat.mul_mod_left i 4096, hlt, by simp⟩
  · rintro ⟨hal, hlt, hnot⟩
    refine ⟨a / 4096, ⟨hlt, ?_⟩, by omega⟩
    simpa [hal] using hnot

theorem nodup_freeFrames (s : Vm) : s.freeFrames.Nodup :=
  (List.nodup_range.filter _).map fun i j (h : i * 4096 = j * 4096) => by omega

/-- Between `s` and `t` the frames `l` have been allocated, one after the other. -/
structure Takes (s t : Vm) (l : List ℕ) : Prop where
  total : t.pmm.totalPages = s.pmm.totalPages
  free : s.freeFrames = l ++ t.freeFrames
  used : ∀ a, t.Used a ↔ s.Used a ∨ a ∈ l
  count : s.pmm.usedPages < 2 ^ 64 → t.pmm.usedPages = (s.pmm.usedPages + l.length) % 2 ^ 64

theorem Takes.refl (s : Vm) : Takes s s [] :=
  ⟨rfl, rfl, by simp, fun hlt => (Nat.mod_eq_of_lt hlt).symm⟩

theorem Takes.trans (h : Takes s t l) (h' : Takes t u l') : Takes s u (l ++ l') where
  total := h'.total.trans h.total
  free := by rw [h.free, h'.free, List.append_assoc]
  used a := by rw [h'.used, h.used, List.mem_append, or_assoc]
  count hlt := by
    have ht := h.count hlt
    rw [h'.count (ht ▸ Nat.mod_lt _ (by decide)), ht, List.length_append]
    omega

/-- Writes to memory allocate nothing. -/
theorem Takes.of_pmm_eq (h : Takes s t l) (hp : u.pmm = t.pmm) : Takes s u l where
  total := hp ▸ h.total
  free := by rw [h.free, freeFrames, freeFrames, hp]
  used a := by rw [← h.used, Used, Used, hp]
  count hlt := hp ▸ h.count hlt

theorem Takes.mem_free (h : Takes s t l) (ha : a ∈ l) : a ∈ s.freeFrames :=
  h.free ▸ List.mem_append_left _ ha

theorem Takes.fresh (h : Takes s t l) (ha : a ∈ l) : s.Fresh t a :=
  ⟨(mem_freeFrames.1 (h.mem_free ha)).2.2, (h.used a).2 (.inr ha)⟩

theorem Takes.nodup (h : Takes s t l) : l.Nodup :=
  (List.sublist_append_left l t.freeFrames).nodup (h.free ▸ s.nodup_freeFrames)

/-- `pmm_alloc_page` fails if no frame is free, and takes the first of the free frames otherwise. -/
theorem alloc_takes (h0 : s.Used 0) :
    (s.freeFrames = [] ∧ s.alloc = (0, s)) ∨
      (s.alloc.1 ≠ 0 ∧ Takes s s.alloc.2 [s.alloc.1]) := by
  cases hfind : firstFree s.pmm.bitmap s.pmm.totalPages 0 with
  | none =>
    refine .inl ⟨?_, by simp only [alloc, pmmAllocPage, hfind]⟩
    rw [freeFrames, List.range_eq_range', filter_of_firstFree_eq_none hfind, List.map_nil]
  | some i =>
    have halloc : s.alloc = (i * 4096, { s with pmm := s.pmm.take i }) := by
      simp only [alloc, pmmAllocPage, hfind]
    obtain heq | ⟨hne, -, -, hused⟩ := alloc_spec h0
    · have hi : i * 4096 = 0 := by simpa [halloc] using congrArg Prod.fst heq
      have hfree := (firstFree_spec hfind).1
      rw [show i = 0 by omega] at hfree
      rw [h0.2] at hfree
      cases hfree
    · refine .inr ⟨hne, by rw [halloc]; rfl, ?_, fun a => by rw [hused, List.mem_singleton], fun _ => ?_⟩
      · rw [halloc, freeFrames, freeFrames, List.range_eq_range', filter_of_firstFree hfind]
        simp only [Pmm.take, List.map_cons, List.singleton_append, List.range_eq_range']
      · rw [halloc, Pmm.take, List.length_singleton]
        simp only [Word.wrap]
        omega

end Vm

/-! ## Releasing frames -/

section

variable {s t : Vm}

@[simp] theorem mem_foldl_free (l : List ℕ) (s : Vm) : (l.foldl Vm.free s).mem = s.mem := by
  induction l generalizing s with
  | nil => rfl
  | cons a l ih => rw [List.foldl_cons, ih, Vm.mem_free]

theorem used_of_used_foldl_free {l : List ℕ} {a : ℕ} (h : (l.foldl Vm.free s).Used a) : s.Used a := by
  induction l generalizing s with
  | nil => exact h
  | cons b l ih => exact Vm.used_of_used_free (ih h)

theorem not_used_free {a : ℕ} (ha : a / 4096 < s.pmm.totalPages) : ¬(s.free a).Used a := by
  rintro ⟨hal, hbit⟩
  rw [Vm.free, pmmFreePage] at hbit
  by_cases hused : s.pmm.bitmap (a / 4096) = true
  · rw [if_pos ⟨ha, hused⟩] at hbit
    simp [Pmm.drop] at hbit
  · rw [if_neg fun h => hused h.2] at hbit
    exact hused hbit

theorem totalPages_free (s : Vm) (a : ℕ) : (s.free a).pmm.totalPages = s.pmm.totalPages := by
  rw [Vm.free, pmmFreePage]
  dsimp only
  split <;> rfl

/-- A frame that the allocator manages is free after it has been released. -/
theorem not_used_foldl_free {l : List ℕ} {a : ℕ} (ha : a ∈ l) (hlt : a / 4096 < s.pmm.totalPages) :
    ¬(l.foldl Vm.free s).Used a := by
  induction l generalizing s with
  | nil => cases ha
  | cons b l ih =>
    rcases List.mem_cons.1 ha with rfl | ha
    · exact fun h => not_used_free hlt (used_of_used_foldl_free h)
    · exact ih ha (by rwa [totalPages_free])

/-- A loop whose steps release frames according to the memory, which does not change. -/
theorem foldl_eq_free {f : ℕ → List ℕ} {step : Vm → ℕ → Vm} {l : List ℕ}
    (hstep : ∀ t : Vm, t.mem = s.mem → ∀ i ∈ l, step t i = (f i).foldl Vm.free t) (ht : t.mem = s.mem) :
    l.foldl step t = (l.flatMap f).foldl Vm.free t := by
  induction l generalizing t with
  | nil => rfl
  | cons i l ih =>
    rw [List.foldl_cons, hstep t ht i List.mem_cons_self, List.flatMap_cons, List.foldl_append]
    exact ih (fun t' ht' j hj => hstep t' ht' j (List.mem_cons_of_mem i hj)) ((mem_foldl_free _ t).trans ht)

theorem totalPages_foldl_free (l : List ℕ) (s : Vm) :
    (l.foldl Vm.free s).pmm.totalPages = s.pmm.totalPages := by
  induction l generalizing s with
  | nil => rfl
  | cons a l ih => rw [List.foldl_cons, ih, totalPages_free]

/-- Releasing some frames leaves the others. -/
theorem used_foldl_free {l : List ℕ} {a : ℕ} (hl : ∀ b ∈ l, b % 4096 = 0) (ha : a ∉ l) (h : s.Used a) :
    (l.foldl Vm.free s).Used a := by
  induction l generalizing s with
  | nil => exact h
  | cons b l ih =>
    rw [List.mem_cons, not_or] at ha
    refine ih (fun c hc => hl c (List.mem_cons_of_mem b hc)) ha.2 (h.free ?_)
    have := hl b List.mem_cons_self
    omega

namespace Vm

variable {F : Finset ℕ} {l l' : List ℕ} {a : ℕ}

/-- From `s` to `t` exactly the frames `F` have been allocated. -/
structure Gains (s t : Vm) (F : Finset ℕ) : Prop where
  total : t.pmm.totalPages = s.pmm.totalPages
  free : ∀ a ∈ F, a ∈ s.freeFrames
  used : ∀ a, t.Used a ↔ s.Used a ∨ a ∈ F
  count : s.pmm.usedPages < 2 ^ 64 → t.pmm.usedPages = (s.pmm.usedPages + F.card) % 2 ^ 64

theorem Takes.gains (h : Takes s t l) : s.Gains t l.toFinset where
  total := h.total
  free a ha := h.mem_free (List.mem_toFinset.1 ha)
  used a := by rw [h.used, List.mem_toFinset]
  count hlt := by rw [h.count hlt, List.toFinset_card_of_nodup h.nodup]

theorem Gains.fresh (h : s.Gains t F) (ha : a ∈ F) : s.Fresh t a :=
  ⟨(mem_freeFrames.1 (h.free a ha)).2.2, (h.used a).2 (.inr ha)⟩

theorem Gains.ext (h : s.Gains t F) (hmem : t.mem = s.mem) : s.Ext t :=
  ⟨fun a ha => (h.used a).2 (.inl ha), fun a _ _ => by rw [hmem]⟩

/-- Releasing one of the frames. -/
theorem Gains.release (h : s.Gains t F) (ha : a ∈ F) : s.Gains (t.free a) (F.erase a) := by
  obtain ⟨hal, hlt, hnot⟩ := mem_freeFrames.1 (h.free a ha)
  have hbit : t.pmm.bitmap (a / 4096) = true := ((h.used a).2 (.inr ha)).2
  have hfree : t.free a = { t with pmm := t.pmm.drop (a / 4096) } := by
    rw [Vm.free, pmmFreePage]
    exact congrArg (Vm.mk t.mem) (if_pos ⟨h.total ▸ hlt, hbit⟩)
  refine ⟨(totalPages_free t a).trans h.total, fun b hb => h.free b (Finset.mem_of_mem_erase hb), ?_, ?_⟩
  · intro b
    rw [Finset.mem_erase]
    constructor
    · intro hb
      have hne : b ≠ a := by
        rintro rfl
        exact not_used_free (h.total ▸ hlt) hb
      exact ((h.used b).1 (used_of_used_free hb)).imp_right fun hF => ⟨hne, hF⟩
    · intro hb
      have hne : b ≠ a := by
        rintro rfl
        exact hb.elim hnot fun hF => hF.1 rfl
      have hused : t.Used b := (h.used b).2 (hb.imp_right And.right)
      refine hused.free ?_
      have := hused.1
      omega
  · intro hcount
    have hcard := Finset.card_pos.2 ⟨a, ha⟩
    rw [hfree, Finset.card_erase_of_mem ha]
    simp only [Pmm.drop, Word.wrap]
    rw [h.count hcount]
    omega

theorem Gains.foldl_release (hl : l.Nodup) (h : s.Gains t F) (hF : ∀ a ∈ l, a ∈ F) :
    s.Gains (l.foldl Vm.free t) (F \ l.toFinset) := by
  induction l generalizing t F with
  | nil => rwa [List.toFinset_nil, Finset.sdiff_empty]
  | cons a l ih =>
    obtain ⟨hnot, hl⟩ := List.nodup_cons.1 hl
    have hrest := ih hl (h.release (hF a List.mem_cons_self)) fun b hb =>
      Finset.mem_erase.2 ⟨fun heq => hnot (heq ▸ hb), hF b (List.mem_cons_of_mem a hb)⟩
    rwa [Finset.erase_sdiff_comm, ← Finset.sdiff_insert, ← List.toFinset_cons] at hrest

/-- The first frames are given back. -/
theorem Takes.release (h : Takes s t (l ++ l')) : s.Gains (l.foldl Vm.free t) l'.toFinset := by
  obtain ⟨hl, -, hdisj⟩ := List.nodup_append'.1 h.nodup
  have hset : (l ++ l').toFinset \ l.toFinset = l'.toFinset := by
    rw [List.toFinset_append, Finset.union_sdiff_left, Finset.sdiff_eq_self_of_disjoint]
    exact (List.disjoint_toFinset_iff_disjoint.2 hdisj).symm
  rw [← hset]
  exact h.gains.foldl_release hl fun a ha => List.mem_toFinset.2 (List.mem_append_left l' ha)

end Vm

/-- In `t` the same frames are allocated as in `s`. -/
structure Vm.SameFrames (s t : Vm) : Prop where
  total : t.pmm.totalPages = s.pmm.totalPages
  used : ∀ a, t.Used a ↔ s.Used a

/-- Releasing what has been allocated. -/
theorem Vm.Takes.undo {u : Vm} {l l' : List ℕ} (h : Vm.Takes s t l) (hu : t.SameFrames u)
    (hl : ∀ a, a ∈ l' ↔ a ∈ l) : s.SameFrames (l'.foldl Vm.free u) where
  total := (totalPages_foldl_free l' u).trans (hu.total.trans h.total)
  used a := by
    have hfree : ∀ b ∈ l', b % 4096 = 0 ∧ b / 4096 < u.pmm.totalPages ∧ ¬s.Used b := by
      intro b hb
      rw [hu.total, h.total]
      exact Vm.mem_freeFrames.1 (h.mem_free ((hl b).1 hb))
    constructor
    · intro ha
      have hnot : a ∉ l' := fun hmem => not_used_foldl_free hmem (hfree a hmem).2.1 ha
      exact ((h.used a).1 ((hu.used a).1 (used_of_used_foldl_free ha))).resolve_right
        fun hmem => hnot ((hl a).2 hmem)
    · intro ha
      refine used_foldl_free (fun b hb => (hfree b hb).1) (fun hmem => (hfree a hmem).2.2 ha) ?_
      exact (hu.used a).2 ((h.used a).2 (.inl ha))

end

end PlantOS.Mm
