import PlantOS.Mm.Vmm

/-!
# Frames and entries

Facts about single frames and single page-table entries that the proofs about `vmm.c` use: what an
allocation and a release change, and how an entry is taken apart. `Vm.Keeps` relates two states between
which no allocated frame was released, and none was written outside of a given set.
-/

namespace PlantOS.Mm

/-! ## Entries -/

theorem or_eq_add {a b : ℕ} (ha : a % 4096 = 0) (hb : b < 4096) : a ||| b = a + b := by
  have h := Nat.two_pow_add_eq_or_of_lt (i := 12) (by simpa using hb) (a / 4096)
  have ha' : 2 ^ 12 * (a / 4096) = a := by omega
  rw [ha'] at h
  exact h.symm

/-- The flags of an entry do not reach into its address. -/
theorem pteAddr_or {a b : ℕ} (ha : a % 4096 = 0) (hb : b < 4096) : pteAddr (a ||| b) = a := by
  rw [or_eq_add ha hb, pteAddr]
  omega

theorem pteFlags_or {a b : ℕ} (ha : a % 4096 = 0) (hb : b < 4096) : pteFlags (a ||| b) = b := by
  rw [or_eq_add ha hb, pteFlags]
  omega

theorem present_or {a b : ℕ} (ha : a % 4096 = 0) (hb : b < 4096) :
    Present (a ||| b) ↔ Present b := by
  rw [or_eq_add ha hb, Present, Present]
  omega

theorem huge_or {a b : ℕ} (ha : a % 4096 = 0) (hb : b < 4096) : Huge (a ||| b) ↔ Huge b := by
  rw [or_eq_add ha hb, Huge, Huge]
  omega

theorem pteAddr_aligned (e : ℕ) : pteAddr e % 4096 = 0 := by
  rw [pteAddr]
  omega

theorem pteFlags_lt (e : ℕ) : pteFlags e < 4096 := Nat.mod_lt _ (by decide)

theorem present_pteFlags (e : ℕ) : Present (pteFlags e) ↔ Present e := by
  rw [Present, Present, pteFlags]
  omega

theorem huge_pteFlags (e : ℕ) : Huge (pteFlags e) ↔ Huge e := by
  rw [Huge, Huge, pteFlags]
  omega

/-- What `get_or_create_table` is called with by `vmm_map_page_in`. -/
theorem tblFlags_cases (flags : ℕ) : tblFlags flags = 3 ∨ tblFlags flags = 7 := by
  rw [tblFlags]
  split
  · exact .inr rfl
  · exact .inl rfl

/-- The flags of an entry that links a table. -/
theorem tblFlags_spec (flags : ℕ) :
    tblFlags flags < 4096 ∧ Present (tblFlags flags) ∧ ¬Huge (tblFlags flags) := by
  obtain h | h := tblFlags_cases flags <;> rw [h] <;> decide

namespace Vm

variable {s s' s'' : Vm} {a b : ℕ} {P : ℕ → Prop}

/-! ## Frames -/

/-- The frame at `a` is marked used in the bitmap. -/
def Used (s : Vm) (a : ℕ) : Prop := a % 4096 = 0 ∧ s.pmm.bitmap (a / 4096) = true

instance (s : Vm) : DecidablePred s.Used := fun _ => inferInstanceAs (Decidable (_ ∧ _))

theorem mem_setPage_self {w : ℕ → ℕ} : (s.setPage a w).mem a = w := Function.update_self ..

theorem mem_setPage_ne {w : ℕ → ℕ} (h : a ≠ b) : (s.setPage b w).mem a = s.mem a :=
  Function.update_of_ne h ..

theorem mem_set_self {i e : ℕ} : (s.set a i e).mem a = Function.update (s.mem a) i e :=
  Function.update_self ..

theorem mem_set_ne {i e : ℕ} (h : a ≠ b) : (s.set b i e).mem a = s.mem a :=
  Function.update_of_ne h ..

@[simp] theorem mem_free : (s.free a).mem = s.mem := rfl

@[simp] theorem mem_alloc : s.alloc.2.mem = s.mem := rfl

theorem used_of_used_free (h : (s.free a).Used b) : s.Used b := by
  refine ⟨h.1, ?_⟩
  have hb := h.2
  simp only [free, pmmFreePage] at hb
  split at hb
  · by_contra hne
    simp only [Pmm.drop, Function.update_apply] at hb
    split at hb
    · exact absurd hb (by decide)
    · exact hne hb
  · exact hb

/-- Releasing one frame leaves the others. -/
theorem Used.free (h : s.Used b) (hne : b ≠ a / 4096 * 4096) : (s.free a).Used b := by
  refine ⟨h.1, ?_⟩
  have hpage : b / 4096 ≠ a / 4096 := by
    have := h.1
    omega
  simp only [Vm.free, pmmFreePage]
  split
  · simp only [Pmm.drop, Function.update_of_ne hpage]
    exact h.2
  · exact h.2

/-- What `pmm_alloc_page` can do: fail and change nothing, or mark one more frame. -/
theorem alloc_spec (h0 : s.Used 0) :
    s.alloc = (0, s) ∨
      (s.alloc.1 ≠ 0 ∧ s.alloc.1 % 4096 = 0 ∧ ¬s.Used s.alloc.1 ∧
        ∀ b, s.alloc.2.Used b ↔ s.Used b ∨ b = s.alloc.1) := by
  cases hfind : firstFree s.pmm.bitmap s.pmm.totalPages 0 with
  | none =>
    left
    simp only [alloc, pmmAllocPage, hfind]
  | some i =>
    right
    have hfree := (firstFree_spec hfind).1
    have halloc : s.alloc = (i * 4096, { s with pmm := s.pmm.take i }) := by
      simp only [alloc, pmmAllocPage, hfind]
    rw [halloc]
    have hi : i * 4096 / 4096 = i := by omega
    have hnot : ¬s.Used (i * 4096) := by
      intro h
      rw [Used, hi, hfree] at h
      exact absurd h.2 (by decide)
    refine ⟨?_, by omega, hnot, ?_⟩
    · intro (hzero : i * 4096 = 0)
      rw [hzero] at hnot
      exact hnot h0
    · intro b
      simp only [Used, Pmm.take, Function.update_apply]
      by_cases hb : b / 4096 = i
      · rw [if_pos hb, hb, hfree]
        constructor
        · intro h
          right
          omega
        · rintro (h | h)
          · exact absurd h.2 (by decide)
          · exact ⟨by omega, rfl⟩
      · rw [if_neg hb]
        constructor
        · exact .inl
        · rintro (h | rfl)
          · exact h
          · exact absurd hi hb

/-! ## States that extend another one -/

/-- Every frame allocated in `s` is still allocated in `s'`, and has its contents unless it is in `P`. -/
structure Keeps (P : ℕ → Prop) (s s' : Vm) : Prop where
  used : ∀ a, s.Used a → s'.Used a
  mem : ∀ a, s.Used a → ¬P a → s'.mem a = s.mem a

/-- `s'` has all frames of `s` unchanged. -/
abbrev Ext (s s' : Vm) : Prop := Keeps (fun _ => False) s s'

theorem Keeps.refl (P : ℕ → Prop) (s : Vm) : Keeps P s s := ⟨fun _ h => h, fun _ _ _ => rfl⟩

theorem Keeps.trans (h : Keeps P s s') (h' : Keeps P s' s'') : Keeps P s s'' where
  used a ha := h'.used a (h.used a ha)
  mem a ha hP := (h'.mem a (h.used a ha) hP).trans (h.mem a ha hP)

theorem Keeps.mono {Q : ℕ → Prop} (h : Keeps P s s') (hPQ : ∀ a, s.Used a → P a → Q a) :
    Keeps Q s s' where
  used := h.used
  mem a ha hQ := h.mem a ha fun hP => hQ (hPQ a ha hP)

theorem Ext.mem_eq (h : Ext s s') (ha : s.Used a) : s'.mem a = s.mem a := h.mem a ha id

theorem Ext.keeps (h : Ext s s') (P : ℕ → Prop) : Keeps P s s' := h.mono fun _ _ hf => hf.elim

/-- If the frames that may change are not allocated in `s`, none does. -/
theorem Keeps.ext (h : Keeps P s s') (hP : ∀ a, P a → ¬s.Used a) : Ext s s' :=
  h.mono fun a ha hPa => hP a hPa ha

theorem Keeps.alloc (h : Keeps P s s') (h0 : s.Used 0) : Keeps P s s'.alloc.2 where
  used a ha := by
    obtain heq | ⟨-, -, -, hused⟩ := alloc_spec (h.used 0 h0)
    · rw [heq]
      exact h.used a ha
    · exact (hused a).2 (.inl (h.used a ha))
  mem a ha hP := h.mem a ha hP

/-- Writing a frame that `s` has not allocated, or that is in `P`. -/
theorem Keeps.setPage (h : Keeps P s s') (hb : s.Used b → P b) {w : ℕ → ℕ} :
    Keeps P s (s'.setPage b w) where
  used := h.used
  mem a ha hP := by
    have hne : a ≠ b := by
      rintro rfl
      exact hP (hb ha)
    rw [mem_setPage_ne hne]
    exact h.mem a ha hP

theorem Keeps.set (h : Keeps P s s') (hb : s.Used b → P b) {i e : ℕ} :
    Keeps P s (s'.set b i e) :=
  h.setPage hb

/-- Releasing a frame that `s` has not allocated. -/
theorem Keeps.free (h : Keeps P s s') (hb : ¬s.Used b) (hal : b % 4096 = 0) :
    Keeps P s (s'.free b) where
  used a ha := (h.used a ha).free fun hab => hb (by
    rwa [hab, Nat.div_mul_cancel (Nat.dvd_of_mod_eq_zero hal)] at ha)
  mem := h.mem

/-- The frame at `a` has been allocated between `s` and `s'`. -/
structure Fresh (s s' : Vm) (a : ℕ) : Prop where
  not_used : ¬s.Used a
  used : s'.Used a

theorem Fresh.aligned (h : Fresh s s' a) : a % 4096 = 0 := h.used.1

theorem Fresh.ne (h : Fresh s s' a) (hb : s.Used b) : a ≠ b := by
  rintro rfl
  exact h.not_used hb

/-- A frame that is new for `s'` is new for an earlier state. -/
theorem Fresh.of_keeps (hx : Keeps P s s') (h : Fresh s' s'' a) : Fresh s s'' a where
  not_used ha := h.not_used (hx.used a ha)
  used := h.used

theorem Fresh.keeps (h : Fresh s s' a) (hx : Keeps P s' s'') : Fresh s s'' a where
  not_used := h.not_used
  used := hx.used a h.used

/-- What `pmm_alloc_page` can do, with what the callers use. -/
theorem alloc_cases (h0 : s.Used 0) :
    s.alloc = (0, s) ∨
      (s.alloc.1 ≠ 0 ∧ Fresh s s.alloc.2 s.alloc.1 ∧ Ext s s.alloc.2) := by
  obtain heq | ⟨hne, -, hnot, hused⟩ := alloc_spec h0
  · exact .inl heq
  · exact .inr ⟨hne, ⟨hnot, (hused _).2 (.inr rfl)⟩, (Keeps.refl _ s).alloc h0⟩

end Vm

end PlantOS.Mm
