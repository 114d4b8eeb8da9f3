import Mathlib.Logic.Function.Basic

/-!
# Write-back caches

A write-back cache keeps some of the cells of a backing store in tagged lines. `Coherent lines back v`
says that lines and backing store together represent the contents `v`: tags are unique, a valid line
holds the current value of its cell, and the backing store is out of date only at the cells of dirty
lines. The lemmas below are the moves of such a cache: filling a line, storing into it, writing it back
and dropping it.
-/

namespace WriteBack

variable {ι κ α : Type*}

/-- One line: the cell it caches, the cached value and the two state bits. -/
structure Line (κ α : Type*) where
  key : κ
  val : α
  valid : Bool
  dirty : Bool

/-- Lines and backing store represent the contents `v`. -/
structure Coherent (lines : ι → Line κ α) (back v : κ → α) : Prop where
  unique : ∀ i j, (lines i).valid → (lines j).valid → (lines i).key = (lines j).key → i = j
  holds : ∀ i, (lines i).valid → (lines i).val = v (lines i).key
  backed : ∀ k, (∀ i, (lines i).valid → (lines i).dirty → (lines i).key ≠ k) → back k = v k

namespace Coherent

variable {lines : ι → Line κ α} {back v : κ → α}

/-- A cache without valid lines represents its backing store. -/
theorem of_invalid (h : ∀ i, (lines i).valid = false) : Coherent lines back back where
  unique i _ hi := by simp [h i] at hi
  holds i hi := by simp [h i] at hi
  backed _ _ := rfl

/-- A valid line that is not dirty agrees with the backing store. -/
theorem clean_eq (h : Coherent lines back v) {i : ι} (hi : (lines i).valid)
    (hd : (lines i).dirty = false) : (lines i).val = back (lines i).key := by
  rw [h.holds i hi]
  refine (h.backed _ fun j hj hjd hkey => ?_).symm
  rw [h.unique j i hj hi hkey, hd] at hjd
  exact absurd hjd (by simp)

/-- Without dirty lines the backing store is up to date. -/
theorem back_eq (h : Coherent lines back v) (hd : ∀ i, (lines i).valid → (lines i).dirty = false) :
    back = v :=
  funext fun k => h.backed k fun i hi hid => by simp [hd i hi] at hid

variable [DecidableEq ι]

/-- Replacing a line that is not valid, or keeps its tag and validity, keeps tags unique. -/
private theorem unique_update (h : Coherent lines back v) {i : ι} {l : Line κ α}
    (hl : ∀ j, j ≠ i → (lines j).valid → (lines j).key ≠ l.key) :
    ∀ a b, (Function.update lines i l a).valid → (Function.update lines i l b).valid →
      (Function.update lines i l a).key = (Function.update lines i l b).key → a = b := by
  intro a b ha hb hab
  by_cases hai : a = i <;> by_cases hbi : b = i
  · rw [hai, hbi]
  · subst hai
    rw [Function.update_self, Function.update_of_ne hbi] at hab
    rw [Function.update_of_ne hbi] at hb
    exact absurd hab.symm (hl b hbi hb)
  · subst hbi
    rw [Function.update_self, Function.update_of_ne hai] at hab
    rw [Function.update_of_ne hai] at ha
    exact absurd hab (hl a hai ha)
  · rw [Function.update_of_ne hai] at ha hab
    rw [Function.update_of_ne hbi] at hb hab
    exact h.unique a b ha hb hab

/-- Lines other than an invalid one keep their tags. -/
private theorem unique_drop (h : Coherent lines back v) {i : ι} {l : Line κ α} (hl : l.valid = false) :
    ∀ a b, (Function.update lines i l a).valid → (Function.update lines i l b).valid →
      (Function.update lines i l a).key = (Function.update lines i l b).key → a = b := by
  intro a b ha hb hab
  have hai : a ≠ i := by rintro rfl; simp [hl] at ha
  have hbi : b ≠ i := by rintro rfl; simp [hl] at hb
  rw [Function.update_of_ne hai] at ha hab
  rw [Function.update_of_ne hbi] at hb hab
  exact h.unique a b ha hb hab

/-- A line that is not dirty can be dropped. -/
theorem drop (h : Coherent lines back v) {i : ι} {l : Line κ α} (hd : (lines i).dirty = false)
    (hl : l.valid = false) : Coherent (Function.update lines i l) back v where
  unique := h.unique_drop hl
  holds j hj := by
    have hji : j ≠ i := by rintro rfl; simp [hl] at hj
    rw [Function.update_of_ne hji] at hj ⊢
    exact h.holds j hj
  backed k hk := by
    refine h.backed k fun j hj hjd => ?_
    have hji : j ≠ i := by rintro rfl; simp [hd] at hjd
    simpa only [Function.update_of_ne hji] using
      hk j (by rwa [Function.update_of_ne hji]) (by rwa [Function.update_of_ne hji])

/-- A line can be marked dirty at any time. -/
theorem mark (h : Coherent lines back v) (i : ι) :
    Coherent (Function.update lines i { lines i with dirty := true }) back v where
  unique a b ha hb hab := by
    have hv : ∀ j, (Function.update lines i { lines i with dirty := true } j).valid = (lines j).valid ∧
        (Function.update lines i { lines i with dirty := true } j).key = (lines j).key := fun j => by
      by_cases hj : j = i
      · subst hj; simp
      · simp [hj]
    rw [(hv a).1] at ha
    rw [(hv b).1] at hb
    rw [(hv a).2, (hv b).2] at hab
    exact h.unique a b ha hb hab
  holds j hj := by
    by_cases hji : j = i
    · subst hji
      simpa using h.holds j (by simpa using hj)
    · rw [Function.update_of_ne hji] at hj ⊢
      exact h.holds j hj
  backed k hk := by
    refine h.backed k fun j hj hjd => ?_
    by_cases hji : j = i
    · subst hji
      simpa using hk j (by simpa using hj) (by simp)
    · simpa only [Function.update_of_ne hji] using
        hk j (by rwa [Function.update_of_ne hji]) (by rwa [Function.update_of_ne hji])

/-- Filling a line from the store, when no line holds that cell. -/
theorem fill (h : Coherent lines back v) {i : ι} {k : κ} (hi : (lines i).valid = false)
    (hk : ∀ j, (lines j).valid → (lines j).key ≠ k) :
    Coherent (Function.update lines i ⟨k, back k, true, false⟩) back v where
  unique := h.unique_update fun j _ hj => hk j hj
  holds j hj := by
    by_cases hji : j = i
    · subst hji
      simpa using h.backed k fun a ha _ => hk a ha
    · rw [Function.update_of_ne hji] at hj ⊢
      exact h.holds j hj
  backed c hc := by
    refine h.backed c fun j hj hjd => ?_
    have hji : j ≠ i := by rintro rfl; simp [hi] at hj
    simpa only [Function.update_of_ne hji] using
      hc j (by rwa [Function.update_of_ne hji]) (by rwa [Function.update_of_ne hji])

variable [DecidableEq κ]

/-- A line can be dropped without writing it back: its cell falls back to the backing store. -/
theorem lose (h : Coherent lines back v) {i : ι} {l : Line κ α} (hi : (lines i).valid)
    (hl : l.valid = false) :
    Coherent (Function.update lines i l) back
      (Function.update v (lines i).key (back (lines i).key)) where
  unique := h.unique_drop hl
  holds j hj := by
    have hji : j ≠ i := by rintro rfl; simp [hl] at hj
    rw [Function.update_of_ne hji] at hj ⊢
    rw [Function.update_of_ne fun hkey => hji (h.unique j i hj hi hkey)]
    exact h.holds j hj
  backed k hk := by
    by_cases hki : k = (lines i).key
    · rw [hki, Function.update_self]
    · rw [Function.update_of_ne hki]
      refine h.backed k fun j hj hjd hkey => ?_
      have hji : j ≠ i := fun hji => hki (by rw [← hkey, hji])
      exact hk j (by rwa [Function.update_of_ne hji]) (by rwa [Function.update_of_ne hji])
        (by rwa [Function.update_of_ne hji])

/-- Writing a valid line back to the store makes it clean. -/
theorem flush (h : Coherent lines back v) {i : ι} (hi : (lines i).valid) :
    Coherent (Function.update lines i { lines i with dirty := false })
      (Function.update back (lines i).key (lines i).val) v where
  unique := h.unique_update fun j hj hjv hkey => hj (h.unique j i hjv hi hkey)
  holds j hj := by
    by_cases hji : j = i
    · subst hji
      simpa using h.holds j hi
    · rw [Function.update_of_ne hji] at hj ⊢
      exact h.holds j hj
  backed k hk := by
    by_cases hki : k = (lines i).key
    · subst hki
      rw [Function.update_self, h.holds i hi]
    · rw [Function.update_of_ne hki]
      refine h.backed k fun j hj hjd hkey => ?_
      have hji : j ≠ i := fun hji => hki (by rw [← hkey, hji])
      exact hk j (by rwa [Function.update_of_ne hji]) (by rwa [Function.update_of_ne hji])
        (by rwa [Function.update_of_ne hji])

/-- Storing `x` for cell `k` into a line that holds `k`, or into an unused line when none does. -/
theorem store (h : Coherent lines back v) {i : ι} {k : κ} (x : α)
    (hk : ∀ j, j ≠ i → (lines j).valid → (lines j).key ≠ k)
    (hi : (lines i).valid → (lines i).key = k) :
    Coherent (Function.update lines i ⟨k, x, true, true⟩) back (Function.update v k x) where
  unique := h.unique_update hk
  holds j hj := by
    by_cases hji : j = i
    · subst hji
      simp
    · rw [Function.update_of_ne hji] at hj ⊢
      rw [Function.update_of_ne (hk j hji hj)]
      exact h.holds j hj
  backed c hc := by
    have hck : c ≠ k := fun hck => hc i (by simp) (by simp) (by simpa using hck.symm)
    rw [Function.update_of_ne hck]
    refine h.backed c fun j hj hjd hjc => ?_
    by_cases hji : j = i
    · subst hji
      exact hck (hjc.symm.trans (hi hj))
    · exact hc j (by rwa [Function.update_of_ne hji]) (by rwa [Function.update_of_ne hji])
        (by rwa [Function.update_of_ne hji])

end Coherent

end WriteBack
