import Mathlib.Data.List.Induction

/-!
# Runs of a step function

A deterministic system with an explicit input at every step: `run step s as` threads the state through
the inputs `as`. Nondeterminism (scheduling, the network, a fault) is part of the input, so a statement
about every run is a statement about every input list.

`run_invariant` packages the induction once. `Admits` restricts the inputs by a condition on the state
in which each of them is taken, and `run_invariant_of_admits` is the corresponding rule.
-/

namespace Run

variable {σ ε : Type*}

/-- The state after the inputs `as`, taken from left to right. -/
def run (step : σ → ε → σ) (s : σ) (as : List ε) : σ := as.foldl step s

@[simp] theorem run_nil (step : σ → ε → σ) (s : σ) : run step s [] = s := rfl

@[simp] theorem run_cons (step : σ → ε → σ) (s : σ) (a : ε) (as : List ε) :
    run step s (a :: as) = run step (step s a) as := rfl

/-- A run can be cut anywhere. -/
theorem run_append (step : σ → ε → σ) (s : σ) (as bs : List ε) :
    run step s (as ++ bs) = run step (run step s as) bs :=
  List.foldl_append

/-- Every input of the run meets `ok` in the state in which it is taken. -/
def Admits (step : σ → ε → σ) (ok : σ → ε → Prop) : σ → List ε → Prop
  | _, [] => True
  | s, a :: as => ok s a ∧ Admits step ok (step s a) as

instance Admits.decidable (step : σ → ε → σ) (ok : σ → ε → Prop) [∀ s a, Decidable (ok s a)] :
    ∀ (s : σ) (as : List ε), Decidable (Admits step ok s as)
  | _, [] => .isTrue trivial
  | s, a :: as =>
    have := Admits.decidable step ok (step s a) as
    inferInstanceAs (Decidable (ok s a ∧ Admits step ok (step s a) as))

/-- A condition on the inputs alone. -/
theorem admits_of_forall {step : σ → ε → σ} {ok : σ → ε → Prop} {as : List ε}
    (h : ∀ a ∈ as, ∀ s, ok s a) (s : σ) : Admits step ok s as := by
  induction as generalizing s with
  | nil => trivial
  | cons a as ih =>
    exact ⟨h a List.mem_cons_self s, ih (fun b hb => h b (List.mem_cons_of_mem a hb)) _⟩

/-- The calls of a run are admitted if those of both of its parts are. -/
theorem admits_append {step : σ → ε → σ} {ok : σ → ε → Prop} {s : σ} {as bs : List ε} :
    Admits step ok s (as ++ bs) ↔ Admits step ok s as ∧ Admits step ok (run step s as) bs := by
  induction as generalizing s with
  | nil => exact (iff_of_eq (true_and _)).symm
  | cons a as ih =>
    show (ok s a ∧ Admits step ok (step s a) (as ++ bs)) ↔ _
    rw [ih, ← and_assoc]
    rfl

/-- What every admitted step preserves, an admitted run preserves. -/
theorem run_invariant_of_admits {step : σ → ε → σ} {ok : σ → ε → Prop} {inv : σ → Prop}
    (hstep : ∀ s a, inv s → ok s a → inv (step s a)) {s : σ} {as : List ε}
    (hs : inv s) (has : Admits step ok s as) : inv (run step s as) := by
  induction as generalizing s with
  | nil => exact hs
  | cons a as ih => exact ih (hstep s a hs has.1) has.2

/-- What every step preserves, every run preserves. -/
theorem run_invariant {step : σ → ε → σ} {inv : σ → Prop}
    (hstep : ∀ s a, inv s → inv (step s a)) {s : σ} (hs : inv s) (as : List ε) :
    inv (run step s as) := by
  induction as generalizing s with
  | nil => exact hs
  | cons a as ih => exact ih (hstep s a hs)

/-- If the admitted steps are exactly those that keep a safe state safe, then exactly the admitted runs stay
safe throughout. `inv` is what the safe states of a run have in common. -/
theorem admits_iff_safe {step : σ → ε → σ} {ok : σ → ε → Prop} (inv : σ → Prop) {safe : σ → Prop}
    (hsafe : ∀ s, inv s → safe s) (hstep : ∀ s a, inv s → ok s a → inv (step s a))
    (hbad : ∀ s a, inv s → ¬ok s a → ¬safe (step s a)) {s : σ} {as : List ε} (hs : inv s) :
    Admits step ok s as ↔ ∀ pre post, as = pre ++ post → safe (run step s pre) := by
  induction as generalizing s with
  | nil =>
    refine iff_of_true trivial fun pre post h => ?_
    rw [(List.append_eq_nil_iff.mp h.symm).1]
    exact hsafe s hs
  | cons a as ih =>
    refine ⟨fun h pre post heq => ?_, fun h => ?_⟩
    · cases pre with
      | nil => exact hsafe s hs
      | cons b pre =>
        obtain ⟨rfl, rfl⟩ := List.cons.inj heq
        exact (ih (hstep s a hs h.1)).mp h.2 pre post rfl
    · have hok : ok s a := by_contra fun hn => hbad s a hs hn (h [a] as rfl)
      refine ⟨hok, (ih (hstep s a hs hok)).mpr fun pre post heq => ?_⟩
      exact h (a :: pre) post (by rw [heq]; rfl)

/-! ## What has happened

`Past` says that some input of the run was taken in a state in which `P` held of the two.
-/

/-- Some input of the run satisfied `P` in the state in which it was taken. -/
def Past (step : σ → ε → σ) (P : σ → ε → Prop) (s : σ) (as : List ε) : Prop :=
  ∃ pre a post, as = pre ++ a :: post ∧ P (run step s pre) a

/-- What has happened has also happened one step later. -/
theorem Past.snoc {step : σ → ε → σ} {P Q : σ → ε → Prop} {s : σ} {as : List ε}
    (h : Past step P s as) (hPQ : ∀ s a, P s a → Q s a) (a : ε) : Past step Q s (as ++ [a]) := by
  obtain ⟨pre, b, post, rfl, hb⟩ := h
  exact ⟨pre, b, post ++ [a], by simp, hPQ _ _ hb⟩

theorem Past.last {step : σ → ε → σ} {P : σ → ε → Prop} {s : σ} {as : List ε} {a : ε}
    (h : P (run step s as) a) : Past step P s (as ++ [a]) :=
  ⟨as, a, [], rfl, h⟩

theorem past_snoc {step : σ → ε → σ} {P : σ → ε → Prop} {s : σ} {as : List ε} {a : ε} :
    Past step P s (as ++ [a]) ↔ Past step P s as ∨ P (run step s as) a := by
  refine ⟨?_, fun h => h.elim (fun h => h.snoc (fun _ _ => id) a) .last⟩
  rintro ⟨pre, b, post, heq, hb⟩
  rcases List.eq_nil_or_concat post with rfl | ⟨post, c, rfl⟩
  · obtain ⟨rfl, hab⟩ := List.append_inj' heq rfl
    exact .inr ((List.cons.inj hab).1 ▸ hb)
  · rw [List.concat_eq_append, ← List.cons_append, ← List.append_assoc] at heq
    obtain ⟨rfl, -⟩ := List.append_inj' heq rfl
    exact .inl ⟨pre, b, post, rfl, hb⟩

/-- An invariant that speaks about the inputs so far. -/
theorem run_history_of_admits {step : σ → ε → σ} {ok : σ → ε → Prop} {s : σ}
    {I : List ε → σ → Prop} (hs : I [] s)
    (hstep : ∀ as a, I as (run step s as) → ok (run step s as) a →
      I (as ++ [a]) (step (run step s as) a))
    {as : List ε} (has : Admits step ok s as) : I as (run step s as) := by
  induction as using List.reverseRecOn with
  | nil => exact hs
  | append_singleton as a ih =>
    obtain ⟨hpre, hlast⟩ := admits_append.mp has
    rw [run_append]
    exact hstep as a (ih hpre) hlast.1

/-- The run rule for an invariant that speaks about the calls made so far. -/
theorem run_history {step : σ → ε → σ} {s : σ} {inv : List ε → σ → Prop} (hs : inv [] s)
    (hstep : ∀ as a, inv as (run step s as) → inv (as ++ [a]) (step (run step s as) a))
    (as : List ε) : inv as (run step s as) :=
  run_history_of_admits hs (fun as a h _ => hstep as a h)
    (admits_of_forall (fun _ _ _ => trivial) s : Admits step (fun _ _ => True) s as)

/-! ## Steps without a result

A step that does not return has the result `none`, and so has a run that contains it.
-/

/-- The state after the inputs `as`, if every step returns. -/
def runM (step : σ → ε → Option σ) : σ → List ε → Option σ
  | s, [] => some s
  | s, a :: as => (step s a).bind fun s' => runM step s' as

/-- Every input of the run meets `ok` in the state in which it is taken. -/
def AdmitsM (step : σ → ε → Option σ) (ok : σ → ε → Prop) : σ → List ε → Prop
  | _, [] => True
  | s, a :: as => ok s a ∧ match step s a with
    | none => True
    | some s' => AdmitsM step ok s' as

instance AdmitsM.decidable (step : σ → ε → Option σ) (ok : σ → ε → Prop)
    [∀ s a, Decidable (ok s a)] : ∀ (s : σ) (as : List ε), Decidable (AdmitsM step ok s as)
  | _, [] => isTrue trivial
  | s, a :: as =>
    haveI : Decidable (match step s a with
        | none => True
        | some s' => AdmitsM step ok s' as) :=
      match step s a with
      | none => isTrue trivial
      | some s' => AdmitsM.decidable step ok s' as
    inferInstanceAs (Decidable (_ ∧ _))

/-- If every admitted step returns and preserves `inv`, so does an admitted run. -/
theorem runM_invariant {step : σ → ε → Option σ} {ok : σ → ε → Prop} {inv : σ → Prop}
    (hstep : ∀ s a, inv s → ok s a → ∃ s', step s a = some s' ∧ inv s') {s : σ} {as : List ε}
    (hs : inv s) (has : AdmitsM step ok s as) : ∃ s', runM step s as = some s' ∧ inv s' := by
  induction as generalizing s with
  | nil => exact ⟨s, rfl, hs⟩
  | cons a as ih =>
    obtain ⟨hok, hrest⟩ := has
    obtain ⟨s', hs', hinv⟩ := hstep s a hs hok
    rw [hs'] at hrest
    simpa [runM, hs'] using ih hinv hrest

end Run
