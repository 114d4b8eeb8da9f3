import Mathlib.Logic.Function.Basic

/-!
# Programs over abstract operations

`Prog ι R α` is the type of programs that use operations of type `ι`, where the operation `i` is answered
by a value of type `R i`, and that end with a value of type `α`. A handler gives the operations a meaning on
a state, or stops the program with an error.

The same program can run with different handlers. `run_sim` is the rule for relating two of them: if every
operation preserves a relation between their states, so does every program; errors that the second handler
shares are preserved as well. `translate` replaces the operations of a program by programs over other
operations, and `run_translate` says that this is the same as running the program with the composed handler.
-/

/-- Programs over operations `ι` with answers `R`. -/
inductive Prog (ι : Type) (R : ι → Type) (α : Type)
  | pure (a : α)
  | op (i : ι) (k : R i → Prog ι R α)

namespace Prog

variable {ι κ : Type} {R : ι → Type} {Q : κ → Type} {α β E : Type} {σ τ : Type*}

/-- Sequential composition. -/
def bind : Prog ι R α → (α → Prog ι R β) → Prog ι R β
  | .pure a, f => f a
  | .op i k, f => .op i fun r => (k r).bind f

instance : Monad (Prog ι R) where
  pure := Prog.pure
  bind := Prog.bind

/-- The program that is a single operation. -/
def call (i : ι) : Prog ι R (R i) := .op i .pure

/-- The meaning of operations on a state. -/
abbrev Handler (ι : Type) (R : ι → Type) (E : Type) (σ : Type*) := (i : ι) → σ → Except E (R i × σ)

/-- Run a program until its end or the first error. -/
def run (h : Handler ι R E σ) : Prog ι R α → σ → Except E (α × σ)
  | .pure a, s => .ok (a, s)
  | .op i k, s =>
    match h i s with
    | .ok (r, s') => (k r).run h s'
    | .error e => .error e

@[simp] theorem run_pure (h : Handler ι R E σ) (a : α) (s : σ) :
    run h (Pure.pure a : Prog ι R α) s = .ok (a, s) := rfl

theorem run_call (h : Handler ι R E σ) (i : ι) (s : σ) : run h (call i) s = h i s := by
  rw [call, run]
  cases h i s with
  | error e => rfl
  | ok r => rfl

/-- Sequential composition: an error of the first part ends the run. -/
theorem run_bind (h : Handler ι R E σ) (p : Prog ι R α) (f : α → Prog ι R β) (s : σ) :
    run h (p >>= f) s = match run h p s with
      | .ok (a, s') => run h (f a) s'
      | .error e => .error e := by
  have hbind : ∀ q : Prog ι R α, (q >>= f) = q.bind f := fun _ => rfl
  induction p generalizing s with
  | pure a => rfl
  | op i k ih =>
    rw [hbind, Prog.bind, run, run]
    cases h i s with
    | error e => rfl
    | ok r => exact ih r.1 r.2

/-- The rule for a composition whose first part returns. -/
theorem run_bind_ok {h : Handler ι R E σ} {p : Prog ι R α} {s s' : σ} {a : α}
    (hp : run h p s = .ok (a, s')) (f : α → Prog ι R β) :
    run h (p >>= f) s = run h (f a) s' := by
  rw [run_bind, hp]

/-- Replace every operation by a program. -/
def translate (t : (i : ι) → Prog κ Q (R i)) : Prog ι R α → Prog κ Q α
  | .pure a => .pure a
  | .op i k => (t i).bind fun r => (k r).translate t

/-- Calls that are programs themselves can be run in place. -/
theorem run_translate (h : Handler κ Q E σ) (t : (i : ι) → Prog κ Q (R i)) (p : Prog ι R α) (s : σ) :
    run h (p.translate t) s = run (fun i => run h (t i)) p s := by
  induction p generalizing s with
  | pure a => rfl
  | op i k ih =>
    have hunfold : (op i k).translate t = t i >>= fun r => (k r).translate t := rfl
    rw [hunfold, run_bind, run]
    cases run h (t i) s with
    | error e => rfl
    | ok r => exact ih r.1 r.2

/-- The result of one handler is matched by that of another: a value with related states, or the same error
if it is one of the errors `shared`. -/
def Matches (rel : σ → τ → Prop) (shared : E → Prop) (x : Except E (α × σ)) (y : Except E (α × τ)) : Prop :=
  match x with
  | .ok (a, s) => ∃ t, y = .ok (a, t) ∧ rel s t
  | .error e => shared e → y = .error e

/-- If every operation preserves a relation between the states of two handlers, so does every program. -/
theorem run_sim {h : Handler ι R E σ} {h' : Handler ι R E τ} {rel : σ → τ → Prop} {shared : E → Prop}
    (hop : ∀ i s t, rel s t → Matches rel shared (h i s) (h' i t)) (p : Prog ι R α) {s : σ} {t : τ}
    (hrel : rel s t) : Matches rel shared (run h p s) (run h' p t) := by
  induction p generalizing s t with
  | pure a => exact ⟨t, rfl, hrel⟩
  | op i k ih =>
    have hi := hop i s t hrel
    rw [run, run]
    cases hs : h i s with
    | error e =>
      rw [hs] at hi
      exact fun he => by rw [hi he]
    | ok r =>
      rw [hs] at hi
      obtain ⟨t', ht, hrel'⟩ := hi
      rw [ht]
      exact ih r.1 hrel'

end Prog
