import Mathlib.Data.List.Infix

/-!
# Trees of nodes in a memory

Nodes of type `α` whose entries, indexed by `ι`, may name child nodes. What an entry means can depend on
where its node is in the tree, so the child function also takes the path to the node. A path lists the
indices from the node up to the root.

`Forest` says that a set of roots spans disjoint trees: no node is reached in two ways. The update lemmas
say how the nodes change if one entry of one node does.
-/

namespace NodeForest

variable {α ι : Type*} {child child' : List ι → α → ι → Option α} {roots roots' : α → Prop}

/-- The node at the end of a path. -/
def walk (child : List ι → α → ι → Option α) (r : α) : List ι → Option α
  | [] => some r
  | i :: q => (walk child r q).bind fun a => child q a i

@[simp] theorem walk_nil (r : α) : walk child r [] = some r := rfl

theorem walk_cons (r : α) (i : ι) (q : List ι) :
    walk child r (i :: q) = (walk child r q).bind fun a => child q a i := rfl

theorem walk_cons_eq_some {r b : α} {i : ι} {q : List ι} :
    walk child r (i :: q) = some b ↔ ∃ a, walk child r q = some a ∧ child q a i = some b := by
  rw [walk_cons, Option.bind_eq_some_iff]

/-- No tree continues below a missing node. -/
theorem walk_eq_none_of_suffix {r : α} {q p : List ι} (hq : walk child r q = none) (hp : q <:+ p) :
    walk child r p = none := by
  obtain ⟨l, rfl⟩ := hp
  induction l with
  | nil => exact hq
  | cons i l ih => rw [List.cons_append, walk_cons, ih, Option.bind_none]

/-- A walk only depends on the entries along it. -/
theorem walk_congr {r : α} {p : List ι}
    (h : ∀ i q a, i :: q <:+ p → walk child r q = some a → child' q a i = child q a i) :
    walk child' r p = walk child r p := by
  induction p with
  | nil => rfl
  | cons i q ih =>
    have hq := ih fun j q' a hs ha => h j q' a (hs.trans (List.suffix_cons i q)) ha
    rw [walk_cons, walk_cons, hq]
    cases ha : walk child r q with
    | none => rfl
    | some a => exact h i q a List.suffix_rfl ha

/-- The trees below the roots are disjoint and reach every node once. -/
def Forest (child : List ι → α → ι → Option α) (roots : α → Prop) : Prop :=
  ∀ ⦃r r' p p' a⦄, roots r → roots r' → walk child r p = some a → walk child r' p' = some a →
    r = r' ∧ p = p'

theorem Forest.mono (h : Forest child roots) (hsub : ∀ r, roots' r → roots r) :
    Forest child roots' :=
  fun _ _ _ _ _ hr hr' hp hp' => h (hsub _ hr) (hsub _ hr') hp hp'

/-- Some root reaches the node. -/
def Reached (child : List ι → α → ι → Option α) (roots : α → Prop) (a : α) : Prop :=
  ∃ r p, roots r ∧ walk child r p = some a

/-- A change of child functions away from the nodes of a forest. -/
theorem Forest.congr (h : Forest child roots)
    (hsame : ∀ r q a i, roots r → walk child r q = some a → child' q a i = child q a i) :
    Forest child' roots ∧ ∀ r p, roots r → walk child' r p = walk child r p := by
  have hwalk : ∀ r p, roots r → walk child' r p = walk child r p := fun r p hr =>
    walk_congr fun i q a _ ha => hsame r q a i hr ha
  refine ⟨fun r r' p p' a hr hr' hp hp' => ?_, hwalk⟩
  rw [hwalk r p hr] at hp
  rw [hwalk r' p' hr'] at hp'
  exact h hr hr' hp hp'

section Update

variable {r t : α} {q : List ι} {i : ι}

/-- The change of one entry of the node at `q` leaves the nodes that are not below it. -/
theorem walk_update (h : Forest child roots) (hr : roots r) (ht : walk child r q = some t)
    (hsame : ∀ q' a j, Reached child roots a → (a = t → j ≠ i) → child' q' a j = child q' a j)
    {r' : α} {p : List ι} (hr' : roots r') (hp : ¬(r' = r ∧ i :: q <:+ p)) :
    walk child' r' p = walk child r' p := by
  refine walk_congr fun j q' a hs ha => hsame q' a j ⟨r', q', hr', ha⟩ ?_
  rintro rfl rfl
  obtain ⟨rfl, rfl⟩ := h hr' hr ha ht
  exact hp ⟨rfl, hs⟩

end Update

/-- A new root whose tree is new and reaches every node once. -/
theorem Forest.add (h : Forest child roots) {r : α}
    (hnew : ∀ p a, walk child r p = some a → ¬Reached child roots a)
    (htree : ∀ p p' a, walk child r p = some a → walk child r p' = some a → p = p') :
    Forest child fun r' => roots r' ∨ r' = r := by
  rintro r₁ r₂ p₁ p₂ a (hr₁ | rfl) (hr₂ | rfl) h₁ h₂
  · exact h hr₁ hr₂ h₁ h₂
  · exact (hnew p₂ a h₂ ⟨r₁, p₁, hr₁, h₁⟩).elim
  · exact (hnew p₁ a h₁ ⟨r₂, p₂, hr₂, h₂⟩).elim
  · exact ⟨rfl, htree p₁ p₂ a h₁ h₂⟩

end NodeForest
