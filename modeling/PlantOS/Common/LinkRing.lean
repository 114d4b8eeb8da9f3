import Mathlib.Data.List.Nodup

/-!
# Circular linked lists

Nodes with one link each, `next : κ → Option κ`, where `none` is a link to nowhere. `Path next a l b` says
that the links lead from `a` through the nodes `l` to `b`, and a ring with head `h` and other nodes `l` is a
path from `h` through `l` back to `h` on which no node occurs twice.

A ring can be entered at any of its nodes (`IsRing.rotate`), a node is linked in behind the head
(`IsRing.insert`) and unlinked at its predecessor (`IsRing.unlink`). The loops over a ring are `seek`, `nodes`
and `prevOf`; they follow at most a given number of links, and on a ring with fewer nodes than that they
come to their end.
-/

namespace LinkRing

variable {κ : Type*}

/-- The links lead from `a` through the nodes `l` to `b`. -/
def Path (next : κ → Option κ) : κ → List κ → κ → Prop
  | a, [], b => next a = some b
  | a, c :: l, b => next a = some c ∧ Path next c l b

/-- The links lead from `h` through `l` back to `h`, and no node occurs twice. -/
structure IsRing (next : κ → Option κ) (h : κ) (l : List κ) : Prop where
  path : Path next h l h
  nodup : (h :: l).Nodup

variable {next next' : κ → Option κ} {a b c h t : κ} {l l₁ l₂ : List κ}

/-! ## Paths -/

theorem getLastD_mem (a : κ) (l : List κ) : l.getLastD a ∈ a :: l := by
  induction l generalizing a with
  | nil => exact List.mem_cons_self
  | cons c l ih =>
    rw [List.getLastD_cons]
    exact List.mem_cons_of_mem a (ih c)

/-- Only the links of the nodes on the path matter. -/
theorem Path.congr (hp : Path next a l b) (heq : ∀ c ∈ a :: l, next' c = next c) :
    Path next' a l b := by
  induction l generalizing a with
  | nil => exact (heq a List.mem_cons_self).trans hp
  | cons c l ih =>
    refine ⟨(heq a List.mem_cons_self).trans hp.1, ih hp.2 ?_⟩
    exact fun d hd => heq d (List.mem_cons_of_mem a hd)

theorem path_append : Path next a (l₁ ++ c :: l₂) b ↔ Path next a l₁ c ∧ Path next c l₂ b := by
  induction l₁ generalizing a with
  | nil => exact Iff.rfl
  | cons d l₁ ih => simp only [List.cons_append, Path, ih, and_assoc]

/-- Redirecting the last link of a path. -/
theorem Path.redirect [DecidableEq κ] (hp : Path next a l b) (hnd : (a :: l).Nodup) (c : κ) :
    Path (Function.update next (l.getLastD a) (some c)) a l c := by
  induction l generalizing a with
  | nil => exact Function.update_self a (some c) next
  | cons d l ih =>
    obtain ⟨ha, hnd'⟩ := List.nodup_cons.1 hnd
    have hne : a ≠ l.getLastD d := fun heq => ha (heq ▸ getLastD_mem d l)
    rw [List.getLastD_cons]
    exact ⟨(Function.update_of_ne hne _ _).trans hp.1, ih hp.2 hnd'⟩

/-! ## Rings -/

namespace IsRing

theorem congr (hr : IsRing next h l) (heq : ∀ c ∈ h :: l, next' c = next c) : IsRing next' h l :=
  ⟨hr.path.congr heq, hr.nodup⟩

/-- The ring with another head. -/
theorem rotate (hr : IsRing next h (l₁ ++ c :: l₂)) : IsRing next c (l₂ ++ h :: l₁) where
  path := by
    obtain ⟨h₁, h₂⟩ := path_append.1 hr.path
    exact path_append.2 ⟨h₂, h₁⟩
  nodup := by
    have hperm : (h :: (l₁ ++ c :: l₂)).Perm (c :: (l₂ ++ h :: l₁)) := by
      have hcomm : (h :: l₁ ++ c :: l₂).Perm (c :: l₂ ++ h :: l₁) := List.perm_append_comm
      exact hcomm
    exact hperm.nodup_iff.1 hr.nodup

/-- Every node is the head of the same ring. -/
theorem exists_rotate (hr : IsRing next h l) (hc : c ∈ h :: l) :
    ∃ l', IsRing next c l' ∧ ∀ d, d ∈ c :: l' ↔ d ∈ h :: l := by
  obtain rfl | hc := List.mem_cons.1 hc
  · exact ⟨l, hr, fun _ => Iff.rfl⟩
  · obtain ⟨l₁, l₂, rfl⟩ := List.append_of_mem hc
    refine ⟨_, hr.rotate, fun d => ?_⟩
    simp only [List.mem_cons, List.mem_append]
    tauto

/-- The head of a ring has a successor on the ring. -/
theorem exists_next (hr : IsRing next h l) : ∃ c ∈ h :: l, next h = some c := by
  cases l with
  | nil => exact ⟨h, List.mem_cons_self, hr.path⟩
  | cons c l => exact ⟨c, by simp, hr.path.1⟩

variable [DecidableEq κ]

/-- A node that is linked in behind the head. -/
theorem insert (hr : IsRing next h l) (ht : t ∉ h :: l) :
    IsRing (Function.update (Function.update next t (next h)) h (some t)) h (t :: l) := by
  obtain ⟨hth, htl⟩ := List.ne_and_not_mem_of_not_mem_cons ht
  obtain ⟨hhl, hnd⟩ := List.nodup_cons.1 hr.nodup
  refine ⟨⟨Function.update_self _ _ _, ?_⟩, ?_⟩
  · cases l with
    | nil =>
      refine ((Function.update_of_ne hth _ _).trans (Function.update_self _ _ _)).trans ?_
      exact hr.path
    | cons c l =>
      refine ⟨((Function.update_of_ne hth _ _).trans (Function.update_self _ _ _)).trans hr.path.1, ?_⟩
      refine hr.path.2.congr fun d hd => ?_
      have hdh : d ≠ h := by
        rintro rfl
        exact hhl hd
      have hdt : d ≠ t := by
        rintro rfl
        exact htl hd
      rw [Function.update_of_ne hdh, Function.update_of_ne hdt]
  · simp only [List.nodup_cons, List.mem_cons, not_or]
    exact ⟨⟨Ne.symm hth, hhl⟩, htl, hnd⟩

/-- A node that is unlinked at its predecessor. -/
theorem unlink (hr : IsRing next h (l₁ ++ t :: l₂)) :
    IsRing (Function.update next (l₁.getLastD h) (next t)) h (l₁ ++ l₂) := by
  obtain ⟨h₁, h₂⟩ := path_append.1 hr.path
  have hnd : (h :: l₁ ++ t :: l₂).Nodup := hr.nodup
  obtain ⟨hnd₁, hnd₂, hdisj⟩ := List.nodup_append.1 hnd
  have hlast : l₁.getLastD h ∈ h :: l₁ := getLastD_mem h l₁
  refine ⟨?_, ?_⟩
  · cases l₂ with
    | nil =>
      have h₂ : next t = some h := h₂
      rw [List.append_nil, h₂]
      exact h₁.redirect hnd₁ h
    | cons c l₂ =>
      rw [h₂.1]
      refine path_append.2 ⟨h₁.redirect hnd₁ c, h₂.2.congr fun d hd => ?_⟩
      -- the nodes behind `t` keep their links
      exact Function.update_of_ne (fun heq => hdisj _ hlast d (List.mem_cons_of_mem t hd) heq.symm) _ _
  · have hsub : (h :: l₁ ++ l₂).Nodup :=
      List.Nodup.sublist ((List.sublist_cons_self t l₂).append_left (h :: l₁)) hnd
    exact hsub

end IsRing

/-! ## Loops over a ring -/

/-- `do { if (p(t)) break; t = t->next; } while (t != start);`, for at most `fuel` nodes: the node at which
the loop ends. -/
def seek [DecidableEq κ] (next : κ → Option κ) (p : κ → Bool) (start : κ) : ℕ → κ → Option κ
  | 0, _ => none
  | fuel + 1, t =>
    if p t then some t
    else (next t).bind fun u => if u = start then some start else seek next p start fuel u

/-- The nodes that such a loop without a `break` visits. -/
def nodes [DecidableEq κ] (next : κ → Option κ) (start : κ) : ℕ → κ → Option (List κ)
  | 0, _ => none
  | fuel + 1, t =>
    (next t).bind fun u => if u = start then some [t] else (nodes next start fuel u).map (t :: ·)

/-- `while (prev->next != t) prev = prev->next;`, for at most `fuel` nodes. -/
def prevOf [DecidableEq κ] (next : κ → Option κ) (t : κ) : ℕ → κ → Option κ
  | 0, _ => none
  | fuel + 1, prev => if next prev = some t then some prev else (next prev).bind (prevOf next t fuel)

section

variable [DecidableEq κ] {fuel : ℕ}

theorem Path.seek_eq (hp : Path next a l b) (hb : b ∉ l) (hfuel : l.length < fuel) (p : κ → Bool) :
    seek next p b fuel a = some (((a :: l).find? p).getD b) := by
  induction l generalizing a fuel with
  | nil =>
    obtain ⟨fuel, rfl⟩ : ∃ n, fuel = n + 1 := ⟨fuel - 1, by grind⟩
    have hp : next a = some b := hp
    by_cases ha : p a <;> simp [seek, ha, hp]
  | cons c l ih =>
    obtain ⟨fuel, rfl⟩ : ∃ n, fuel = n + 1 := ⟨fuel - 1, by grind⟩
    obtain ⟨hcb, hb⟩ := List.ne_and_not_mem_of_not_mem_cons hb
    have hrec := ih hp.2 hb (by simpa using hfuel : l.length < fuel)
    by_cases ha : p a
    · simp [seek, ha]
    · have hfind : (a :: c :: l).find? p = (c :: l).find? p := List.find?_cons_of_neg ha
      rw [seek, if_neg ha, hp.1, Option.bind_some, if_neg (Ne.symm hcb), hrec, hfind]

theorem Path.nodes_eq (hp : Path next a l b) (hb : b ∉ l) (hfuel : l.length < fuel) :
    nodes next b fuel a = some (a :: l) := by
  induction l generalizing a fuel with
  | nil =>
    obtain ⟨fuel, rfl⟩ : ∃ n, fuel = n + 1 := ⟨fuel - 1, by grind⟩
    have hp : next a = some b := hp
    simp [nodes, hp]
  | cons c l ih =>
    obtain ⟨fuel, rfl⟩ : ∃ n, fuel = n + 1 := ⟨fuel - 1, by grind⟩
    obtain ⟨hcb, hb⟩ := List.ne_and_not_mem_of_not_mem_cons hb
    have hrec := ih hp.2 hb (by simpa using hfuel : l.length < fuel)
    rw [nodes, hp.1, Option.bind_some, if_neg (Ne.symm hcb), hrec, Option.map_some]

theorem Path.prevOf_eq (hp : Path next a l b) (hb : b ∉ l) (hfuel : l.length < fuel) :
    prevOf next b fuel a = some (l.getLastD a) := by
  induction l generalizing a fuel with
  | nil =>
    obtain ⟨fuel, rfl⟩ : ∃ n, fuel = n + 1 := ⟨fuel - 1, by grind⟩
    exact if_pos hp
  | cons c l ih =>
    obtain ⟨fuel, rfl⟩ : ∃ n, fuel = n + 1 := ⟨fuel - 1, by grind⟩
    obtain ⟨hcb, hb⟩ := List.ne_and_not_mem_of_not_mem_cons hb
    have hrec := ih hp.2 hb (by simpa using hfuel : l.length < fuel)
    have hne : next a ≠ some b := by
      rw [hp.1]
      exact fun heq => hcb (Option.some.inj heq).symm
    rw [prevOf, if_neg hne, hp.1, Option.bind_some, hrec, List.getLastD_cons]

namespace IsRing

variable (hr : IsRing next h l)
include hr

theorem seek_eq (hfuel : l.length < fuel) (p : κ → Bool) :
    seek next p h fuel h = some (((h :: l).find? p).getD h) :=
  hr.path.seek_eq (List.nodup_cons.1 hr.nodup).1 hfuel p

theorem nodes_eq (hfuel : l.length < fuel) : nodes next h fuel h = some (h :: l) :=
  hr.path.nodes_eq (List.nodup_cons.1 hr.nodup).1 hfuel

/-- Searching for the predecessor of a node finds it, from the node itself. -/
theorem prevOf_eq (hfuel : l.length < fuel) :
    prevOf next h fuel h = some (l.getLastD h) :=
  hr.path.prevOf_eq (List.nodup_cons.1 hr.nodup).1 hfuel

end IsRing

/-- The predecessor of a node other than the head, and the ring without the node. -/
theorem IsRing.unlink_prevOf (hr : IsRing next h l) (ht : t ∈ l) (hfuel : l.length < fuel) :
    ∃ prev l', prevOf next t fuel t = some prev ∧ prev ≠ t ∧
      IsRing (Function.update next prev (next t)) h l' ∧ ∀ d, d ∈ h :: l' ↔ d ∈ h :: l ∧ d ≠ t := by
  obtain ⟨l₁, l₂, rfl⟩ := List.append_of_mem ht
  have hlen : (l₂ ++ h :: l₁).length < fuel := by
    simp only [List.length_append, List.length_cons] at hfuel ⊢
    omega
  have hprev := hr.rotate.prevOf_eq hlen
  have hlast : (l₂ ++ h :: l₁).getLastD t = l₁.getLastD h := by
    simp [List.getLastD_eq_getLast?, List.getLast?_append, List.getLast?_cons]
  have hnd : (h :: l₁ ++ t :: l₂).Nodup := hr.nodup
  obtain ⟨-, hnd₂, hdisj⟩ := List.nodup_append.1 hnd
  have hmem : l₁.getLastD h ∈ h :: l₁ := getLastD_mem h l₁
  refine ⟨_, l₁ ++ l₂, hlast ▸ hprev, hdisj _ hmem t List.mem_cons_self, hr.unlink, fun d => ?_⟩
  have h₁ : ∀ x ∈ h :: l₁, x ≠ t := fun x hx => hdisj x hx t List.mem_cons_self
  have h₂ : ∀ x ∈ l₂, x ≠ t := fun x hx heq => (List.nodup_cons.1 hnd₂).1 (heq ▸ hx)
  simp only [List.mem_cons, List.mem_append] at h₁ ⊢
  grind

end

end LinkRing
