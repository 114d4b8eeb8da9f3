import Mathlib.Data.Finset.Card

/-!
# Chains of links

Linked lists in an array of links: `next c` is the link stored at the node `c`, and a chain ends at a link
that is a stop value. `IsChain next node stop s l` says that following the links from `s` visits exactly the
nodes `l` and then stops. Such a list determines its links and is determined by them, so a chain that
changes in one place is described by a change of the list.
-/

namespace LinkChain

variable {κ : Type*}

/-- The links from `s` on lead through the nodes `l` to a stop value. -/
def IsChain (next : κ → κ) (node stop : κ → Prop) : κ → List κ → Prop
  | s, [] => stop s
  | s, c :: l => s = c ∧ node c ∧ IsChain next node stop (next c) l

variable {next next' : κ → κ} {node stop : κ → Prop} {s c : κ} {l l' : List κ}

theorem IsChain.node_of_mem (h : IsChain next node stop s l) : ∀ c ∈ l, node c := by
  induction l generalizing s with
  | nil => exact fun c hc => absurd hc List.not_mem_nil
  | cons b l ih =>
    intro c hc
    obtain rfl | hc := List.mem_cons.1 hc
    · exact h.2.1
    · exact ih h.2.2 c hc

/-- Only the links of the nodes on the chain matter. -/
theorem IsChain.congr (h : IsChain next node stop s l) (heq : ∀ c ∈ l, next' c = next c) :
    IsChain next' node stop s l := by
  induction l generalizing s with
  | nil => exact h
  | cons b l ih =>
    refine ⟨h.1, h.2.1, ?_⟩
    rw [heq b List.mem_cons_self]
    exact ih h.2.2 fun c hc => heq c (List.mem_cons_of_mem b hc)

theorem IsChain.mono {stop' : κ → Prop} (h : IsChain next node stop s l)
    (hstop : ∀ c, stop c → stop' c) : IsChain next node stop' s l := by
  induction l generalizing s with
  | nil => exact hstop s h
  | cons b l ih => exact ⟨h.1, h.2.1, ih h.2.2⟩

/-- Follow the links through at most `n` nodes. -/
def walk (next : κ → κ) (isNode : κ → Bool) : ℕ → κ → List κ
  | 0, _ => []
  | n + 1, c => if isNode c then c :: walk next isNode n (next c) else []

theorem length_walk_le (next : κ → κ) (isNode : κ → Bool) (n : ℕ) (s : κ) :
    (walk next isNode n s).length ≤ n := by
  induction n generalizing s with
  | zero => rfl
  | succ n ih =>
    rw [walk]
    split
    · exact Nat.succ_le_succ (ih _)
    · exact Nat.zero_le _

/-- The walk visits `k` nodes if the first `k` iterates of the link are nodes. -/
theorem le_length_walk {isNode : κ → Bool} {n k : ℕ} (hk : k ≤ n) :
    k ≤ (walk next isNode n s).length ↔ ∀ j < k, isNode (next^[j] s) = true := by
  induction n generalizing s k with
  | zero =>
    obtain rfl := Nat.le_zero.1 hk
    exact ⟨fun _ j hj => absurd hj (Nat.not_lt_zero j), fun _ => Nat.zero_le _⟩
  | succ n ih =>
    cases k with
    | zero => exact ⟨fun _ j hj => absurd hj (Nat.not_lt_zero j), fun _ => Nat.zero_le _⟩
    | succ k =>
      rw [Nat.forall_lt_succ_left, walk]
      by_cases hs : isNode s = true
      · rw [if_pos hs, List.length_cons, Nat.succ_le_succ_iff, ih (Nat.le_of_succ_le_succ hk)]
        exact ⟨fun h => ⟨hs, h⟩, fun h => h.2⟩
      · rw [if_neg hs]
        exact ⟨fun h => absurd h (Nat.not_succ_le_zero k), fun h => absurd h.1 hs⟩

variable (next stop) in
/-- Links that may run into a cycle lead through finitely many different nodes to a stop value, or back to one
of these nodes or of the nodes `seen` before. -/
theorem exists_path [DecidableEq κ] (hnext : ∀ c, node c → node (next c) ∨ stop (next c))
    (unseen : Finset κ) {seen : κ → Prop} (hunseen : ∀ c, node c → seen c ∨ c ∈ unseen)
    (hs : node s ∨ stop s) : ∃ l : List κ, l.Nodup ∧ (∀ c ∈ l, ¬seen c) ∧
      IsChain next node (fun c => stop c ∨ seen c ∨ c ∈ l) s l := by
  induction hn : unseen.card generalizing s seen unseen with
  | zero =>
    refine ⟨[], List.nodup_nil, fun c hc => absurd hc List.not_mem_nil, ?_⟩
    obtain hs | hs := hs
    · rw [Finset.card_eq_zero] at hn
      exact .inr (.inl ((hunseen s hs).resolve_right (by simp [hn])))
    · exact .inl hs
  | succ n ih =>
    by_cases hseen : stop s ∨ seen s
    · refine ⟨[], List.nodup_nil, fun c hc => absurd hc List.not_mem_nil, ?_⟩
      exact hseen.imp_right .inl
    · -- From a node that is new, the rest of the path avoids this node too.
      obtain ⟨hstop, hnew⟩ := not_or.1 hseen
      have hnode := hs.resolve_right hstop
      have hmem := (hunseen s hnode).resolve_left hnew
      have hrest : ∀ c, node c → (seen c ∨ c = s) ∨ c ∈ unseen.erase s := by
        intro c hc
        by_cases hcs : c = s
        · exact .inl (.inr hcs)
        · exact (hunseen c hc).imp .inl fun h => Finset.mem_erase.2 ⟨hcs, h⟩
      obtain ⟨l, hnodup, havoid, hl⟩ := ih (unseen.erase s) hrest (hnext s hnode)
        (by rw [Finset.card_erase_of_mem hmem, hn, Nat.add_sub_cancel])
      refine ⟨s :: l, List.nodup_cons.2 ⟨fun h => havoid s h (.inr rfl), hnodup⟩, ?_, rfl, hnode, ?_⟩
      · intro c hc
        obtain rfl | hc := List.mem_cons.1 hc
        · exact hnew
        · exact fun h => havoid c hc (.inl h)
      · refine hl.mono fun c hc => ?_
        obtain hc | (hc | rfl) | hc := hc
        · exact .inl hc
        · exact .inr (.inl hc)
        · exact .inr (.inr List.mem_cons_self)
        · exact .inr (.inr (List.mem_cons_of_mem s hc))

end LinkChain
