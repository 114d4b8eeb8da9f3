import Mathlib.Data.List.Basic
import Mathlib.Data.Nat.ModEq

/-!
# Ring buffers

A ring of `cap` cells with a write index `head`, a read index `tail` and a fill count. `Ring.view` is the
queue it stands for; writing at `head` appends to it and reading at `tail` takes its first element.
-/

namespace Ring

variable {α : Type*} {cap head tail count : ℕ}

/-- The indices of a ring agree. -/
structure Wf (cap head tail count : ℕ) : Prop where
  count_le : count ≤ cap
  tail_lt : tail < cap
  head_eq : head = (tail + count) % cap

/-- The elements of a ring, oldest first. -/
def view (cap : ℕ) (buf : ℕ → α) (tail count : ℕ) : List α :=
  (List.range count).map fun i => buf ((tail + i) % cap)

@[simp] theorem view_zero (buf : ℕ → α) : view cap buf tail 0 = [] := rfl

theorem wf_empty (hcap : 0 < cap) : Wf cap 0 0 0 := ⟨Nat.zero_le _, hcap, by simp⟩

theorem Wf.push (h : Wf cap head tail count) (hc : count < cap) :
    Wf cap ((head + 1) % cap) tail (count + 1) :=
  ⟨hc, h.tail_lt, by rw [h.head_eq, Nat.mod_add_mod, Nat.add_assoc]⟩

theorem Wf.pop (h : Wf cap head tail count) (hc : 0 < count) :
    Wf cap head ((tail + 1) % cap) (count - 1) := by
  have hcap : 0 < cap := Nat.lt_of_le_of_lt (Nat.zero_le _) h.tail_lt
  refine ⟨(Nat.sub_le _ _).trans h.count_le, Nat.mod_lt _ hcap, ?_⟩
  rw [h.head_eq, Nat.mod_add_mod]
  congr 1
  omega

/-- Offsets below the capacity reach different cells. -/
theorem cell_ne {i j : ℕ} (hi : i < cap) (hj : j < cap) (hne : i ≠ j) :
    (tail + i) % cap ≠ (tail + j) % cap := by
  intro h
  apply hne
  have : i ≡ j [MOD cap] := Nat.ModEq.add_left_cancel' tail h
  rwa [Nat.ModEq, Nat.mod_eq_of_lt hi, Nat.mod_eq_of_lt hj] at this

theorem view_push (h : Wf cap head tail count) (hc : count < cap) (buf : ℕ → α) (x : α) :
    view cap (Function.update buf head x) tail (count + 1) = view cap buf tail count ++ [x] := by
  simp only [view, List.range_succ, List.map_append, List.map_singleton]
  congr 1
  · refine List.map_congr_left fun i hi => ?_
    have hi := List.mem_range.mp hi
    rw [Function.update_of_ne]
    rw [h.head_eq]
    exact cell_ne (by omega) hc (by omega)
  · rw [← h.head_eq, Function.update_self]

theorem view_pop (h : Wf cap head tail count) (hc : 0 < count) (buf : ℕ → α) :
    view cap buf tail count = buf tail :: view cap buf ((tail + 1) % cap) (count - 1) := by
  obtain ⟨n, rfl⟩ : ∃ n, count = n + 1 := ⟨count - 1, by omega⟩
  simp only [view, Nat.add_sub_cancel, List.range_succ_eq_map, List.map_cons, List.map_map,
    Nat.add_zero, Nat.mod_eq_of_lt h.tail_lt, List.cons.injEq, true_and]
  refine List.map_congr_left fun i _ => ?_
  show buf ((tail + (i + 1)) % cap) = buf (((tail + 1) % cap + i) % cap)
  rw [Nat.mod_add_mod]
  congr 2
  omega

end Ring
