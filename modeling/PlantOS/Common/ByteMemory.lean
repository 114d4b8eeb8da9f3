import PlantOS.Common.Slice

/-!
# Byte-addressed memory

A memory assigns a byte to every address. 64-bit words are stored with their lowest byte first; `load`,
`store` and `copy` are for ranges of bytes.
-/

namespace Memory

/-- The 64-bit word at `a`. -/
def load64 (mem : ℕ → UInt8) (a : ℕ) : ℕ := Bytes.leNat ((List.range 8).map fun i => mem (a + i))

/-- Store the 64-bit word `v` at `a`. -/
def store64 (mem : ℕ → UInt8) (a v : ℕ) : ℕ → UInt8 := fun x =>
  if a ≤ x ∧ x < a + 8 then (Bytes.toLe 8 v).getD (x - a) 0 else mem x

variable {mem : ℕ → UInt8} {a b v : ℕ}

theorem load64_store64_self : load64 (store64 mem a v) a = v % 2 ^ 64 := by
  have hbytes : ((List.range 8).map fun i => store64 mem a v (a + i)) = Bytes.toLe 8 v := by
    refine List.ext_getElem (by simp) fun i hi _ => ?_
    have hi : i < 8 := by simpa using hi
    simp [store64, hi]
  have hpow : 256 ^ 8 = 2 ^ 64 := by decide
  rw [load64, hbytes, Bytes.leNat_toLe, hpow]

/-- A word that does not overlap the stored one. -/
theorem load64_store64_of_disjoint (h : b + 8 ≤ a ∨ a + 8 ≤ b) :
    load64 (store64 mem a v) b = load64 mem b := by
  have hbyte : ∀ i ∈ List.range 8, store64 mem a v (b + i) = mem (b + i) := by
    intro i hi
    have hi := List.mem_range.1 hi
    exact if_neg (by omega)
  rw [load64, load64, List.map_congr_left hbyte]

theorem load64_lt (mem : ℕ → UInt8) (a : ℕ) : load64 mem a < 2 ^ 64 := by
  have hlt := Bytes.leNat_lt ((List.range 8).map fun i => mem (a + i))
  rw [List.length_map, List.length_range] at hlt
  exact hlt.trans_eq (by decide)

/-! ## Ranges of bytes -/

/-- The `n` bytes at `a`. -/
def load (mem : ℕ → UInt8) (a n : ℕ) : List UInt8 := (List.range n).map fun i => mem (a + i)

/-- Store the bytes `l` at `a`. -/
def store (mem : ℕ → UInt8) (a : ℕ) (l : List UInt8) : ℕ → UInt8 := fun x =>
  if a ≤ x ∧ x < a + l.length then l.getD (x - a) 0 else mem x

variable {n : ℕ} {l : List UInt8}

theorem store_of_not_mem {x : ℕ} (h : x < a ∨ a + l.length ≤ x) : store mem a l x = mem x :=
  if_neg (by omega)

theorem store_cons (mem : ℕ → UInt8) (a : ℕ) (b : UInt8) (l : List UInt8) :
    store mem a (b :: l) = store (Function.update mem a b) (a + 1) l := by
  funext x
  rw [store, store, List.length_cons]
  obtain hx | rfl | hx := lt_trichotomy x a
  · rw [if_neg (by omega), if_neg (by omega), Function.update_of_ne hx.ne]
  · rw [if_pos (by omega), if_neg (by omega), Nat.sub_self, List.getD_cons_zero, Function.update_self]
  · obtain ⟨k, rfl⟩ := Nat.exists_eq_add_of_lt hx
    rw [Function.update_of_ne hx.ne', show a + k + 1 - a = k + 1 by omega, List.getD_cons_succ,
      show a + k + 1 - (a + 1) = k by omega]
    exact if_congr (by omega) rfl rfl

theorem load_congr {mem' : ℕ → UInt8} (h : ∀ x, a ≤ x → x < a + n → mem' x = mem x) :
    load mem' a n = load mem a n :=
  List.map_congr_left fun i hi => h _ (Nat.le_add_right a i) (by have := List.mem_range.mp hi; omega)

theorem load64_congr {mem' : ℕ → UInt8} (h : ∀ x, a ≤ x → x < a + 8 → mem' x = mem x) :
    load64 mem' a = load64 mem a :=
  congrArg Bytes.leNat (load_congr h)

theorem load_store_self (mem : ℕ → UInt8) (a : ℕ) (l : List UInt8) :
    load (store mem a l) a l.length = l := by
  refine List.ext_getElem (by simp [load]) fun i hi _ => ?_
  have hi : i < l.length := by simpa [load] using hi
  simp [load, store, hi]

theorem load_store_of_disjoint (h : b + n ≤ a ∨ a + l.length ≤ b) :
    load (store mem a l) b n = load mem b n :=
  load_congr fun x hx hxn => store_of_not_mem (by omega)

end Memory
