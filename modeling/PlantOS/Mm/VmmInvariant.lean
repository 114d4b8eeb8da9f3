import PlantOS.Common.NodeForest
import PlantOS.Mm.VmmFrames

/-!
# The page-table invariant

The page tables of the live address spaces are a forest in physical memory: the roots are the PML4s, the
nodes are the tables, and the entries of the tables at depth 3 are the leaf entries. A leaf entry is an
identity entry if it maps its page to the frame with the same address, which is how `vmm.c` recognises
kernel memory, and a user entry otherwise.

`FrameInv` is the invariant of the tables together with the frame allocator. It is stated for a set of
live roots; a run of the kernel moves roots in and out of the set. The lemmas of this module say how it
survives the three kinds of writes: to a frame that is no table, of a leaf entry, and of an entry that
links a new table.
-/

namespace PlantOS.Mm

open NodeForest

/-! ## Tables and leaf entries -/

/-- The page number that a path of table indices leads to. The path lists the indices from the last table
up to the PML4. -/
def vpn : List ℕ → ℕ
  | [] => 0
  | i :: q => vpn q * 512 + i

/-- The table that entry `i` of the table `a`, found at `q`, refers to. -/
def tableChild (mem : ℕ → ℕ → ℕ) (q : List ℕ) (a i : ℕ) : Option ℕ :=
  if i < 512 ∧ q.length < 3 ∧ Present (mem a i) ∧ ¬Huge (mem a i) then some (pteAddr (mem a i))
  else none

/-- The table at the path `p` below the PML4 `r`. -/
abbrev tableAt (mem : ℕ → ℕ → ℕ) (r : ℕ) (p : List ℕ) : Option ℕ := walk (tableChild mem) r p

/-- The page-table entry of the page at the path `p`. -/
def leafAt (mem : ℕ → ℕ → ℕ) (r : ℕ) : List ℕ → Option ℕ
  | [] => none
  | k :: q => if q.length = 3 ∧ k < 512 then (tableAt mem r q).map fun pt => mem pt k else none

/-- The page at `p` is mapped by the entry `e`, and not to the frame with its own address. -/
def UserEntry (mem : ℕ → ℕ → ℕ) (r : ℕ) (p : List ℕ) (e : ℕ) : Prop :=
  leafAt mem r p = some e ∧ Present e ∧ pteAddr e ≠ vpn p * 4096

/-- The frame is a table of one of the address spaces. -/
abbrev IsTable (mem : ℕ → ℕ → ℕ) (roots : ℕ → Prop) (a : ℕ) : Prop :=
  Reached (tableChild mem) roots a

/-- The frame is a user page of one of the address spaces. -/
def IsUserFrame (mem : ℕ → ℕ → ℕ) (roots : ℕ → Prop) (a : ℕ) : Prop :=
  ∃ r p e, roots r ∧ UserEntry mem r p e ∧ pteAddr e = a

theorem tableChild_eq_some {mem : ℕ → ℕ → ℕ} {q : List ℕ} {a i b : ℕ} :
    tableChild mem q a i = some b ↔
      (i < 512 ∧ q.length < 3 ∧ Present (mem a i) ∧ ¬Huge (mem a i)) ∧ pteAddr (mem a i) = b := by
  rw [tableChild, Option.ite_none_right_eq_some, Option.some.injEq]

theorem leafAt_eq_some {mem : ℕ → ℕ → ℕ} {r : ℕ} {p : List ℕ} {e : ℕ} :
    leafAt mem r p = some e ↔
      ∃ k q pt, p = k :: q ∧ q.length = 3 ∧ k < 512 ∧ tableAt mem r q = some pt ∧ mem pt k = e := by
  cases p with
  | nil => simp [leafAt]
  | cons k q =>
    rw [leafAt]
    split
    · rename_i h
      simp only [Option.map_eq_some_iff, List.cons.injEq]
      constructor
      · rintro ⟨pt, hpt, he⟩
        exact ⟨k, q, pt, ⟨rfl, rfl⟩, h.1, h.2, hpt, he⟩
      · rintro ⟨k', q', pt, ⟨rfl, rfl⟩, -, -, hpt, he⟩
        exact ⟨pt, hpt, he⟩
    · rename_i h
      simp only [reduceCtorEq, false_iff, List.cons.injEq]
      rintro ⟨k', q', pt, ⟨rfl, rfl⟩, hq, hk, -⟩
      exact h ⟨hq, hk⟩

theorem tableAt_cons {mem : ℕ → ℕ → ℕ} {r i : ℕ} {q : List ℕ} :
    tableAt mem r (i :: q) = (tableAt mem r q).bind fun a => tableChild mem q a i := rfl

theorem tableAt_length {mem : ℕ → ℕ → ℕ} {r : ℕ} {p : List ℕ} {a : ℕ}
    (h : tableAt mem r p = some a) : p.length ≤ 3 := by
  cases p with
  | nil => exact Nat.zero_le 3
  | cons i q =>
    obtain ⟨b, -, hb⟩ := walk_cons_eq_some.1 h
    exact (tableChild_eq_some.1 hb).1.2.1

/-! ## The invariant -/

/-- The frames of the kernel: the image with the boot page tables from `boot` on, the bitmap, the heap.
The first page of memory is among them. -/
structure Kernel where
  boot : ℕ
  Page : ℕ → Prop
  boot_aligned : boot % 4096 = 0
  page_zero : Page 0
  page_boot : ∀ k < 6, Page (boot + k * 4096)

/-- The page tables below the live PML4s `roots`, and the frame allocator. If `excl` holds, no two user
entries have the same frame. -/
structure FrameInv (K : Kernel) (excl : Prop) (roots : ℕ → Prop) (s : Vm) : Prop where
  forest : Forest (tableChild s.mem) roots
  table : ∀ a, IsTable s.mem roots a → s.Used a ∧ ¬K.Page a
  user : ∀ r p e, roots r → UserEntry s.mem r p e →
    s.Used (pteAddr e) ∧ ¬K.Page (pteAddr e) ∧ ¬IsTable s.mem roots (pteAddr e)
  unique : excl → ∀ r r' p p' e e', roots r → roots r' → UserEntry s.mem r p e →
    UserEntry s.mem r' p' e' → pteAddr e = pteAddr e' → r = r' ∧ p = p'
  huge : ∀ r q a i, roots r → tableAt s.mem r q = some a → i < 512 → q.length < 3 →
    Present (s.mem a i) → Huge (s.mem a i) →
      q.length = 2 ∧ s.mem a i = vpn (i :: q) * 0x200000 + 0x87
  kernel : ∀ a, K.Page a → s.Used a
  boot : ∀ k < 6, s.mem (K.boot + k * 4096) = bootTables K.boot (K.boot + k * 4096)

/-- The state of the kernel after boot: its frames are allocated and the boot page tables are in place. -/
structure Booted (K : Kernel) (s : Vm) : Prop where
  kernel : ∀ a, K.Page a → s.Used a
  boot : ∀ k < 6, s.mem (K.boot + k * 4096) = bootTables K.boot (K.boot + k * 4096)

/-- Without address spaces the invariant is about the kernel's own frames. -/
theorem Booted.frameInv {K : Kernel} {s : Vm} (h : Booted K s) (excl : Prop) :
    FrameInv K excl (fun _ => False) s where
  forest _ _ _ _ _ hr := hr.elim
  table := by
    rintro a ⟨r, p, hr, -⟩
    exact hr.elim
  user _ _ _ hr := hr.elim
  unique _ _ _ _ _ _ _ hr := hr.elim
  huge _ _ _ _ hr := hr.elim
  kernel := h.kernel
  boot := h.boot

section

variable {K : Kernel} {excl : Prop} {roots : ℕ → Prop} {s s' : Vm} {r : ℕ}

theorem FrameInv.used_zero (h : FrameInv K excl roots s) : s.Used 0 := h.kernel 0 K.page_zero

theorem isTable_of_tableAt {mem : ℕ → ℕ → ℕ} {q : List ℕ} {a : ℕ} (hr : roots r)
    (h : tableAt mem r q = some a) : IsTable mem roots a :=
  ⟨r, q, hr, h⟩

theorem FrameInv.root_ne_zero (h : FrameInv K excl roots s) (hr : roots r) : r ≠ 0 := by
  rintro rfl
  exact (h.table 0 (isTable_of_tableAt (q := []) hr rfl)).2 K.page_zero

theorem FrameInv.root_ne_boot (h : FrameInv K excl roots s) (hr : roots r) : r ≠ K.boot := by
  rintro rfl
  have hboot := K.page_boot 0 (by decide)
  rw [Nat.zero_mul, Nat.add_zero] at hboot
  exact (h.table K.boot (isTable_of_tableAt (q := []) hr rfl)).2 hboot

/-- A smaller set of live address spaces. -/
theorem FrameInv.mono {roots' : ℕ → Prop} (h : FrameInv K excl roots s)
    (hsub : ∀ r, roots' r → roots r) : FrameInv K excl roots' s where
  forest := h.forest.mono hsub
  table := by
    rintro a ⟨r, p, hr, hp⟩
    exact h.table a ⟨r, p, hsub r hr, hp⟩
  user := by
    intro r p e hr he
    obtain ⟨hused, hker, htab⟩ := h.user r p e (hsub r hr) he
    refine ⟨hused, hker, ?_⟩
    rintro ⟨r', p', hr', hp'⟩
    exact htab ⟨r', p', hsub r' hr', hp'⟩
  unique := by
    intro hx r r' p p' e e' hr hr'
    exact h.unique hx r r' p p' e e' (hsub r hr) (hsub r' hr')
  huge := by
    intro r q a i hr
    exact h.huge r q a i (hsub r hr)
  kernel := h.kernel
  boot := h.boot

/-! ## Writes that miss the tables -/

/-- The tables are those of `s` if the tables of `s` are unchanged. -/
theorem tableAt_congr {mem mem' : ℕ → ℕ → ℕ} (hforest : Forest (tableChild mem) roots)
    (hmem : ∀ a, IsTable mem roots a → mem' a = mem a) :
    Forest (tableChild mem') roots ∧ ∀ r p, roots r → tableAt mem' r p = tableAt mem r p := by
  refine hforest.congr ?_
  intro r q a i hr ha
  rw [tableChild, tableChild, hmem a (isTable_of_tableAt hr ha)]

theorem leafAt_congr {mem mem' : ℕ → ℕ → ℕ} (hforest : Forest (tableChild mem) roots)
    (hmem : ∀ a, IsTable mem roots a → mem' a = mem a) (hr : roots r) (p : List ℕ) :
    leafAt mem' r p = leafAt mem r p := by
  cases p with
  | nil => rfl
  | cons k q =>
    rw [leafAt, leafAt, (tableAt_congr hforest hmem).2 r q hr]
    cases hq : tableAt mem r q with
    | none => rfl
    | some pt => rw [Option.map_some, Option.map_some, hmem pt (isTable_of_tableAt hr hq)]

theorem userEntry_congr {mem mem' : ℕ → ℕ → ℕ} (hforest : Forest (tableChild mem) roots)
    (hmem : ∀ a, IsTable mem roots a → mem' a = mem a) (hr : roots r) {p : List ℕ} {e : ℕ} :
    UserEntry mem' r p e ↔ UserEntry mem r p e := by
  rw [UserEntry, UserEntry, leafAt_congr hforest hmem hr]

theorem isTable_congr {mem mem' : ℕ → ℕ → ℕ} (hforest : Forest (tableChild mem) roots)
    (hmem : ∀ a, IsTable mem roots a → mem' a = mem a) {a : ℕ} :
    IsTable mem' roots a ↔ IsTable mem roots a := by
  have hwalk := (tableAt_congr hforest hmem).2
  constructor
  · rintro ⟨r, p, hr, hp⟩
    exact ⟨r, p, hr, (hwalk r p hr).symm.trans hp⟩
  · rintro ⟨r, p, hr, hp⟩
    exact ⟨r, p, hr, (hwalk r p hr).trans hp⟩

/-- The invariant holds in a state with the same tables in which the frames it speaks about are still
allocated. -/
theorem FrameInv.congr (h : FrameInv K excl roots s)
    (hmem : ∀ a, IsTable s.mem roots a → s'.mem a = s.mem a)
    (hboot : ∀ a, K.Page a → s'.mem a = s.mem a)
    (hused : ∀ a, s.Used a → K.Page a ∨ IsTable s.mem roots a ∨ IsUserFrame s.mem roots a →
      s'.Used a) :
    FrameInv K excl roots s' where
  forest := (tableAt_congr h.forest hmem).1
  table := by
    intro a ha
    rw [isTable_congr h.forest hmem] at ha
    obtain ⟨hu, hk⟩ := h.table a ha
    exact ⟨hused a hu (.inr (.inl ha)), hk⟩
  user := by
    intro r p e hr he
    rw [userEntry_congr h.forest hmem hr] at he
    obtain ⟨hu, hk, ht⟩ := h.user r p e hr he
    refine ⟨hused _ hu (.inr (.inr ⟨r, p, e, hr, he, rfl⟩)), hk, ?_⟩
    rwa [isTable_congr h.forest hmem]
  unique := by
    intro hx r r' p p' e e' hr hr' he he'
    rw [userEntry_congr h.forest hmem hr] at he
    rw [userEntry_congr h.forest hmem hr'] at he'
    exact h.unique hx r r' p p' e e' hr hr' he he'
  huge := by
    intro r q a i hr ha
    rw [(tableAt_congr h.forest hmem).2 r q hr] at ha
    rw [hmem a (isTable_of_tableAt hr ha)]
    exact h.huge r q a i hr ha
  kernel := fun a ha => hused a (h.kernel a ha) (.inl ha)
  boot := fun k hk => (hboot _ (K.page_boot k hk)).trans (h.boot k hk)

/-- The invariant holds in every state that has all frames of `s` unchanged. -/
theorem FrameInv.ext (h : FrameInv K excl roots s) (hx : s.Ext s') : FrameInv K excl roots s' :=
  h.congr (fun a ha => hx.mem_eq (h.table a ha).1) (fun a ha => hx.mem_eq (h.kernel a ha))
    fun a ha _ => hx.used a ha

/-! ## Writing a leaf entry -/

theorem mem_set_apply {t i e a j : ℕ} (h : a = t → j ≠ i) : (s.set t i e).mem a j = s.mem a j := by
  by_cases ha : a = t
  · subst ha
    rw [Vm.mem_set_self, Function.update_of_ne (h rfl)]
  · rw [Vm.mem_set_ne ha]

theorem mem_set_entry {t i e : ℕ} : (s.set t i e).mem t i = e := by
  rw [Vm.mem_set_self, Function.update_self]

theorem tableChild_set {t i e a j : ℕ} {q : List ℕ} (h : a = t → j ≠ i) :
    tableChild (s.set t i e).mem q a j = tableChild s.mem q a j := by
  rw [tableChild, tableChild, mem_set_apply h]

section SetLeaf

variable {q : List ℕ} {pt k e : ℕ}

/-- A write to a table at depth 3 leaves all tables where they are. -/
theorem tableAt_setLeaf (hforest : Forest (tableChild s.mem) roots) (hr : roots r)
    (hpt : tableAt s.mem r q = some pt) (hq : q.length = 3) :
    Forest (tableChild (s.set pt k e).mem) roots ∧
      ∀ r' p, roots r' → tableAt (s.set pt k e).mem r' p = tableAt s.mem r' p := by
  refine hforest.congr ?_
  intro r' q' a i hr' ha
  by_cases hne : a = pt → i ≠ k
  · exact tableChild_set hne
  · push Not at hne
    obtain ⟨rfl, rfl⟩ := hne
    obtain ⟨-, rfl⟩ := hforest hr' hr ha hpt
    rw [tableChild, tableChild, if_neg (by omega), if_neg (by omega)]

theorem leafAt_setLeaf (hforest : Forest (tableChild s.mem) roots) (hr : roots r)
    (hpt : tableAt s.mem r q = some pt) (hq : q.length = 3) (hk : k < 512) {r' : ℕ} (hr' : roots r')
    {p : List ℕ} {e' : ℕ} :
    leafAt (s.set pt k e).mem r' p = some e' ↔
      (leafAt s.mem r' p = some e' ∧ ¬(r' = r ∧ p = k :: q)) ∨ (r' = r ∧ p = k :: q ∧ e' = e) := by
  have hwalk := (tableAt_setLeaf (k := k) (e := e) hforest hr hpt hq).2
  rw [leafAt_eq_some, leafAt_eq_some]
  constructor
  · rintro ⟨k', q', pt', rfl, hq', hk', hpt', rfl⟩
    rw [hwalk r' q' hr'] at hpt'
    by_cases hne : pt' = pt → k' ≠ k
    · left
      refine ⟨⟨k', q', pt', rfl, hq', hk', hpt', (mem_set_apply hne).symm⟩, ?_⟩
      rintro ⟨rfl, hcons⟩
      obtain ⟨rfl, rfl⟩ := List.cons.inj hcons
      exact hne (Option.some.inj (hpt'.symm.trans hpt)) rfl
    · right
      push Not at hne
      obtain ⟨rfl, rfl⟩ := hne
      obtain ⟨rfl, rfl⟩ := hforest hr' hr hpt' hpt
      exact ⟨rfl, rfl, mem_set_entry⟩
  · rintro (⟨⟨k', q', pt', rfl, hq', hk', hpt', rfl⟩, hne⟩ | ⟨rfl, rfl, rfl⟩)
    · refine ⟨k', q', pt', rfl, hq', hk', (hwalk r' q' hr').trans hpt', mem_set_apply ?_⟩
      rintro rfl rfl
      obtain ⟨rfl, rfl⟩ := hforest hr' hr hpt' hpt
      exact hne ⟨rfl, rfl⟩
    · exact ⟨k, q, pt, rfl, hq, hk, (hwalk r' q hr).trans hpt, mem_set_entry⟩

/-- The invariant after a write of a leaf entry. If it is a user entry, its frame has to be allocated and
in no other use. -/
theorem FrameInv.setLeaf (h : FrameInv K excl roots s) (hr : roots r)
    (hpt : tableAt s.mem r q = some pt) (hq : q.length = 3) (hk : k < 512)
    (he : Present e → pteAddr e ≠ vpn (k :: q) * 4096 →
      s.Used (pteAddr e) ∧ ¬K.Page (pteAddr e) ∧ ¬IsTable s.mem roots (pteAddr e) ∧
        (excl → ¬IsUserFrame s.mem roots (pteAddr e))) :
    FrameInv K excl roots (s.set pt k e) := by
  obtain ⟨hforest, hwalk⟩ := tableAt_setLeaf (k := k) (e := e) h.forest hr hpt hq
  have htab : ∀ {a}, IsTable (s.set pt k e).mem roots a ↔ IsTable s.mem roots a := by
    intro a
    constructor
    · rintro ⟨r', p, hr', hp⟩
      exact ⟨r', p, hr', (hwalk r' p hr').symm.trans hp⟩
    · rintro ⟨r', p, hr', hp⟩
      exact ⟨r', p, hr', (hwalk r' p hr').trans hp⟩
  have hptUsed := h.table pt (isTable_of_tableAt hr hpt)
  -- a user entry is an old one or the new one
  have huser : ∀ {r' p e'}, roots r' → UserEntry (s.set pt k e).mem r' p e' →
      UserEntry s.mem r' p e' ∨
        (r' = r ∧ p = k :: q ∧ e' = e ∧ Present e ∧ pteAddr e ≠ vpn (k :: q) * 4096) := by
    rintro r' p e' hr' ⟨hleaf, hpres, haddr⟩
    obtain ⟨hold, -⟩ | ⟨rfl, rfl, rfl⟩ := (leafAt_setLeaf h.forest hr hpt hq hk hr').1 hleaf
    · exact .inl ⟨hold, hpres, haddr⟩
    · exact .inr ⟨rfl, rfl, rfl, hpres, haddr⟩
  refine ⟨hforest, fun a ha => h.table a (htab.1 ha), ?_, ?_, ?_, h.kernel, ?_⟩
  · intro r' p e' hr' he'
    rw [htab]
    obtain hold | ⟨rfl, rfl, rfl, hpres, haddr⟩ := huser hr' he'
    · exact h.user r' p e' hr' hold
    · obtain ⟨hu, hker, ht, -⟩ := he hpres haddr
      exact ⟨hu, hker, ht⟩
  · intro hx r₁ r₂ p₁ p₂ e₁ e₂ hr₁ hr₂ he₁ he₂ haddr
    obtain hold₁ | ⟨rfl, rfl, rfl, hpres₁, haddr₁⟩ := huser hr₁ he₁
    · obtain hold₂ | ⟨rfl, rfl, rfl, hpres₂, haddr₂⟩ := huser hr₂ he₂
      · exact h.unique hx r₁ r₂ p₁ p₂ e₁ e₂ hr₁ hr₂ hold₁ hold₂ haddr
      · exact ((he hpres₂ haddr₂).2.2.2 hx ⟨r₁, p₁, e₁, hr₁, hold₁, haddr⟩).elim
    · obtain hold₂ | ⟨rfl, rfl, rfl, -, -⟩ := huser hr₂ he₂
      · exact ((he hpres₁ haddr₁).2.2.2 hx ⟨r₂, p₂, e₂, hr₂, hold₂, haddr.symm⟩).elim
      · exact ⟨rfl, rfl⟩
  · intro r' q' a i hr' ha hi hq' hpres hhuge
    rw [hwalk r' q' hr'] at ha
    have hne : a = pt → i ≠ k := by
      rintro rfl
      obtain ⟨-, rfl⟩ := h.forest hr' hr ha hpt
      omega
    rw [mem_set_apply hne] at hpres hhuge ⊢
    exact h.huge r' q' a i hr' ha hi hq' hpres hhuge
  · intro j hj
    have hne : K.boot + j * 4096 ≠ pt := by
      intro heq
      exact hptUsed.2 (heq ▸ K.page_boot j hj)
    rw [Vm.mem_set_ne hne]
    exact h.boot j hj

end SetLeaf

/-! ## Linking a table -/

/-- The frame `g` can become the table at the path `p`: it is allocated and in no other use; it has no
entries, or, at depth 3, its user entries have frames that are allocated and in no other use. -/
structure NewTable (K : Kernel) (excl : Prop) (roots : ℕ → Prop) (s : Vm) (p : List ℕ) (g : ℕ) :
    Prop where
  used : s.Used g
  not_kernel : ¬K.Page g
  not_table : ¬IsTable s.mem roots g
  not_user : ¬IsUserFrame s.mem roots g
  empty : p.length < 3 → ∀ j, ¬Present (s.mem g j)
  user : ∀ k < 512, Present (s.mem g k) → pteAddr (s.mem g k) ≠ vpn (k :: p) * 4096 →
    s.Used (pteAddr (s.mem g k)) ∧ ¬K.Page (pteAddr (s.mem g k)) ∧
      ¬IsTable s.mem roots (pteAddr (s.mem g k)) ∧ pteAddr (s.mem g k) ≠ g ∧
        (excl → ¬IsUserFrame s.mem roots (pteAddr (s.mem g k)))
  unique : excl → ∀ k < 512, ∀ k' < 512, Present (s.mem g k) →
    pteAddr (s.mem g k) ≠ vpn (k :: p) * 4096 → Present (s.mem g k') →
      pteAddr (s.mem g k') ≠ vpn (k' :: p) * 4096 →
        pteAddr (s.mem g k) = pteAddr (s.mem g k') → k = k'

section Link

variable {q : List ℕ} {t i e : ℕ}

/-- An entry that links a table which has no tables below it adds this one table. -/
theorem tableAt_link (hforest : Forest (tableChild s.mem) roots) (hr : roots r)
    (ht : tableAt s.mem r q = some t) (hi : i < 512) (hq : q.length < 3) (hpres : Present e)
    (hhuge : ¬Huge e) (hold : tableChild s.mem q t i = none)
    (hnot : ¬IsTable s.mem roots (pteAddr e))
    (hempty : (i :: q).length < 3 → ∀ j, ¬Present (s.mem (pteAddr e) j))
    {r' : ℕ} (hr' : roots r') {p : List ℕ} {a : ℕ} :
    tableAt (s.set t i e).mem r' p = some a ↔
      tableAt s.mem r' p = some a ∨ (r' = r ∧ p = i :: q ∧ a = pteAddr e) := by
  have hsame : ∀ q' b j, Reached (tableChild s.mem) roots b → (b = t → j ≠ i) →
      tableChild (s.set t i e).mem q' b j = tableChild s.mem q' b j :=
    fun q' b j _ hne => tableChild_set hne
  -- Only walks through the new entry change.
  by_cases hin : r' = r ∧ i :: q <:+ p
  · obtain ⟨rfl, l, rfl⟩ := hin
    have holdWalk : tableAt s.mem r' (i :: q) = none := by
      rw [tableAt_cons, ht, Option.bind_some, hold]
    have hself : ¬(r' = r' ∧ i :: q <:+ q) := by
      rintro ⟨-, hs⟩
      have := hs.length_le
      simp at this
    have ht' : tableAt (s.set t i e).mem r' q = some t :=
      (walk_update hforest hr ht hsame hr hself).trans ht
    have hnewWalk : tableAt (s.set t i e).mem r' (i :: q) = some (pteAddr e) := by
      rw [tableAt_cons, ht', Option.bind_some, tableChild_eq_some, mem_set_entry]
      exact ⟨⟨hi, hq, hpres, hhuge⟩, rfl⟩
    have hne : pteAddr e ≠ t := fun heq => hnot (heq ▸ isTable_of_tableAt hr ht)
    have hgone : tableAt s.mem r' (l ++ i :: q) = none :=
      walk_eq_none_of_suffix holdWalk (List.suffix_append l _)
    rw [hgone]
    obtain rfl | ⟨l', j, rfl⟩ := List.eq_nil_or_concat' l
    · rw [List.nil_append, hnewWalk]
      simp [eq_comm]
    · -- nothing is below the new table
      have hbelow : tableAt (s.set t i e).mem r' (j :: i :: q) = none := by
        rw [tableAt_cons, hnewWalk, Option.bind_some, tableChild, if_neg]
        rintro ⟨-, hlen, hp, -⟩
        rw [mem_set_apply fun heq => (hne heq).elim] at hp
        exact hempty hlen j hp
      have hnone : tableAt (s.set t i e).mem r' (l' ++ j :: i :: q) = none :=
        walk_eq_none_of_suffix hbelow (List.suffix_append l' _)
      rw [List.append_assoc, List.singleton_append, hnone]
      constructor
      · rintro ⟨⟩
      · rintro (⟨⟨⟩⟩ | ⟨-, hlen, -⟩)
        have := congrArg List.length hlen
        simp only [List.length_append, List.length_cons] at this
        omega
  · have hother : tableAt (s.set t i e).mem r' p = tableAt s.mem r' p :=
      walk_update hforest hr ht hsame hr' hin
    rw [hother]
    constructor
    · exact .inl
    · rintro (h | ⟨rfl, rfl, -⟩)
      · exact h
      · exact (hin ⟨rfl, List.suffix_rfl⟩).elim

theorem leafAt_link (hforest : Forest (tableChild s.mem) roots) (hr : roots r)
    (ht : tableAt s.mem r q = some t) (hi : i < 512) (hq : q.length < 3) (hpres : Present e)
    (hhuge : ¬Huge e) (hold : tableChild s.mem q t i = none)
    (hnot : ¬IsTable s.mem roots (pteAddr e))
    (hempty : (i :: q).length < 3 → ∀ j, ¬Present (s.mem (pteAddr e) j))
    {r' : ℕ} (hr' : roots r') {p : List ℕ} {c : ℕ} :
    leafAt (s.set t i e).mem r' p = some c ↔
      leafAt s.mem r' p = some c ∨
        (r' = r ∧ q.length = 2 ∧ ∃ k < 512, p = k :: i :: q ∧ s.mem (pteAddr e) k = c) := by
  have hlink := fun {p a} => tableAt_link hforest hr ht hi hq hpres hhuge hold hnot hempty hr'
    (p := p) (a := a)
  have hne : pteAddr e ≠ t := fun heq => hnot (heq ▸ isTable_of_tableAt hr ht)
  -- the table that is written is not at depth 3
  have hpt : ∀ {q' pt k}, q'.length = 3 → tableAt s.mem r' q' = some pt →
      (s.set t i e).mem pt k = s.mem pt k := by
    intro q' pt k hq' hpt
    refine mem_set_apply ?_
    rintro rfl
    obtain ⟨-, rfl⟩ := hforest hr' hr hpt ht
    omega
  rw [leafAt_eq_some, leafAt_eq_some]
  constructor
  · rintro ⟨k, q', pt, rfl, hq', hk, hpt', rfl⟩
    obtain hold' | ⟨rfl, rfl, rfl⟩ := hlink.1 hpt'
    · exact .inl ⟨k, q', pt, rfl, hq', hk, hold', (hpt hq' hold').symm⟩
    · refine .inr ⟨rfl, by simpa using hq', k, hk, rfl, ?_⟩
      exact (mem_set_apply fun heq => (hne heq).elim).symm
  · rintro (⟨k, q', pt, rfl, hq', hk, hpt', rfl⟩ | ⟨rfl, hq', k, hk, rfl, rfl⟩)
    · exact ⟨k, q', pt, rfl, hq', hk, hlink.2 (.inl hpt'), hpt hq' hpt'⟩
    · refine ⟨k, i :: q, pteAddr e, rfl, by simp [hq'], hk, hlink.2 (.inr ⟨rfl, rfl, rfl⟩), ?_⟩
      exact mem_set_apply fun heq => (hne heq).elim

/-- The invariant after a write that links a new table. -/
theorem FrameInv.link (h : FrameInv K excl roots s) (hr : roots r)
    (ht : tableAt s.mem r q = some t) (hi : i < 512) (hq : q.length < 3) (hpres : Present e)
    (hhuge : ¬Huge e) (hold : tableChild s.mem q t i = none)
    (hnew : NewTable K excl roots s (i :: q) (pteAddr e)) :
    FrameInv K excl roots (s.set t i e) := by
  have hlink := fun {r' p a} (hr' : roots r') => tableAt_link h.forest hr ht hi hq hpres hhuge hold
    hnew.not_table hnew.empty hr' (p := p) (a := a)
  have hleaf := fun {r' p e'} (hr' : roots r') => leafAt_link h.forest hr ht hi hq hpres hhuge hold
    hnew.not_table hnew.empty hr' (p := p) (c := e')
  have htUsed := h.table t (isTable_of_tableAt hr ht)
  have htab : ∀ {a}, IsTable (s.set t i e).mem roots a →
      IsTable s.mem roots a ∨ a = pteAddr e := by
    rintro a ⟨r', p, hr', hp⟩
    obtain hp | ⟨-, -, rfl⟩ := (hlink hr').1 hp
    · exact .inl ⟨r', p, hr', hp⟩
    · exact .inr rfl
  -- a user entry is an old one or one of the new table
  have huser : ∀ {r' p e'}, roots r' → UserEntry (s.set t i e).mem r' p e' →
      UserEntry s.mem r' p e' ∨
        (r' = r ∧ ∃ k < 512, p = k :: i :: q ∧ e' = s.mem (pteAddr e) k ∧
          Present (s.mem (pteAddr e) k) ∧
          pteAddr (s.mem (pteAddr e) k) ≠ vpn (k :: i :: q) * 4096) := by
    rintro r' p e' hr' ⟨hl, hp', haddr⟩
    obtain hl | ⟨rfl, -, k, hk, rfl, rfl⟩ := (hleaf hr').1 hl
    · exact .inl ⟨hl, hp', haddr⟩
    · exact .inr ⟨rfl, k, hk, rfl, rfl, hp', haddr⟩
  refine ⟨?_, ?_, ?_, ?_, ?_, h.kernel, ?_⟩
  · intro r₁ r₂ p₁ p₂ a hr₁ hr₂ h₁ h₂
    obtain h₁ | ⟨rfl, rfl, rfl⟩ := (hlink hr₁).1 h₁
    · obtain h₂ | ⟨rfl, rfl, rfl⟩ := (hlink hr₂).1 h₂
      · exact h.forest hr₁ hr₂ h₁ h₂
      · exact (hnew.not_table ⟨r₁, p₁, hr₁, h₁⟩).elim
    · obtain h₂ | ⟨rfl, rfl, -⟩ := (hlink hr₂).1 h₂
      · exact (hnew.not_table ⟨r₂, p₂, hr₂, h₂⟩).elim
      · exact ⟨rfl, rfl⟩
  · intro a ha
    obtain ha | rfl := htab ha
    · exact h.table a ha
    · exact ⟨hnew.used, hnew.not_kernel⟩
  · intro r' p e' hr' he'
    obtain hold' | ⟨rfl, k, hk, rfl, rfl, hp', haddr⟩ := huser hr' he'
    · obtain ⟨hu, hker, ht'⟩ := h.user r' p e' hr' hold'
      refine ⟨hu, hker, fun hta => ?_⟩
      obtain hta | heq := htab hta
      · exact ht' hta
      · exact hnew.not_user ⟨r', p, e', hr', hold', heq⟩
    · obtain ⟨hu, hker, ht', hg, -⟩ := hnew.user k hk hp' haddr
      refine ⟨hu, hker, fun hta => ?_⟩
      obtain hta | heq := htab hta
      · exact ht' hta
      · exact hg heq
  · intro hx r₁ r₂ p₁ p₂ e₁ e₂ hr₁ hr₂ he₁ he₂ haddr
    obtain hold₁ | ⟨rfl, k₁, hk₁, rfl, rfl, hp₁, haddr₁⟩ := huser hr₁ he₁
    · obtain hold₂ | ⟨rfl, k₂, hk₂, rfl, rfl, hp₂, haddr₂⟩ := huser hr₂ he₂
      · exact h.unique hx r₁ r₂ p₁ p₂ e₁ e₂ hr₁ hr₂ hold₁ hold₂ haddr
      · exact ((hnew.user k₂ hk₂ hp₂ haddr₂).2.2.2.2 hx ⟨r₁, p₁, e₁, hr₁, hold₁, haddr⟩).elim
    · obtain hold₂ | ⟨rfl, k₂, hk₂, rfl, rfl, hp₂, haddr₂⟩ := huser hr₂ he₂
      · exact ((hnew.user k₁ hk₁ hp₁ haddr₁).2.2.2.2 hx ⟨r₂, p₂, e₂, hr₂, hold₂, haddr.symm⟩).elim
      · rw [hnew.unique hx k₁ hk₁ k₂ hk₂ hp₁ haddr₁ hp₂ haddr₂ haddr]
        exact ⟨rfl, rfl⟩
  · intro r' q' a j hr' ha hj hq' hp' hh'
    obtain ha | ⟨rfl, rfl, rfl⟩ := (hlink hr').1 ha
    · by_cases hne : a = t → j ≠ i
      · rw [mem_set_apply hne] at hp' hh' ⊢
        exact h.huge r' q' a j hr' ha hj hq' hp' hh'
      · push Not at hne
        obtain ⟨rfl, rfl⟩ := hne
        rw [mem_set_entry] at hh'
        exact (hhuge hh').elim
    · -- a new table above depth 3 has no entries
      have hne : pteAddr e ≠ t := fun heq => hnew.not_table (heq ▸ isTable_of_tableAt hr ht)
      rw [mem_set_apply fun heq => (hne heq).elim] at hp'
      exact (hnew.empty hq' j hp').elim
  · intro j hj
    have hne : K.boot + j * 4096 ≠ t := by
      intro heq
      exact htUsed.2 (heq ▸ K.page_boot j hj)
    rw [Vm.mem_set_ne hne]
    exact h.boot j hj

end Link

end

end PlantOS.Mm
