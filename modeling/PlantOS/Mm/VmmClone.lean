import PlantOS.Mm.VmmSpaces

/-!
# Copying an address space

The three nested loops of `vmm_clone_address_space`. Throughout, `s` is the state before the call; no
frame that is allocated in `s` is written or released. The tables of the copy are described entry by
entry: `EntryCopied` for the entries of a page table, `PdEntryCopied` for those of a page directory.

`cloneAllocs` lists what the loops allocate frames for, in their order. `CloneTaken` and `CloneFailed` say
which of the frames belong to the copy when the loops have come to an end or have run out of memory.
-/

namespace PlantOS.Mm

open NodeForest

section

variable {K : Kernel} {excl excl' : Prop} {roots : ℕ → Prop} {s t₀ t t' : Vm}

/-! ## One page table -/

/-- The entry maps its page, and not to the frame with the page's own address. -/
abbrev IsUserPte (base k e : ℕ) : Prop := Present e ∧ pteAddr e ≠ base + k * 2 ^ 12

/-- `e'` is the copy of the entry `e`: an identity entry is taken over, a user entry becomes one with
the same flags for the frame `f`, which has been allocated since `t₀` and holds the same words. -/
structure EntryCopied (s t₀ t : Vm) (base k e e' f : ℕ) : Prop where
  absent : ¬Present e → e' = 0
  identity : Present e → pteAddr e = base + k * 2 ^ 12 → e' = e
  user : IsUserPte base k e → e' = f ||| pteFlags e ∧ t₀.Fresh t f ∧ t.mem f = s.mem (pteAddr e)

theorem EntryCopied.keeps {P : ℕ → Prop} {base k e e' f : ℕ} (h : EntryCopied s t₀ t base k e e' f)
    (hx : Vm.Keeps P t t') (hP : ∀ a, P a → t₀.Used a) : EntryCopied s t₀ t' base k e e' f where
  absent := h.absent
  identity := h.identity
  user hu := by
    obtain ⟨he, hf, hmem⟩ := h.user hu
    exact ⟨he, hf.keeps hx, (hx.mem f hf.used fun hp => hf.not_used (hP f hp)).trans hmem⟩

/-- A frame that is new for a later state is new for an earlier one. -/
theorem EntryCopied.of_keeps {P : ℕ → Prop} {t₁ : Vm} {base k e e' f : ℕ}
    (h : EntryCopied s t₁ t base k e e' f) (hx : Vm.Keeps P t₀ t₁) :
    EntryCopied s t₀ t base k e e' f where
  absent := h.absent
  identity := h.identity
  user hu := by
    obtain ⟨he, hf, hmem⟩ := h.user hu
    exact ⟨he, hf.of_keeps hx, hmem⟩

/-- The entries below `n` of the page table `newPt` are copied from `srcPt`; `frame` gives the frames of
the user entries. -/
structure PtCloned (s t₀ t : Vm) (srcPt newPt base : ℕ) (frame : ℕ → ℕ) (n : ℕ) : Prop where
  keeps : Vm.Keeps (· = newPt) t₀ t
  entry : ∀ k < n, EntryCopied s t₀ t base k (s.mem srcPt k) (t.mem newPt k) (frame k)
  unique : ∀ k < n, ∀ k' < n, IsUserPte base k (s.mem srcPt k) → IsUserPte base k' (s.mem srcPt k') →
    frame k = frame k' → k = k'
  rest : ∀ k ≥ n, t.mem newPt k = 0

section

variable {srcPt newPt base k : ℕ} {frame : ℕ → ℕ}

/-- One more entry. -/
theorem PtCloned.next (h : PtCloned s t₀ t srcPt newPt base frame k) (hpt : t₀.Used newPt) {c f : ℕ}
    (hx : Vm.Keeps (· = newPt) t t') (hmem : t'.mem newPt = Function.update (t.mem newPt) k c)
    (hentry : EntryCopied s t₀ t' base k (s.mem srcPt k) c f)
    (hf : IsUserPte base k (s.mem srcPt k) → ¬t.Used f) :
    PtCloned s t₀ t' srcPt newPt base (Function.update frame k f) (k + 1) := by
  have hold : ∀ {j}, j < k → Function.update frame k f j = frame j :=
    fun hj => Function.update_of_ne (by omega) ..
  have hnew : ∀ j < k, IsUserPte base j (s.mem srcPt j) → IsUserPte base k (s.mem srcPt k) →
      frame j ≠ f := by
    intro j hj hu hu' heq
    exact hf hu' (heq ▸ ((h.entry j hj).user hu).2.1.used)
  refine ⟨h.keeps.trans hx, ?_, ?_, ?_⟩
  · intro j hj
    rw [hmem]
    obtain hj | rfl := Nat.lt_succ_iff_lt_or_eq.1 hj
    · rw [hold hj, Function.update_of_ne (by omega)]
      exact (h.entry j hj).keeps hx fun a ha => ha ▸ hpt
    · rw [Function.update_self, Function.update_self]
      exact hentry
  · intro j hj j' hj' hu hu' heq
    obtain hj | rfl := Nat.lt_succ_iff_lt_or_eq.1 hj
    · obtain hj' | rfl := Nat.lt_succ_iff_lt_or_eq.1 hj'
      · rw [hold hj, hold hj'] at heq
        exact h.unique j hj j' hj' hu hu' heq
      · rw [hold hj, Function.update_self] at heq
        exact (hnew j hj hu hu' heq).elim
    · obtain hj' | rfl := Nat.lt_succ_iff_lt_or_eq.1 hj'
      · rw [hold hj', Function.update_self] at heq
        exact (hnew j' hj' hu' hu heq.symm).elim
      · rfl
  · intro j hj
    rw [hmem, Function.update_of_ne (by omega)]
    exact h.rest j (by omega)

/-- The addresses of the user pages among the first `n` entries of the page table `pt`. -/
def ptPages (mem : ℕ → ℕ → ℕ) (pt base n : ℕ) : List ℕ :=
  (List.range n).filterMap fun k => if IsUserPte base k (mem pt k) then some (base + k * 2 ^ 12) else none

theorem ptPages_succ (mem : ℕ → ℕ → ℕ) (pt base n : ℕ) :
    ptPages mem pt base (n + 1) = ptPages mem pt base n ++
      if IsUserPte base n (mem pt n) then [base + n * 2 ^ 12] else [] := by
  rw [ptPages, List.range_succ, List.filterMap_append, ← ptPages]
  by_cases h : IsUserPte base n (mem pt n)
  · simp only [List.filterMap_cons, if_pos h, List.filterMap_nil]
  · simp only [List.filterMap_cons, if_neg h, List.filterMap_nil]

/-- The frame `a` is that of a user page among the first `n` entries of the page table `pt`. -/
def PtOwns (mem : ℕ → ℕ → ℕ) (pt base n a : ℕ) : Prop :=
  ∃ k < n, IsUserPte base k (mem pt k) ∧ pteAddr (mem pt k) = a

theorem ptOwns_succ {mem : ℕ → ℕ → ℕ} {pt base n a : ℕ} :
    PtOwns mem pt base (n + 1) a ↔
      PtOwns mem pt base n a ∨ (IsUserPte base n (mem pt n) ∧ pteAddr (mem pt n) = a) := by
  constructor
  · rintro ⟨k, hk, h⟩
    obtain hk | rfl := Nat.lt_succ_iff_lt_or_eq.1 hk
    · exact .inl ⟨k, hk, h⟩
    · exact .inr h
  · rintro (⟨k, hk, h⟩ | h)
    · exact ⟨k, by omega, h⟩
    · exact ⟨n, by omega, h⟩

/-- The frames `l` have been allocated for the copies of the user pages among the first `n` entries. A page
whose frame has the address of the page looks like an identity entry in the copy. -/
structure PtTaken (s t₀ t : Vm) (srcPt newPt base n : ℕ) (l : List ℕ) : Prop where
  takes : Vm.Takes t₀ t l
  length : l.length = (ptPages s.mem srcPt base n).length
  owns : ∀ a, PtOwns t.mem newPt base n a ↔ ∃ v, (v, a) ∈ (ptPages s.mem srcPt base n).zip l ∧ v ≠ a

/-- One more entry that takes no frame. -/
theorem PtTaken.skip {l : List ℕ} {c : ℕ} (h : PtTaken s t₀ t srcPt newPt base k l)
    (hp : t'.pmm = t.pmm) (hmem : t'.mem newPt = Function.update (t.mem newPt) k c)
    (hsrc : ¬IsUserPte base k (s.mem srcPt k)) (hc : ¬IsUserPte base k c) :
    PtTaken s t₀ t' srcPt newPt base (k + 1) l := by
  refine ⟨h.takes.of_pmm_eq hp, ?_, fun a => ?_⟩
  · rw [ptPages_succ, if_neg hsrc, List.append_nil, h.length]
  · have hold : PtOwns t'.mem newPt base k a ↔ PtOwns t.mem newPt base k a := by
      refine exists_congr fun j => and_congr_right fun hj => ?_
      rw [hmem, Function.update_of_ne (by omega)]
    rw [ptOwns_succ, hold, hmem, Function.update_self, ptPages_succ, if_neg hsrc, List.append_nil, h.owns]
    exact or_iff_left fun hn => hc hn.1

/-- One more user page, copied to the frame `f`. -/
theorem PtTaken.page {l : List ℕ} {f c : ℕ} (h : PtTaken s t₀ t srcPt newPt base k l)
    (ht : Vm.Takes t t' [f]) (hmem : t'.mem newPt = Function.update (t.mem newPt) k c)
    (hsrc : IsUserPte base k (s.mem srcPt k)) (hp : Present c) (hf : pteAddr c = f) :
    PtTaken s t₀ t' srcPt newPt base (k + 1) (l ++ [f]) := by
  refine ⟨h.takes.trans ht, ?_, fun a => ?_⟩
  · rw [ptPages_succ, if_pos hsrc, List.length_append, List.length_append, h.length]
    rfl
  · have hold : PtOwns t'.mem newPt base k a ↔ PtOwns t.mem newPt base k a := by
      refine exists_congr fun j => and_congr_right fun hj => ?_
      rw [hmem, Function.update_of_ne (by omega)]
    rw [ptOwns_succ, hold, hmem, Function.update_self, ptPages_succ, if_pos hsrc,
      List.zip_append h.length.symm, h.owns]
    simp only [List.mem_append, List.zip_cons_cons, List.zip_nil_left, List.mem_singleton,
      Prod.mk.injEq, or_and_right, exists_or, hf]
    refine or_congr_right ⟨?_, ?_⟩
    · rintro ⟨⟨-, hne⟩, rfl⟩
      exact ⟨_, ⟨rfl, rfl⟩, (hf ▸ hne).symm⟩
    · rintro ⟨v, ⟨rfl, rfl⟩, hne⟩
      exact ⟨⟨hp, hf ▸ hne.symm⟩, rfl⟩

/-- The loop over the entries of a page table. -/
theorem clonePt_spec (h0 : s.Used 0) (hsrc : s.Used srcPt)
    (hframes : ∀ k < 512, IsUserPte base k (s.mem srcPt k) → s.Used (pteAddr (s.mem srcPt k)))
    (hx₀ : s.Ext t₀) (hpt : t₀.Used newPt) (hnew : ¬s.Used newPt) (n : ℕ) :
    ∀ {k : ℕ} {frame : ℕ → ℕ} {t : Vm} {l : List ℕ}, k + n = 512 →
      PtCloned s t₀ t srcPt newPt base frame k → PtTaken s t₀ t srcPt newPt base k l →
      Vm.Keeps (· = newPt) t₀ (clonePt srcPt newPt base n k t).2 ∧
      ((clonePt srcPt newPt base n k t).1 = true → ∃ frame l,
        PtCloned s t₀ (clonePt srcPt newPt base n k t).2 srcPt newPt base frame 512 ∧
        PtTaken s t₀ (clonePt srcPt newPt base n k t).2 srcPt newPt base 512 l) ∧
      ((clonePt srcPt newPt base n k t).1 = false → ∃ m < 512, ∃ l,
        IsUserPte base m (s.mem srcPt m) ∧ (clonePt srcPt newPt base n k t).2.freeFrames = [] ∧
        PtTaken s t₀ (clonePt srcPt newPt base n k t).2 srcPt newPt base m l) := by
  induction n with
  | zero =>
    intro k frame t l hk h ht
    rw [Nat.add_zero] at hk
    subst hk
    exact ⟨h.keeps, fun _ => ⟨frame, l, h, ht⟩, fun hf => (Bool.false_ne_true hf.symm).elim⟩
  | succ n ih =>
    intro k frame t l hk h ht
    have hkeep : ∀ {a}, s.Used a → t.mem a = s.mem a := by
      intro a ha
      have hne : a ≠ newPt := fun heq => hnew (heq ▸ ha)
      exact (h.keeps.mem a (hx₀.used a ha) hne).trans (hx₀.mem_eq ha)
    rw [clonePt]
    dsimp only
    rw [hkeep hsrc]
    by_cases hp : Present (s.mem srcPt k)
    · rw [if_pos hp]
      by_cases hid : pteAddr (s.mem srcPt k) = base + k * 2 ^ 12
      · -- an identity entry
        rw [if_pos hid]
        have hx : Vm.Keeps (· = newPt) t (t.set newPt k (s.mem srcPt k)) :=
          (Vm.Keeps.refl (· = newPt) t).set fun _ => rfl
        exact ih (by omega) (h.next (f := 0) hpt hx Vm.mem_set_self
          ⟨fun hn => (hn hp).elim, fun _ _ => rfl, fun hu => (hu.2 hid).elim⟩
          fun hu => (hu.2 hid).elim)
          (ht.skip rfl Vm.mem_set_self (fun hu => hu.2 hid) fun hu => hu.2 hid)
      · rw [if_neg hid]
        have h0t := h.keeps.used 0 (hx₀.used 0 h0)
        obtain ⟨hfree, heq⟩ | ⟨hne, htakes⟩ := Vm.alloc_takes h0t
        · rw [if_pos (by rw [heq]), heq]
          exact ⟨h.keeps, fun hf => (Bool.false_ne_true hf).elim,
            fun _ => ⟨k, by omega, l, ⟨hp, hid⟩, hfree, ht⟩⟩
        · -- a user page gets a frame of its own
          have hfresh : t.Fresh t.alloc.2 t.alloc.1 := htakes.fresh (List.mem_singleton.2 rfl)
          have hext : t.Ext t.alloc.2 := (Vm.Keeps.refl _ t).alloc h0t
          rw [if_neg hne, Vm.mem_alloc, hkeep (hframes k (by omega) ⟨hp, hid⟩)]
          have hptt : t.Used newPt := h.keeps.used _ hpt
          have hnept : t.alloc.1 ≠ newPt := hfresh.ne hptt
          have hx : Vm.Keeps (· = newPt) t
              (t.alloc.2.setPage t.alloc.1 (s.mem (pteAddr (s.mem srcPt k)))) :=
            (hext.keeps _).setPage fun hu => (hfresh.not_used hu).elim
          have hflags := pteFlags_lt (s.mem srcPt k)
          have hset : (((t.alloc.2.setPage t.alloc.1 (s.mem (pteAddr (s.mem srcPt k)))).set newPt k
              (t.alloc.1 ||| pteFlags (s.mem srcPt k))).mem newPt) =
              Function.update (t.mem newPt) k (t.alloc.1 ||| pteFlags (s.mem srcPt k)) := by
            rw [Vm.mem_set_self, Vm.mem_setPage_ne hnept.symm, Vm.mem_alloc]
          refine ih (by omega) (h.next (f := t.alloc.1)
            (c := t.alloc.1 ||| pteFlags (s.mem srcPt k)) hpt (hx.set fun _ => rfl) hset ?_
            fun _ => hfresh.not_used) (ht.page (htakes.of_pmm_eq rfl) hset ⟨hp, hid⟩ ?_ ?_)
          rotate_left
          · rw [present_or hfresh.aligned hflags, present_pteFlags]
            exact hp
          · exact pteAddr_or hfresh.aligned hflags
          · refine ⟨fun hn => (hn hp).elim, fun _ hid' => (hid hid').elim, fun _ => ⟨rfl, ?_, ?_⟩⟩
            · exact ⟨fun hu => hfresh.not_used (h.keeps.used _ hu), hfresh.used⟩
            · rw [Vm.mem_set_ne hnept, Vm.mem_setPage_self]
    · rw [if_neg hp]
      have hrest : t.mem newPt = Function.update (t.mem newPt) k 0 := by
        rw [← h.rest k (Nat.le_refl k), Function.update_eq_self]
      exact ih (by omega) (h.next (f := 0) (c := 0) hpt (Vm.Keeps.refl _ t) hrest
        ⟨fun _ => rfl, fun hp' => (hp hp').elim, fun hu => (hp hu.1).elim⟩ fun hu => (hp hu.1).elim)
        (ht.skip rfl hrest (fun hu => hp hu.1) fun hu => absurd hu.1 (by decide))

end

/-! ## The frames of the copy -/

/-- The first address that entry `j` of the directory `i` maps. -/
abbrev pdBase (i j : ℕ) : ℕ := i * 2 ^ 30 + j * 2 ^ 21

theorem vpn_leaf (i j k : ℕ) : vpn [k, j, i, 0] * 4096 = pdBase i j + k * 2 ^ 12 := by
  simp only [vpn, pdBase]
  omega

/-- What a frame is allocated for: a page table, or the copy of the page at `virt`. -/
inductive CloneAlloc
  | table
  | page (virt : ℕ)
deriving DecidableEq

/-- What the loop allocates for `n` entries of the page directory `pd` from `j` on. -/
def pdAllocs (mem : ℕ → ℕ → ℕ) (pd base j n : ℕ) : List CloneAlloc :=
  (List.range' j n).flatMap fun j =>
    if Present (mem pd j) ∧ ¬Huge (mem pd j) then
      .table :: (ptPages mem (pteAddr (mem pd j)) (base + j * 2 ^ 21) 512).map .page
    else []

/-- What the loop allocates for `n` page directories from `i` on. -/
def pdptAllocs (mem : ℕ → ℕ → ℕ) (pdpt i n : ℕ) : List CloneAlloc :=
  (List.range' i n).flatMap fun i =>
    if Present (mem pdpt i) then pdAllocs mem (pteAddr (mem pdpt i)) (i * 2 ^ 30) 0 512 else []

theorem pdAllocs_succ (mem : ℕ → ℕ → ℕ) (pd base j n : ℕ) :
    pdAllocs mem pd base j (n + 1) =
      (if Present (mem pd j) ∧ ¬Huge (mem pd j) then
        .table :: (ptPages mem (pteAddr (mem pd j)) (base + j * 2 ^ 21) 512).map .page else []) ++
      pdAllocs mem pd base (j + 1) n := by
  rw [pdAllocs, List.range'_succ, List.flatMap_cons, ← pdAllocs]

theorem pdptAllocs_succ (mem : ℕ → ℕ → ℕ) (pdpt i n : ℕ) :
    pdptAllocs mem pdpt i (n + 1) =
      (if Present (mem pdpt i) then pdAllocs mem (pteAddr (mem pdpt i)) (i * 2 ^ 30) 0 512 else []) ++
      pdptAllocs mem pdpt (i + 1) n := by
  rw [pdptAllocs, List.range'_succ, List.flatMap_cons, ← pdptAllocs]

/-- What `vmm_clone_address_space` allocates for the address space `src` after its call of
`vmm_create_address_space`, in this order. -/
def cloneAllocs (mem : ℕ → ℕ → ℕ) (src : ℕ) : List CloneAlloc :=
  if Present (mem src 0) then pdptAllocs mem (pteAddr (mem src 0)) 0 4 else []

/-- The frames `l` have been allocated for `allocs`. All of them belong to the address space `r`, except for
a page with the address of its frame: it looks like an identity entry. -/
structure CloneTaken (r : ℕ) (b t : Vm) (allocs : List CloneAlloc) (l : List ℕ) : Prop where
  takes : Vm.Takes b t l
  length : l.length = allocs.length
  owns : ∀ a, Owns t.mem r a ↔ Owns b.mem r a ∨ ∃ x, (x, a) ∈ allocs.zip l ∧ x ≠ .page a

/-- No frame was left for one of `allocs`. If it was to be a page, the page table is not linked yet, so that
it does not belong to the address space `r`. -/
inductive CloneFailed (r : ℕ) (b t : Vm) (allocs : List CloneAlloc) : Prop
  | table {pre : List CloneAlloc} {l : List ℕ} (taken : CloneTaken r b t pre l)
      (next : pre ++ [.table] <+: allocs) (free : t.freeFrames = [])
  | page {pre : List CloneAlloc} {l : List ℕ} {virt g : ℕ} (takes : Vm.Takes b t l)
      (length : l.length = pre.length) (next : pre ++ [.page virt] <+: allocs) (free : t.freeFrames = [])
      (owns : ∀ a, Owns t.mem r a → Owns b.mem r a ∨ a ∈ l) (mem : g ∈ l) (loose : ¬Owns t.mem r g)

section

variable {r : ℕ} {b u : Vm} {allocs allocs' : List CloneAlloc} {l l' : List ℕ}

theorem CloneTaken.refl (r : ℕ) (b : Vm) : CloneTaken r b b [] [] := ⟨.refl b, rfl, by simp⟩

theorem CloneTaken.trans (h : CloneTaken r b t allocs l) (h' : CloneTaken r t u allocs' l') :
    CloneTaken r b u (allocs ++ allocs') (l ++ l') where
  takes := h.takes.trans h'.takes
  length := by rw [List.length_append, List.length_append, h.length, h'.length]
  owns a := by
    rw [h'.owns, h.owns, List.zip_append h.length.symm, or_assoc, ← exists_or]
    simp only [List.mem_append, or_and_right]

theorem CloneTaken.failed (h : CloneTaken r b t allocs l) (h' : CloneFailed r t u allocs') :
    CloneFailed r b u (allocs ++ allocs') := by
  have happ : ∀ {pre : List CloneAlloc} {x : CloneAlloc}, pre ++ [x] <+: allocs' →
      allocs ++ pre ++ [x] <+: allocs ++ allocs' := by
    intro pre x hx
    rw [List.append_assoc]
    exact (List.prefix_append_right_inj allocs).2 hx
  cases h' with
  | table taken next free => exact .table (h.trans taken) (happ next) free
  | page takes length next free owns mem loose =>
    refine .page (h.takes.trans takes) ?_ (happ next) free (fun a ha => ?_) (List.mem_append_right l mem)
      loose
    · rw [List.length_append, List.length_append, h.length, length]
    · obtain ha | ha := owns a ha
      · obtain ha | ⟨x, hx, -⟩ := (h.owns a).1 ha
        · exact .inl ha
        · exact .inr (List.mem_append_left _ (List.of_mem_zip hx).2)
      · exact .inr (List.mem_append_right l ha)

theorem CloneFailed.mono (h : CloneFailed r b t allocs) (hx : allocs <+: allocs') :
    CloneFailed r b t allocs' := by
  cases h with
  | table taken next free => exact .table taken (next.trans hx) free
  | page takes length next free owns mem loose =>
    exact .page takes length (next.trans hx) free owns mem loose

/-- The frames of an address space are those of `s` if no table has changed. -/
theorem FrameInv.owns_congr {mem : ℕ → ℕ → ℕ} (h : FrameInv K excl roots s) (hr : roots r)
    (hmem : ∀ a, IsTable s.mem roots a → mem a = s.mem a) (a : ℕ) : Owns mem r a ↔ Owns s.mem r a := by
  have hroot : ∀ x, x = r → roots x := fun x hx => hx ▸ hr
  have hmem' : ∀ a, IsTable s.mem (· = r) a → mem a = s.mem a := by
    rintro a ⟨x, p, hx', hp⟩
    exact hmem a ⟨x, p, hroot x hx', hp⟩
  have hforest := h.forest.mono hroot
  refine or_congr (isTable_congr hforest hmem') ?_
  refine exists_congr fun x => exists_congr fun p => exists_congr fun e => and_congr_right fun hx' => ?_
  rw [userEntry_congr hforest hmem' hx']

theorem FrameInv.owns_ext (h : FrameInv K excl roots s) (hr : roots r) (hx : s.Ext t) (a : ℕ) :
    Owns t.mem r a ↔ Owns s.mem r a :=
  h.owns_congr hr (fun _ ha => hx.mem_eq (h.table _ ha).1) a

theorem FrameInv.owns_used (h : FrameInv K excl roots s) (hr : roots r) {a : ℕ} (ha : Owns s.mem r a) :
    s.Used a := by
  obtain ⟨x, p, rfl, hp⟩ | ⟨x, p, e, rfl, he, rfl⟩ := ha
  · exact (h.table a ⟨x, p, hr, hp⟩).1
  · exact (h.user x p e hr he).1

/-- A page table that is linked brings itself and the frames of its user pages. -/
theorem FrameInv.owns_link {pd i j e : ℕ} (h : FrameInv K excl roots s) (hr : roots r)
    (hpd : tableAt s.mem r [i, 0] = some pd) (hj : j < 512) (hpres : Present e) (hhuge : ¬Huge e)
    (hold : tableChild s.mem [i, 0] pd j = none) (hnew : NewTable K excl roots s [j, i, 0] (pteAddr e))
    (a : ℕ) :
    Owns (s.set pd j e).mem r a ↔
      Owns s.mem r a ∨ a = pteAddr e ∨ PtOwns s.mem (pteAddr e) (pdBase i j) 512 a := by
  have hlink := fun {p a} => tableAt_link h.forest hr hpd hj (by simp) hpres hhuge hold
    hnew.not_table hnew.empty hr (p := p) (a := a)
  have hleaf := fun {p c} => leafAt_link h.forest hr hpd hj (by simp) hpres hhuge hold
    hnew.not_table hnew.empty hr (p := p) (c := c)
  constructor
  · rintro (⟨x, p, rfl, hp⟩ | ⟨x, p, c, rfl, ⟨hc, hpc, haddr⟩, rfl⟩)
    · obtain hp | ⟨-, -, rfl⟩ := hlink.1 hp
      · exact .inl (owns_of_tableAt hp)
      · exact .inr (.inl rfl)
    · obtain hc | ⟨-, -, k, hk, rfl, rfl⟩ := hleaf.1 hc
      · exact .inl (.inr ⟨x, p, c, rfl, ⟨hc, hpc, haddr⟩, rfl⟩)
      · rw [vpn_leaf] at haddr
        exact .inr (.inr ⟨k, hk, ⟨hpc, haddr⟩, rfl⟩)
  · rintro ((⟨x, p, rfl, hp⟩ | ⟨x, p, c, rfl, ⟨hc, hpc, haddr⟩, rfl⟩) | rfl | ⟨k, hk, ⟨hpc, haddr⟩, rfl⟩)
    · exact owns_of_tableAt (hlink.2 (.inl hp))
    · exact .inr ⟨x, p, c, rfl, ⟨hleaf.2 (.inl hc), hpc, haddr⟩, rfl⟩
    · exact owns_of_tableAt (hlink.2 (.inr ⟨rfl, rfl, rfl⟩))
    · refine .inr ⟨r, [k, j, i, 0], _, rfl, ⟨hleaf.2 (.inr ⟨rfl, rfl, k, hk, rfl, rfl⟩), hpc, ?_⟩, rfl⟩
      rwa [vpn_leaf]

end

/-! ## One page directory -/

/-- A copied page table can be linked into a tree all of whose frames were allocated in `t`. -/
theorem PtCloned.newTable {u : Vm} {i j srcPt newPt : ℕ} {frame : ℕ → ℕ}
    (h : PtCloned s u t' srcPt newPt (pdBase i j) frame 512) (hinv : FrameInv K excl roots t)
    (hu : t.Ext u) (hx : t.Ext t') (hpt : t.Fresh u newPt) :
    NewTable K excl roots t' [j, i, 0] newPt := by
  have hloose := fun {f} (hf : t.Fresh t' f) => hinv.loose_of_fresh hx hf
  have hpt' : t.Fresh t' newPt := ⟨hpt.not_used, h.keeps.used _ hpt.used⟩
  -- a user entry of the copy comes from one of the source
  have huser : ∀ k < 512, Present (t'.mem newPt k) →
      pteAddr (t'.mem newPt k) ≠ vpn [k, j, i, 0] * 4096 →
      IsUserPte (pdBase i j) k (s.mem srcPt k) ∧ pteAddr (t'.mem newPt k) = frame k ∧
        u.Fresh t' (frame k) := by
    intro k hk hp haddr
    rw [vpn_leaf] at haddr
    have hentry := h.entry k hk
    by_cases hps : Present (s.mem srcPt k)
    · by_cases hid : pteAddr (s.mem srcPt k) = pdBase i j + k * 2 ^ 12
      · rw [hentry.identity hps hid] at haddr
        exact (haddr hid).elim
      · obtain ⟨he, hf, -⟩ := hentry.user ⟨hps, hid⟩
        refine ⟨⟨hps, hid⟩, ?_, hf⟩
        rw [he, pteAddr_or hf.aligned (pteFlags_lt _)]
    · rw [hentry.absent hps] at hp
      exact absurd hp (by decide)
  refine ⟨hpt'.used, (hloose hpt').not_kernel, (hloose hpt').not_table, ?_, ?_, ?_, ?_⟩
  · rintro ⟨r, p, e, hr, he, heq⟩
    refine hinv.not_isUserFrame_of_fresh hpt' ⟨r, p, e, hr, ?_, heq⟩
    exact (TablesGrow.of_ext hinv hx).user r p e hr he
  · intro hlen
    exact absurd hlen (by simp)
  · intro k hk hp haddr
    obtain ⟨-, heq, hf⟩ := huser k hk hp haddr
    rw [heq]
    have hl := hloose (hf.of_keeps hu)
    exact ⟨hl.used, hl.not_kernel, hl.not_table, hf.ne hpt.used, hl.not_user⟩
  · intro _ k hk k' hk' hp haddr hp' haddr' heq
    obtain ⟨hu₁, heq₁, -⟩ := huser k hk hp haddr
    obtain ⟨hu₂, heq₂, -⟩ := huser k' hk' hp' haddr'
    exact h.unique k hk k' hk' hu₁ hu₂ (by rw [← heq₁, heq, heq₂])

/-- `e'` is what entry `j` of the copied directory `i` is if the source has the entry `e`: the huge page
of the boot code, or a copied page table. -/
structure PdEntryCopied (s t₀ t : Vm) (i j e e' : ℕ) : Prop where
  boot : ¬(Present e ∧ ¬Huge e) → e' = (i * 512 + j) * 0x200000 + 0x87
  table : Present e ∧ ¬Huge e → ∃ (newPt : ℕ) (frame : ℕ → ℕ),
    e' = newPt ||| pteFlags e ∧ t₀.Fresh t newPt ∧
    ∀ k < 512, EntryCopied s t₀ t (pdBase i j) k (s.mem (pteAddr e) k) (t.mem newPt k) (frame k)

theorem PdEntryCopied.keeps {P : ℕ → Prop} {i j e e' : ℕ} (h : PdEntryCopied s t₀ t i j e e')
    (hx : Vm.Keeps P t t') (hP : ∀ a, P a → t₀.Used a) : PdEntryCopied s t₀ t' i j e e' where
  boot := h.boot
  table htab := by
    obtain ⟨newPt, frame, he, hpt, hentry⟩ := h.table htab
    refine ⟨newPt, frame, he, hpt.keeps hx, fun k hk => ?_⟩
    rw [hx.mem newPt hpt.used fun hp => hpt.not_used (hP _ hp)]
    exact (hentry k hk).keeps hx hP

theorem PdEntryCopied.of_keeps {P : ℕ → Prop} {t₁ : Vm} {i j e e' : ℕ}
    (h : PdEntryCopied s t₁ t i j e e') (hx : Vm.Keeps P t₀ t₁) : PdEntryCopied s t₀ t i j e e' where
  boot := h.boot
  table htab := by
    obtain ⟨newPt, frame, he, hpt, hentry⟩ := h.table htab
    exact ⟨newPt, frame, he, hpt.of_keeps hx, fun k hk => (hentry k hk).of_keeps hx⟩

/-- The entries below `n` of the directory `newPd` of the address space `r` are copied from `srcPd`. -/
structure PdCloned (K : Kernel) (excl : Prop) (roots : ℕ → Prop) (s t₀ t : Vm)
    (r srcPd newPd i n : ℕ) : Prop where
  inv : FrameInv K excl roots t
  pd : tableAt t.mem r [i, 0] = some newPd
  keeps : Vm.Keeps (· = newPd) t₀ t
  entry : ∀ j < n, PdEntryCopied s t₀ t i j (s.mem srcPd j) (t.mem newPd j)
  rest : ∀ j, n ≤ j → j < 512 → t.mem newPd j = (i * 512 + j) * 0x200000 + 0x87

section

variable {roots' : ℕ → Prop} {r src srcPd newPd i : ℕ}

/-- The directory entry of the boot code refers to no table. -/
theorem PdCloned.tableChild_eq_none {n j : ℕ} (h : PdCloned K excl roots' s t₀ t r srcPd newPd i n)
    (hn : n ≤ j) (hj : j < 512) (q : List ℕ) : tableChild t.mem q newPd j = none := by
  rw [tableChild, h.rest j hn hj, if_neg]
  rintro ⟨-, -, -, hh⟩
  rw [Huge] at hh
  omega

/-- One more entry that is not a page table in the source. -/
theorem PdCloned.skip {j : ℕ} (h : PdCloned K excl roots' s t₀ t r srcPd newPd i j) (hj : j < 512)
    (he : ¬(Present (s.mem srcPd j) ∧ ¬Huge (s.mem srcPd j))) :
    PdCloned K excl roots' s t₀ t r srcPd newPd i (j + 1) where
  inv := h.inv
  pd := h.pd
  keeps := h.keeps
  entry j' hj' := by
    obtain hj' | rfl := Nat.lt_succ_iff_lt_or_eq.1 hj'
    · exact h.entry j' hj'
    · exact ⟨fun _ => h.rest j' (Nat.le_refl _) hj, fun hc => (he hc).elim⟩
  rest j' hj' := h.rest j' (by omega)

/-- One more page table, built between `t` and `t'` with its frames allocated since `u`. -/
theorem PdCloned.link {j newPt : ℕ} {frame : ℕ → ℕ} {u : Vm} (hr : roots' r)
    (hnewPd : t₀.Used newPd) (h : PdCloned K excl roots' s t₀ t r srcPd newPd i j) (hj : j < 512)
    (he : Present (s.mem srcPd j) ∧ ¬Huge (s.mem srcPd j)) (hu : t.Ext u) (hpt : t.Fresh u newPt)
    (hx : t.Ext t')
    (hclone : PtCloned s u t' (pteAddr (s.mem srcPd j)) newPt (pdBase i j) frame 512) :
    PdCloned K excl roots' s t₀ (t'.set newPd j (newPt ||| pteFlags (s.mem srcPd j))) r srcPd newPd
      i (j + 1) ∧
    ∀ a, Owns (t'.set newPd j (newPt ||| pteFlags (s.mem srcPd j))).mem r a ↔
      Owns t.mem r a ∨ a = newPt ∨ PtOwns t'.mem newPt (pdBase i j) 512 a := by
  have hal : newPt % 4096 = 0 := hpt.aligned
  have hlt := pteFlags_lt (s.mem srcPd j)
  have hp : Present (newPt ||| pteFlags (s.mem srcPd j)) := by
    rw [present_or hal hlt, present_pteFlags]
    exact he.1
  have hh : ¬Huge (newPt ||| pteFlags (s.mem srcPd j)) := by
    rw [huge_or hal hlt, huge_pteFlags]
    exact he.2
  have haddr : pteAddr (newPt ||| pteFlags (s.mem srcPd j)) = newPt := pteAddr_or hal hlt
  have hgrow := TablesGrow.of_ext h.inv hx
  have hpd := hgrow.table r _ newPd hr h.pd
  have hnew := hclone.newTable h.inv hu hx hpt
  have hmemPd : t'.mem newPd = t.mem newPd := hx.mem_eq (h.keeps.used _ hnewPd)
  -- The entry did not lead to a table before.
  have hold : tableChild t'.mem [i, 0] newPd j = none := by
    rw [tableChild, hmemPd, ← tableChild]
    exact h.tableChild_eq_none (Nat.le_refl _) hj _
  have hkeep : Vm.Keeps (· = newPd) t (t'.set newPd j (newPt ||| pteFlags (s.mem srcPd j))) :=
    (hx.keeps (· = newPd)).set fun _ => rfl
  have hptPd : newPt ≠ newPd := hpt.ne (h.keeps.used _ hnewPd)
  rw [← haddr] at hnew
  refine ⟨⟨hgrow.inv.link hr hpd hj (by simp) hp hh hold hnew, ?_, h.keeps.trans hkeep, ?_, ?_⟩, ?_⟩
  · exact (tableAt_link hgrow.inv.forest hr hpd hj (by simp) hp hh hold hnew.not_table hnew.empty
      hr).2 (.inl hpd)
  · intro j' hj'
    rw [Vm.mem_set_self, hmemPd]
    obtain hj' | rfl := Nat.lt_succ_iff_lt_or_eq.1 hj'
    · rw [Function.update_of_ne (by omega)]
      exact (h.entry j' hj').keeps hkeep fun a ha => ha ▸ hnewPd
    · rw [Function.update_self]
      refine ⟨fun hc => (hc he).elim, fun _ => ⟨newPt, frame, rfl, ?_, fun k hk => ?_⟩⟩
      · exact ⟨fun hu' => hpt.not_used (h.keeps.used _ hu'), hclone.keeps.used _ hpt.used⟩
      · rw [Vm.mem_set_ne hptPd]
        have hset : Vm.Keeps (· = newPd) t' (t'.set newPd j' (newPt ||| pteFlags (s.mem srcPd j'))) :=
          (Vm.Keeps.refl (· = newPd) t').set fun _ => rfl
        have hcopied := (hclone.entry k hk).of_keeps (h.keeps.trans (hu.keeps _))
        exact hcopied.keeps hset fun a ha => ha ▸ hnewPd
  · intro j' hj' hlt'
    rw [Vm.mem_set_self, hmemPd, Function.update_of_ne (by omega)]
    exact h.rest j' (by omega) hlt'
  · intro a
    rw [hgrow.inv.owns_link hr hpd hj hp hh hold hnew, haddr, h.inv.owns_ext hr hx]

/-- The frames of a page table that has been linked. -/
theorem PtTaken.linked {u : Vm} {srcPt newPt base : ℕ} {l : List ℕ}
    (h : PtTaken s u t' srcPt newPt base 512 l) (hu : Vm.Takes t u [newPt])
    (howns : ∀ a, Owns t₀.mem r a ↔ Owns t.mem r a ∨ a = newPt ∨ PtOwns t'.mem newPt base 512 a)
    (hp : t₀.pmm = t'.pmm) :
    CloneTaken r t t₀ (.table :: (ptPages s.mem srcPt base 512).map .page) (newPt :: l) where
  takes := (hu.trans h.takes).of_pmm_eq hp
  length := by rw [List.length_cons, List.length_cons, List.length_map, h.length]
  owns a := by
    rw [howns, h.owns, List.zip_cons_cons, List.zip_map_left]
    refine or_congr_right ?_
    simp only [List.mem_cons, List.mem_map, Prod.mk.injEq, Prod.exists, Prod.map_apply, id_eq]
    constructor
    · rintro (rfl | ⟨v, hv, hne⟩)
      · exact ⟨.table, .inl ⟨rfl, rfl⟩, by simp⟩
      · exact ⟨.page v, .inr ⟨v, a, hv, rfl, rfl⟩, by simpa using hne⟩
    · rintro ⟨x, ⟨-, rfl⟩ | ⟨v, a, hv, rfl, rfl⟩, hne⟩
      · exact .inl rfl
      · exact .inr ⟨v, hv, by simpa using hne⟩

/-- A page table that the loop has left unfinished. -/
theorem PtTaken.unlinked {u : Vm} {srcPt newPt base m : ℕ} {l : List ℕ}
    (h : PtTaken s u t' srcPt newPt base m l) (hu : Vm.Takes t u [newPt]) (hm : m < 512)
    (huser : IsUserPte base m (s.mem srcPt m)) (hfree : t'.freeFrames = [])
    (howns : ∀ a, Owns t'.mem r a ↔ Owns t.mem r a) (hloose : ¬Owns t.mem r newPt) :
    CloneFailed r t t' (.table :: (ptPages s.mem srcPt base 512).map .page) := by
  have hpages : ptPages s.mem srcPt base (m + 1) <+: ptPages s.mem srcPt base 512 := by
    refine List.IsPrefix.filterMap _ ?_
    obtain ⟨d, hd⟩ := Nat.exists_eq_add_of_le (Nat.succ_le_of_lt hm)
    exact hd ▸ ⟨_, List.range_add.symm⟩
  rw [ptPages_succ, if_pos huser] at hpages
  have hnext : (CloneAlloc.table :: (ptPages s.mem srcPt base m).map .page) ++ [.page (base + m * 2 ^ 12)] <+:
      .table :: (ptPages s.mem srcPt base 512).map .page := by
    refine List.cons_prefix_cons.2 ⟨rfl, ?_⟩
    simpa using hpages.map CloneAlloc.page
  refine .page (hu.trans h.takes) ?_ hnext hfree (fun a ha => .inl ((howns a).1 ha))
    (List.mem_append_left l (List.mem_singleton.2 rfl)) (mt (howns newPt).1 hloose)
  rw [List.length_cons, List.length_map, List.length_append, h.length]
  exact Nat.add_comm ..

/-- The loop over the entries of a page directory. -/
theorem clonePd_spec (h : FrameInv K excl' roots s) (hsrc : roots src)
    (hpd : tableAt s.mem src [i, 0] = some srcPd) (hx₀ : s.Ext t₀) (hnewPd : t₀.Used newPd)
    (hnot : ¬s.Used newPd) (hr : roots' r) (n : ℕ) :
    ∀ {j : ℕ} {t : Vm}, j + n = 512 → PdCloned K excl roots' s t₀ t r srcPd newPd i j →
      FrameInv K excl roots' (clonePd srcPd newPd (i * 2 ^ 30) n j t).2 ∧
      Vm.Keeps (· = newPd) t₀ (clonePd srcPd newPd (i * 2 ^ 30) n j t).2 ∧
      ((clonePd srcPd newPd (i * 2 ^ 30) n j t).1 = true →
        PdCloned K excl roots' s t₀ (clonePd srcPd newPd (i * 2 ^ 30) n j t).2 r srcPd newPd i
          512 ∧
        ∃ l, CloneTaken r t (clonePd srcPd newPd (i * 2 ^ 30) n j t).2
          (pdAllocs s.mem srcPd (i * 2 ^ 30) j n) l) ∧
      ((clonePd srcPd newPd (i * 2 ^ 30) n j t).1 = false →
        CloneFailed r t (clonePd srcPd newPd (i * 2 ^ 30) n j t).2
          (pdAllocs s.mem srcPd (i * 2 ^ 30) j n)) := by
  induction n with
  | zero =>
    intro j t hj hc
    rw [Nat.add_zero] at hj
    subst hj
    exact ⟨hc.inv, hc.keeps, fun _ => ⟨hc, [], .refl r t⟩, fun hf => (Bool.false_ne_true hf.symm).elim⟩
  | succ n ih =>
    intro j t hj hc
    have hext : s.Ext t := by
      refine ((hx₀.keeps _).trans hc.keeps).ext ?_
      rintro a rfl
      exact hnot
    have hsrcPd := (h.table srcPd (isTable_of_tableAt hsrc hpd)).1
    rw [clonePd]
    dsimp only
    rw [hext.mem_eq hsrcPd]
    rw [pdAllocs_succ]
    by_cases he : Present (s.mem srcPd j) ∧ ¬Huge (s.mem srcPd j)
    swap
    · -- there is no page table at this entry
      rw [if_neg he, if_neg he, List.nil_append]
      exact ih (by omega) (hc.skip (by omega) he)
    rw [if_pos he, if_pos he]
    have h0t := hext.used 0 h.used_zero
    obtain ⟨hfree, heq⟩ | ⟨hne, htakes⟩ := Vm.alloc_takes h0t
    · -- no frame for the page table
      rw [if_pos (by rw [heq]), heq]
      exact ⟨hc.inv, hc.keeps, fun hf => (Bool.false_ne_true hf).elim, fun _ =>
        .table (.refl r t) (List.cons_prefix_cons.2 ⟨rfl, List.nil_prefix⟩) hfree⟩
    rw [if_neg hne]
    have hfresh : t.Fresh t.alloc.2 t.alloc.1 := htakes.fresh (List.mem_singleton.2 rfl)
    have hu : t.Ext (t.alloc.2.setPage t.alloc.1 fun _ => 0) :=
      ((Vm.Keeps.refl _ t).alloc h0t).setPage fun hu => (hfresh.not_used hu).elim
    have hpt : t.Fresh (t.alloc.2.setPage t.alloc.1 fun _ => 0) t.alloc.1 := ⟨hfresh.1, hfresh.2⟩
    have htaken : Vm.Takes t (t.alloc.2.setPage t.alloc.1 fun _ => 0) [t.alloc.1] := htakes.of_pmm_eq rfl
    have hzero : (t.alloc.2.setPage t.alloc.1 fun _ => 0).mem t.alloc.1 = fun _ => 0 :=
      Vm.mem_setPage_self
    generalize t.alloc.2.setPage t.alloc.1 (fun _ => 0) = u at hu hpt htaken hzero ⊢
    generalize t.alloc.1 = newPt at hpt htaken hzero ⊢
    have hsrcPt := tableAt_next hpd (by omega) (by simp) he.1 he.2
    have hframes : ∀ k < 512, IsUserPte (pdBase i j) k (s.mem (pteAddr (s.mem srcPd j)) k) →
        s.Used (pteAddr (s.mem (pteAddr (s.mem srcPd j)) k)) := by
      intro k hk huser
      refine (h.user src [k, j, i, 0] _ hsrc ⟨?_, huser.1, ?_⟩).1
      · rw [leafAt_eq_some]
        exact ⟨k, [j, i, 0], _, rfl, rfl, hk, hsrcPt, rfl⟩
      · rw [vpn_leaf]
        exact huser.2
    -- The loop over its entries starts with an empty table.
    have hstart : PtCloned s u u (pteAddr (s.mem srcPd j)) newPt (pdBase i j) (fun _ => 0) 0 := by
      refine ⟨Vm.Keeps.refl _ _, ?_, ?_, fun k _ => by rw [hzero]⟩
      · exact fun k hk => (Nat.not_lt_zero k hk).elim
      · exact fun k hk => (Nat.not_lt_zero k hk).elim
    have hstart' : PtTaken s u u (pteAddr (s.mem srcPd j)) newPt (pdBase i j) 0 [] :=
      ⟨.refl u, rfl, fun a => by simp [PtOwns]⟩
    obtain ⟨hkeep, hclone, hfail⟩ := clonePt_spec h.used_zero
      (h.table _ (isTable_of_tableAt hsrc hsrcPt)).1 hframes (hext.trans hu) hpt.used
      (fun hs => hpt.not_used (hext.used _ hs)) 512 (Nat.zero_add _) hstart hstart'
    generalize clonePt (pteAddr (s.mem srcPd j)) newPt (pdBase i j) 512 0 u = T at hkeep hclone hfail ⊢
    have hx : t.Ext T.2 := by
      refine ((hu.keeps _).trans hkeep).ext ?_
      rintro a rfl
      exact hpt.not_used
    by_cases hT : T.1 = true
    · -- the table is linked only now, with all its pages
      rw [if_pos hT]
      obtain ⟨frame, l, hclone, htakenPt⟩ := hclone hT
      obtain ⟨hlink, howns⟩ := hc.link hr hnewPd (by omega) he hu hpt hx hclone
      have hone := htakenPt.linked htaken howns rfl
      obtain ⟨hinv, hkeeps, hdone, hstop⟩ := ih (by omega) hlink
      refine ⟨hinv, hkeeps, fun hok => ?_, fun hf => hone.failed (hstop hf)⟩
      obtain ⟨hdone, l', hl'⟩ := hdone hok
      exact ⟨hdone, _, hone.trans hl'⟩
    · -- no frame for one of the pages: the table stays unlinked
      rw [if_neg hT]
      refine ⟨hc.inv.ext hx, hc.keeps.trans (hx.keeps _), fun hf => (hT hf).elim, fun hf => ?_⟩
      obtain ⟨m, hm, l, huser, hfree, htakenPt⟩ := hfail hf
      refine (htakenPt.unlinked htaken hm huser hfree (hc.inv.owns_ext hr hx) fun ho => ?_).mono
        (List.prefix_append ..)
      exact hpt.not_used (hc.inv.owns_used hr ho)

end

/-! ## The address space -/

/-- The directories below `n` of the address space `r`, which had been built in the state `b`, are copied
from the address space `src`. Where the source has no directory, the one of the boot code stays. -/
structure SpaceCloned (K : Kernel) (excl : Prop) (roots : ℕ → Prop) (s b t : Vm) (src : ℕ)
    (pd : ℕ → ℕ) (n : ℕ) : Prop where
  inv : FrameInv K excl roots t
  keeps : Vm.Keeps (fun a => ∃ i < 4, a = pd i) b t
  entry : ∀ i < n, ∀ srcPd, tableAt s.mem src [i, 0] = some srcPd → ∀ j < 512,
    PdEntryCopied s b t i j (s.mem srcPd j) (t.mem (pd i) j)
  rest : ∀ i < 4, n ≤ i ∨ tableAt s.mem src [i, 0] = none → t.mem (pd i) = b.mem (pd i)

section

variable {roots' : ℕ → Prop} {b : Vm} {r src pdpt n : ℕ} {pd : ℕ → ℕ}

namespace SpaceCloned

theorem ext (hb : SpaceBuilt K s b r pdpt pd) (h : SpaceCloned K excl roots' s b t src pd n) :
    s.Ext t := by
  refine ((hb.ext.keeps _).trans h.keeps).ext ?_
  rintro a ⟨i, hi, rfl⟩
  exact (hb.fresh_pd i hi).not_used

theorem mem_root (hb : SpaceBuilt K s b r pdpt pd) (h : SpaceCloned K excl roots' s b t src pd n) :
    t.mem r = b.mem r := by
  refine h.keeps.mem r hb.fresh_root.used ?_
  rintro ⟨i, hi, heq⟩
  exact hb.pd_ne_root i hi heq.symm

theorem mem_pdpt (hb : SpaceBuilt K s b r pdpt pd) (h : SpaceCloned K excl roots' s b t src pd n) :
    t.mem pdpt = b.mem pdpt := by
  refine h.keeps.mem pdpt hb.fresh_pdpt.used ?_
  rintro ⟨i, hi, heq⟩
  exact hb.pd_ne_pdpt i hi heq.symm

/-- The directories of the copy stay where they are. -/
theorem tableAt_pd (hb : SpaceBuilt K s b r pdpt pd)
    (h : SpaceCloned K excl roots' s b t src pd n) {i : ℕ} (hi : i < 4) :
    tableAt t.mem r [i, 0] = some (pd i) := by
  obtain ⟨hp, hh, haddr⟩ := SpaceBuilt.link_entry hb.fresh_pdpt
  rw [← hb.mem_root_zero, ← h.mem_root hb] at hp hh haddr
  have hpdpt := tableAt_next (q := []) (r := r) rfl (by decide) (by decide) hp hh
  obtain ⟨hp', hh', haddr'⟩ := SpaceBuilt.link_entry (hb.fresh_pd i hi)
  rw [← hb.mem_pdpt_lt hi, ← h.mem_pdpt hb] at hp' hh' haddr'
  rw [haddr] at hpdpt
  rw [tableAt_next hpdpt (by omega) (by decide) hp' hh', haddr']

/-- One more directory. -/
theorem next {srcPd i : ℕ} (hb : SpaceBuilt K s b r pdpt pd)
    (h : SpaceCloned K excl roots' s b t src pd i) (hi : i < 4)
    (hpd : tableAt s.mem src [i, 0] = some srcPd)
    (hc : PdCloned K excl roots' s t t' r srcPd (pd i) i 512) :
    SpaceCloned K excl roots' s b t' src pd (i + 1) := by
  have hused : ∀ i' < 4, t.Used (pd i') := fun i' hi' => h.keeps.used _ (hb.fresh_pd i' hi').used
  have hother : ∀ i' < 4, i' ≠ i → t'.mem (pd i') = t.mem (pd i') := by
    intro i' hi' hne
    exact hc.keeps.mem _ (hused i' hi') fun heq => hne (hb.inj i' hi' i hi heq)
  refine ⟨hc.inv, h.keeps.trans (hc.keeps.mono fun a _ ha => ⟨i, hi, ha⟩), ?_, ?_⟩
  · intro i' hi' srcPd' hpd' j hj
    obtain hi' | rfl := Nat.lt_succ_iff_lt_or_eq.1 hi'
    · rw [hother i' (by omega) (by omega)]
      refine (h.entry i' hi' srcPd' hpd' j hj).keeps hc.keeps ?_
      rintro a rfl
      exact (hb.fresh_pd i hi).used
    · obtain rfl := Option.some.inj (hpd.symm.trans hpd')
      exact (hc.entry j hj).of_keeps h.keeps
  · intro i' hi'4 hi'
    have hne : i' ≠ i := by
      rintro rfl
      rw [hpd] at hi'
      exact hi'.elim (Nat.not_succ_le_self i') fun hc => absurd hc (Option.some_ne_none _)
    rw [hother i' hi'4 hne]
    exact h.rest i' hi'4 (hi'.imp_left Nat.le_of_succ_le)

end SpaceCloned

/-- The loop over the directories. -/
theorem clonePdpt_spec {srcPdpt : ℕ} (h : FrameInv K excl' roots s) (hsrc : roots src)
    (hpdpt : tableAt s.mem src [0] = some srcPdpt) (hb : SpaceBuilt K s b r pdpt pd)
    (hr : roots' r) (n : ℕ) :
    ∀ {i : ℕ} {t : Vm}, i + n = 4 → SpaceCloned K excl roots' s b t src pd i →
      FrameInv K excl roots' (clonePdpt srcPdpt pdpt n i t).2 ∧
      Vm.Keeps (fun a => ∃ i < 4, a = pd i) b (clonePdpt srcPdpt pdpt n i t).2 ∧
      ((clonePdpt srcPdpt pdpt n i t).1 = true →
        SpaceCloned K excl roots' s b (clonePdpt srcPdpt pdpt n i t).2 src pd 4 ∧
        ∃ l, CloneTaken r t (clonePdpt srcPdpt pdpt n i t).2 (pdptAllocs s.mem srcPdpt i n) l) ∧
      ((clonePdpt srcPdpt pdpt n i t).1 = false →
        CloneFailed r t (clonePdpt srcPdpt pdpt n i t).2 (pdptAllocs s.mem srcPdpt i n)) := by
  induction n with
  | zero =>
    intro i t hi hc
    rw [Nat.add_zero] at hi
    subst hi
    exact ⟨hc.inv, hc.keeps, fun _ => ⟨hc, [], .refl r t⟩, fun hf => (Bool.false_ne_true hf.symm).elim⟩
  | succ n ih =>
    intro i t hi hc
    have hi4 : i < 4 := by omega
    have hsrcPdpt := (h.table srcPdpt (isTable_of_tableAt hsrc hpdpt)).1
    rw [clonePdpt]
    dsimp only
    rw [(hc.ext hb).mem_eq hsrcPdpt, pdptAllocs_succ]
    by_cases hp : Present (s.mem srcPdpt i)
    · -- In a PDPT no entry is huge, so the entry leads to a directory.
      have hh := h.not_huge hsrc hpdpt (by omega) (by decide) hp
      have hsrcPd := tableAt_next hpdpt (by omega) (by decide) hp hh
      have hnewPd : pteAddr (t.mem pdpt i) = pd i := by
        rw [hc.mem_pdpt hb, hb.mem_pdpt_lt hi4, (SpaceBuilt.link_entry (hb.fresh_pd i hi4)).2.2]
      have hstart : PdCloned K excl roots' s t t r (pteAddr (s.mem srcPdpt i)) (pd i) i 0 := by
        refine ⟨hc.inv, hc.tableAt_pd hb hi4, Vm.Keeps.refl _ t, ?_, ?_⟩
        · exact fun j hj => (Nat.not_lt_zero j hj).elim
        · intro j _ _
          rw [hc.rest i hi4 (.inl (Nat.le_refl i)), hb.mem_pd_huge hi4]
      obtain ⟨hinv, hkeeps, hclone, hfail⟩ := clonePd_spec h hsrc hsrcPd (hc.ext hb)
        (hc.keeps.used _ (hb.fresh_pd i hi4).used) (hb.fresh_pd i hi4).not_used hr 512
        (Nat.zero_add _) hstart
      rw [if_pos hp, if_pos hp, hnewPd]
      generalize clonePd (pteAddr (s.mem srcPdpt i)) (pd i) (i * 2 ^ 30) 512 0 t = T
        at hinv hkeeps hclone hfail ⊢
      by_cases hT : T.1 = true
      · rw [if_pos hT]
        obtain ⟨hclone, l, hone⟩ := hclone hT
        obtain ⟨hinv', hkeeps', hdone, hstop⟩ := ih (by omega) (hc.next hb hi4 hsrcPd hclone)
        refine ⟨hinv', hkeeps', fun hok => ?_, fun hf => hone.failed (hstop hf)⟩
        obtain ⟨hdone, l', hl'⟩ := hdone hok
        exact ⟨hdone, _, hone.trans hl'⟩
      · rw [if_neg hT]
        refine ⟨hinv, hc.keeps.trans (hkeeps.mono fun a _ ha => ⟨i, hi4, ha⟩), fun hf => (hT hf).elim,
          fun hf => (hfail hf).mono (List.prefix_append ..)⟩
    · rw [if_neg hp, if_neg hp, List.nil_append]
      refine ih (by omega) ⟨hc.inv, hc.keeps, ?_, fun i' hi'4 hi' =>
        hc.rest i' hi'4 (hi'.imp_left Nat.le_of_succ_le)⟩
      intro i' hi' srcPd hpd j hj
      obtain hi' | rfl := Nat.lt_succ_iff_lt_or_eq.1 hi'
      · exact hc.entry i' hi' srcPd hpd j hj
      · -- the source has no such directory
        rw [tableAt_cons, hpdpt, Option.bind_some, tableChild_eq_some] at hpd
        exact (hp hpd.1.2.2.1).elim

/-- `vmm_clone_address_space` fails and leaves the address spaces as they are, or returns a copy. -/
theorem vmmCloneAddressSpace_spec (h : FrameInv K excl roots s) (hsrc : roots src) :
    ((vmmCloneAddressSpace K.boot s src).1 = 0 ∧
        (excl → FrameInv K excl roots (vmmCloneAddressSpace K.boot s src).2) ∧
        ∀ a, s.Used a → (vmmCloneAddressSpace K.boot s src).2.mem a = s.mem a) ∨
      ∃ b pdpt pd, SpaceBuilt K s b (vmmCloneAddressSpace K.boot s src).1 pdpt pd ∧
        SpaceCloned K excl (fun x => roots x ∨ x = (vmmCloneAddressSpace K.boot s src).1) s b
          (vmmCloneAddressSpace K.boot s src).2 src pd 4 := by
  rw [vmmCloneAddressSpace]
  dsimp only
  obtain ⟨hext, hres⟩ := vmmCreateAddressSpace_spec h
  generalize vmmCreateAddressSpace K.boot s = R at hext hres ⊢
  by_cases hz : R.1 = 0
  · rw [if_pos hz]
    exact .inl ⟨rfl, fun _ => h.ext hext, fun a ha => hext.mem_eq ha⟩
  rw [if_neg hz]
  obtain ⟨pdpt, pd, hb⟩ := hres.resolve_left hz
  have hinv := hb.frameInv h
  have hsrcUsed := (h.table src (isTable_of_tableAt (q := []) hsrc rfl)).1
  rw [hext.mem_eq hsrcUsed]
  by_cases hp : Present (s.mem src 0)
  swap
  · rw [if_pos hp]
    refine .inr ⟨R.2, pdpt, pd, hb, hinv, Vm.Keeps.refl _ _, ?_, fun _ _ _ => rfl⟩
    intro i _ srcPd hpd
    -- the source maps nothing
    obtain ⟨pdpt', hpdpt', -⟩ := walk_cons_eq_some.1 hpd
    obtain ⟨_, ⟨⟩, hc⟩ := walk_cons_eq_some.1 hpdpt'
    exact (hp (tableChild_eq_some.1 hc).1.2.2.1).elim
  rw [if_neg (not_not.2 hp)]
  have hpdpt := tableAt_next (q := []) (r := src) rfl (by decide) (by decide) hp
    (h.not_huge (q := []) hsrc rfl (by decide) (by decide) hp)
  have hnewPdpt : pteAddr (R.2.mem R.1 0) = pdpt := by
    rw [hb.mem_root_zero, (SpaceBuilt.link_entry hb.fresh_pdpt).2.2]
  have hstart : SpaceCloned K excl (fun x => roots x ∨ x = R.1) s R.2 R.2 src pd 0 := by
    refine ⟨hinv, Vm.Keeps.refl _ _, ?_, fun _ _ _ => rfl⟩
    exact fun i hi => (Nat.not_lt_zero i hi).elim
  have hr : (fun x => roots x ∨ x = R.1) R.1 := .inr rfl
  obtain ⟨hinvT, hkeepsT, hclone, -⟩ := clonePdpt_spec h hsrc hpdpt hb hr 4 (Nat.zero_add _) hstart
  rw [hnewPdpt]
  generalize clonePdpt (pteAddr (s.mem src 0)) pdpt 4 0 R.2 = T at hinvT hkeepsT hclone ⊢
  have hextT : s.Ext T.2 := by
    refine ((hb.ext.keeps _).trans hkeepsT).ext ?_
    rintro a ⟨i, hi, rfl⟩
    exact (hb.fresh_pd i hi).not_used
  by_cases hT : T.1 = true
  · rw [if_pos hT]
    exact .inr ⟨R.2, pdpt, pd, hb, (hclone hT).1⟩
  · rw [if_neg hT]
    refine .inl ⟨rfl, fun hx => ?_, fun a ha => ?_⟩
    · obtain rfl : excl = True := eq_true hx
      refine (vmmDestroyAddressSpace_spec hinvT (.inr rfl)).mono fun x hx => ⟨.inl hx, ?_⟩
      rintro rfl
      exact hb.fresh_root.not_used (h.table _ (isTable_of_tableAt (q := []) hx rfl)).1
    · rw [(vmmDestroyAddressSpace_releases hinvT (.inr rfl)).mem, hextT.mem_eq ha]

end

end

end PlantOS.Mm
