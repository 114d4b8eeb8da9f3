import PlantOS.Common.Run
import PlantOS.Mm.VmmMemory

/-!
# Mapping one page affects one page

`physAddr` is the physical address of a virtual one. Under `Walkable`, which asks of the tables no more than
that they are a forest in allocated frames, it is read off from the page table of the address, or from its
directory if the address lies in a huge page (`Walkable.physAddr_of_pt`, `Walkable.physAddr_of_pd`).

Shape of the proof: the two kinds of writes of `vmm_map_page_in` are followed through these equations. Linking
a new table changes no address, because the table is empty or maps the huge page it replaces
(`Walkable.link`); writing an entry of a page table changes the addresses of one page (`Walkable.setLeaf`).
-/

namespace PlantOS.Mm

open NodeForest

/-- The physical address of `virt`, if it is mapped. -/
def physAddr (mem : ℕ → ℕ → ℕ) (pml4 virt : ℕ) : Option ℕ :=
  (mmuTranslate mem pml4 virt).map Translation.phys

theorem or_mod_eq_add (e v k : ℕ) : e / 2 ^ k * 2 ^ k ||| v % 2 ^ k = e / 2 ^ k * 2 ^ k + v % 2 ^ k := by
  rw [Nat.mul_comm, ← Nat.two_pow_add_eq_or_of_lt (Nat.mod_lt _ (Nat.two_pow_pos k))]

/-- `vmm_get_physical_in` gives the physical address, and 0 for an address that is not mapped. -/
theorem vmmGetPhysicalIn_eq (s : Vm) (pml4 virt : ℕ) :
    vmmGetPhysicalIn s pml4 virt = (physAddr s.mem pml4 virt).getD 0 := by
  rw [vmmGetPhysicalIn, physAddr, mmuTranslate]
  generalize s.mem pml4 (virt / 2 ^ 39 % 512) = e4
  generalize s.mem (pteAddr e4) (virt / 2 ^ 30 % 512) = e3
  generalize s.mem (pteAddr e3) (virt / 2 ^ 21 % 512) = e2
  generalize s.mem (pteAddr e2) (virt / 2 ^ 12 % 512) = e1
  by_cases h4 : ¬Present e4
  · rw [if_pos h4, if_pos (.inl h4)]
    rfl
  by_cases h3 : ¬Present e3
  · rw [if_neg h4, if_pos h3, if_pos (.inr h3)]
    rfl
  rw [if_neg h4, if_neg h3, if_neg (not_or.2 ⟨h4, h3⟩)]
  by_cases hh3 : Huge e3
  · rw [if_pos hh3, if_pos hh3]
    exact or_mod_eq_add e3 virt 30
  rw [if_neg hh3, if_neg hh3]
  by_cases h2 : ¬Present e2
  · rw [if_pos h2, if_pos h2]
    rfl
  rw [if_neg h2, if_neg h2]
  by_cases hh2 : Huge e2
  · rw [if_pos hh2, if_pos hh2]
    exact or_mod_eq_add e2 virt 21
  rw [if_neg hh2, if_neg hh2]
  by_cases h1 : ¬Present e1
  · rw [if_pos h1, if_pos h1]
    rfl
  · rw [if_neg h1, if_neg h1]
    exact or_mod_eq_add e1 virt 12

/-! ## The walk -/

/-- The address that a page-table entry gives. -/
def ptPhys (e virt : ℕ) : Option ℕ := if Present e then some (pteAddr e + virt % 4096) else none

/-- The address that a directory entry without a table gives. -/
def pdPhys (e virt : ℕ) : Option ℕ :=
  if Present e ∧ Huge e then some (e / 2 ^ 21 * 2 ^ 21 + virt % 2 ^ 21) else none

/-- The tables below the PML4s `roots` are a forest in allocated frames, and there are huge pages in the
directories only. -/
structure Walkable (roots : ℕ → Prop) (s : Vm) : Prop where
  forest : Forest (tableChild s.mem) roots
  used : ∀ a, IsTable s.mem roots a → s.Used a
  not_huge : ∀ r q t i, roots r → tableAt s.mem r q = some t → i < 512 → q.length < 2 →
    Present (s.mem t i) → ¬Huge (s.mem t i)
  used_zero : s.Used 0
  ne_zero : ∀ a, IsTable s.mem roots a → a ≠ 0

/-- What the walks need of the invariant. -/
theorem FrameInv.walkable {K : Kernel} {excl : Prop} {roots : ℕ → Prop} {s : Vm}
    (h : FrameInv K excl roots s) : Walkable roots s where
  forest := h.forest
  used a ha := (h.table a ha).1
  not_huge _ _ _ _ hr ht hi hq hp := h.not_huge hr ht hi hq hp
  used_zero := h.used_zero
  ne_zero a ha hz := (h.table a ha).2 (hz ▸ K.page_zero)

/-- No address has another translation. -/
def SamePhys (roots : ℕ → Prop) (s s' : Vm) : Prop :=
  ∀ r v, roots r → physAddr s'.mem r v = physAddr s.mem r v

section

variable {roots : ℕ → Prop} {s s' : Vm} {r : ℕ}

namespace Walkable

/-- The entry of a table that leads to no table. -/
theorem not_present_or_huge {q : List ℕ} {t i : ℕ} (ht : tableAt s.mem r q = some t) (hi : i < 512)
    (hq : q.length < 3) (hnone : tableAt s.mem r (i :: q) = none) :
    ¬(Present (s.mem t i) ∧ ¬Huge (s.mem t i)) := by
  rintro ⟨hp, hh⟩
  rw [tableAt_next ht hi hq hp hh] at hnone
  cases hnone

variable (h : Walkable roots s) (hr : roots r)
include h hr

/-- The walk down to the directory of an address. -/
theorem physAddr_eq (v : ℕ) :
    physAddr s.mem r v =
      (tableAt s.mem r (pagePath v).tail.tail).bind fun pd =>
        if Present (s.mem pd (v / 2 ^ 21 % 512)) ∧ ¬Huge (s.mem pd (v / 2 ^ 21 % 512)) then
          ptPhys (s.mem (pteAddr (s.mem pd (v / 2 ^ 21 % 512))) (v / 2 ^ 12 % 512)) v
        else pdPhys (s.mem pd (v / 2 ^ 21 % 512)) v := by
  have hi : ∀ n, n % 512 < 512 := fun n => Nat.mod_lt n (by decide)
  have hpath : (pagePath v).tail.tail = [v / 2 ^ 30 % 512, v / 2 ^ 39 % 512] := rfl
  rw [hpath, physAddr, mmuTranslate]
  by_cases hp4 : Present (s.mem r (v / 2 ^ 39 % 512))
  swap
  · have hnone : tableAt s.mem r [v / 2 ^ 39 % 512] = none := if_neg fun hc => hp4 hc.2.2.1
    rw [tableAt_cons, hnone, if_pos (.inl hp4)]
    rfl
  have h4 := tableAt_next (q := []) (r := r) rfl (hi _) (by decide) hp4
    (h.not_huge r [] r _ hr rfl (hi _) (by decide) hp4)
  generalize pteAddr (s.mem r (v / 2 ^ 39 % 512)) = pdpt at h4 ⊢
  by_cases hp3 : Present (s.mem pdpt (v / 2 ^ 30 % 512))
  swap
  · have hnone : tableChild s.mem [v / 2 ^ 39 % 512] pdpt (v / 2 ^ 30 % 512) = none :=
      if_neg fun hc => hp3 hc.2.2.1
    rw [tableAt_cons, h4, Option.bind_some, hnone, if_pos (.inr hp3)]
    rfl
  have hh3 := h.not_huge r _ pdpt _ hr h4 (hi _) (by simp) hp3
  rw [tableAt_next h4 (hi _) (by simp) hp3 hh3, Option.bind_some]
  generalize pteAddr (s.mem pdpt (v / 2 ^ 30 % 512)) = pd
  -- Both sides now depend on the entry of the directory only.
  rw [if_neg (not_or.2 ⟨not_not.2 hp4, not_not.2 hp3⟩), if_neg hh3, ptPhys, pdPhys]
  generalize s.mem pd (v / 2 ^ 21 % 512) = e2
  generalize s.mem (pteAddr e2) (v / 2 ^ 12 % 512) = e1
  by_cases hp2 : Present e2
  swap
  · rw [if_pos hp2, if_neg fun hc => hp2 hc.1, if_neg fun hc => hp2 hc.1]
    rfl
  rw [if_neg (not_not.2 hp2)]
  by_cases hh2 : Huge e2
  · rw [if_pos hh2, if_neg fun hc => hc.2 hh2, if_pos ⟨hp2, hh2⟩]
    rfl
  have htab : Present e2 ∧ ¬Huge e2 := ⟨hp2, hh2⟩
  rw [if_neg hh2, if_pos htab]
  by_cases hp1 : Present e1
  · rw [if_neg (not_not.2 hp1), if_pos hp1]
    rfl
  · rw [if_pos hp1, if_neg hp1]
    rfl

/-- An address that has a page table. -/
theorem physAddr_of_pt {v pt : ℕ} (hpt : tableAt s.mem r (pagePath v).tail = some pt) :
    physAddr s.mem r v = ptPhys (s.mem pt (v / 2 ^ 12 % 512)) v := by
  obtain ⟨pd, hpd, hc⟩ := walk_cons_eq_some.1 hpt
  obtain ⟨⟨-, -, hp, hh⟩, rfl⟩ := tableChild_eq_some.1 hc
  have hpd' : tableAt s.mem r (pagePath v).tail.tail = some pd := hpd
  rw [h.physAddr_eq hr, hpd', Option.bind_some, if_pos ⟨hp, hh⟩]

/-- An address that has a directory but no page table. -/
theorem physAddr_of_pd {v pd : ℕ} (hpd : tableAt s.mem r (pagePath v).tail.tail = some pd)
    (hpt : tableAt s.mem r (pagePath v).tail = none) :
    physAddr s.mem r v = pdPhys (s.mem pd (v / 2 ^ 21 % 512)) v := by
  rw [h.physAddr_eq hr, hpd, Option.bind_some]
  exact if_neg (not_present_or_huge hpd (Nat.mod_lt _ (by decide)) (by simp [pagePath]) hpt)

/-- An address without a directory. -/
theorem physAddr_of_none {v : ℕ} (hpd : tableAt s.mem r (pagePath v).tail.tail = none) :
    physAddr s.mem r v = none := by
  rw [h.physAddr_eq hr, hpd, Option.bind_none]

end Walkable

/-! ## What the writes change -/

/-- Changes outside of the allocated frames. -/
theorem Walkable.ext (h : Walkable roots s) (hx : s.Ext s') : Walkable roots s' ∧ SamePhys roots s s' := by
  have hmem : ∀ a, IsTable s.mem roots a → s'.mem a = s.mem a := fun a ha => hx.mem_eq (h.used a ha)
  obtain ⟨hforest, hwalk⟩ := tableAt_congr h.forest hmem
  have h' : Walkable roots s' := by
    refine ⟨hforest, fun a ha => ?_, fun r q t i hr ht => ?_, hx.used 0 h.used_zero, fun a ha => ?_⟩
    · rw [isTable_congr h.forest hmem] at ha
      exact hx.used a (h.used a ha)
    · rw [hwalk r q hr] at ht
      rw [hmem t (isTable_of_tableAt hr ht)]
      exact h.not_huge r q t i hr ht
    · rw [isTable_congr h.forest hmem] at ha
      exact h.ne_zero a ha
  refine ⟨h', fun r v hr => ?_⟩
  cases hpt : tableAt s.mem r (pagePath v).tail with
  | some pt =>
    rw [h.physAddr_of_pt hr hpt, h'.physAddr_of_pt hr ((hwalk r _ hr).trans hpt),
      hmem pt (isTable_of_tableAt hr hpt)]
  | none =>
    cases hpd : tableAt s.mem r (pagePath v).tail.tail with
    | some pd =>
      rw [h.physAddr_of_pd hr hpd hpt,
        h'.physAddr_of_pd hr ((hwalk r _ hr).trans hpd) ((hwalk r _ hr).trans hpt),
        hmem pd (isTable_of_tableAt hr hpd)]
    | none => rw [h.physAddr_of_none hr hpd, h'.physAddr_of_none hr ((hwalk r _ hr).trans hpd)]

/-- Linking a new table that is empty, or that maps what its directory entry has mapped. -/
theorem Walkable.link {q : List ℕ} {t i e : ℕ} (h : Walkable roots s) (hr : roots r)
    (ht : tableAt s.mem r q = some t) (hi : i < 512) (hq : q.length < 3) (hpres : Present e)
    (hhuge : ¬Huge e) (hold : tableChild s.mem q t i = none) (hused : s.Used (pteAddr e))
    (hz : pteAddr e ≠ 0) (hnot : ¬IsTable s.mem roots (pteAddr e))
    (hempty : (i :: q).length < 3 → ∀ j, ¬Present (s.mem (pteAddr e) j))
    (hsplit : ∀ v, (pagePath v).tail = i :: q →
      ptPhys (s.mem (pteAddr e) (v / 2 ^ 12 % 512)) v = pdPhys (s.mem t i) v) :
    Walkable roots (s.set t i e) ∧ SamePhys roots s (s.set t i e) ∧
      tableAt (s.set t i e).mem r (i :: q) = some (pteAddr e) := by
  have hlink := fun {r' p a} (hr' : roots r') => tableAt_link h.forest hr ht hi hq hpres hhuge hold hnot
    hempty hr' (p := p) (a := a)
  have hne : pteAddr e ≠ t := fun heq => hnot (heq ▸ isTable_of_tableAt hr ht)
  have hnew : ∀ j, (s.set t i e).mem (pteAddr e) j = s.mem (pteAddr e) j := fun j =>
    mem_set_apply fun heq => (hne heq).elim
  have htab : ∀ a, IsTable (s.set t i e).mem roots a → IsTable s.mem roots a ∨ a = pteAddr e := by
    rintro a ⟨r', p, hr', hp⟩
    obtain hp | ⟨-, -, rfl⟩ := (hlink hr').1 hp
    · exact .inl ⟨r', p, hr', hp⟩
    · exact .inr rfl
  have h' : Walkable roots (s.set t i e) := by
    refine ⟨?_, ?_, ?_, h.used_zero, ?_⟩
    · intro r₁ r₂ p₁ p₂ a hr₁ hr₂ h₁ h₂
      obtain h₁ | ⟨rfl, rfl, rfl⟩ := (hlink hr₁).1 h₁
      · obtain h₂ | ⟨rfl, rfl, rfl⟩ := (hlink hr₂).1 h₂
        · exact h.forest hr₁ hr₂ h₁ h₂
        · exact (hnot ⟨r₁, p₁, hr₁, h₁⟩).elim
      · obtain h₂ | ⟨rfl, rfl, -⟩ := (hlink hr₂).1 h₂
        · exact (hnot ⟨r₂, p₂, hr₂, h₂⟩).elim
        · exact ⟨rfl, rfl⟩
    · intro a ha
      obtain ha | rfl := htab a ha
      · exact h.used a ha
      · exact hused
    · intro r' q' a j hr' ha hj hq' hp
      obtain ha | ⟨rfl, rfl, rfl⟩ := (hlink hr').1 ha
      · by_cases hat : a = t → j ≠ i
        · rw [mem_set_apply hat] at hp ⊢
          exact h.not_huge r' q' a j hr' ha hj hq' hp
        · push Not at hat
          obtain ⟨rfl, rfl⟩ := hat
          rwa [mem_set_entry]
      · rw [hnew] at hp
        exact (hempty (by rw [List.length_cons] at hq' ⊢; omega) j hp).elim
    · intro a ha
      obtain ha | rfl := htab a ha
      · exact h.ne_zero a ha
      · exact hz
  refine ⟨h', fun r' v hr' => ?_, (hlink hr).2 (.inr ⟨rfl, rfl, rfl⟩)⟩
  cases hpt : tableAt s.mem r' (pagePath v).tail with
  | some pt =>
    -- the written table is not a page table
    have hsame : pt = t → v / 2 ^ 12 % 512 ≠ i := by
      rintro rfl
      obtain ⟨-, rfl⟩ := h.forest hr' hr hpt ht
      simp [pagePath] at hq
    rw [h.physAddr_of_pt hr' hpt, h'.physAddr_of_pt hr' ((hlink hr').2 (.inl hpt)), mem_set_apply hsame]
  | none =>
    by_cases hthis : r' = r ∧ (pagePath v).tail = i :: q
    · obtain ⟨rfl, hpath⟩ := hthis
      have hpd : tableAt s.mem r' (pagePath v).tail.tail = some t := by rw [hpath, List.tail_cons, ht]
      have hidx : v / 2 ^ 21 % 512 = i := (List.cons.inj hpath).1
      have hpt' : tableAt (s.set t i e).mem r' (pagePath v).tail = some (pteAddr e) :=
        (hlink hr').2 (.inr ⟨rfl, hpath, rfl⟩)
      rw [h.physAddr_of_pd hr' hpd hpt, h'.physAddr_of_pt hr' hpt', hnew, hidx]
      exact hsplit v hpath
    · have hpt' : tableAt (s.set t i e).mem r' (pagePath v).tail = none := by
        rw [Option.eq_none_iff_forall_ne_some]
        intro a ha
        obtain ha | ⟨hrr, hpath, -⟩ := (hlink hr').1 ha
        · rw [hpt] at ha
          cases ha
        · exact hthis ⟨hrr, hpath⟩
      cases hpd : tableAt s.mem r' (pagePath v).tail.tail with
      | some pd =>
        have hsame : pd = t → v / 2 ^ 21 % 512 ≠ i := by
          rintro rfl rfl
          obtain ⟨rfl, rfl⟩ := h.forest hr' hr hpd ht
          exact hthis ⟨rfl, rfl⟩
        rw [h.physAddr_of_pd hr' hpd hpt, h'.physAddr_of_pd hr' ((hlink hr').2 (.inl hpd)) hpt',
          mem_set_apply hsame]
      | none =>
        rw [h.physAddr_of_none hr' hpd]
        cases hpd' : tableAt (s.set t i e).mem r' (pagePath v).tail.tail with
        | none => exact h'.physAddr_of_none hr' hpd'
        | some pd =>
          obtain hpd' | ⟨rfl, hpath, rfl⟩ := (hlink hr').1 hpd'
          · rw [hpd] at hpd'
            cases hpd'
          · -- the new directory is empty
            rw [h'.physAddr_of_pd hr' hpd' hpt', hnew, pdPhys, if_neg]
            have hlen : (i :: q).length = 2 := by rw [← hpath]; rfl
            exact fun hp => hempty (by omega) _ hp.1

/-- Writing an entry of a page table. -/
theorem Walkable.setLeaf {q : List ℕ} {pt k e : ℕ} (h : Walkable roots s) (hr : roots r)
    (hpt : tableAt s.mem r q = some pt) (hq : q.length = 3) :
    Walkable roots (s.set pt k e) ∧
      ∀ r' v, roots r' → physAddr (s.set pt k e).mem r' v =
        if r' = r ∧ pagePath v = k :: q then ptPhys e v else physAddr s.mem r' v := by
  obtain ⟨hforest, hwalk⟩ := tableAt_setLeaf (k := k) (e := e) h.forest hr hpt hq
  -- an entry of a table above the page tables is not the one written
  have hupper : ∀ {r' q' a j}, roots r' → tableAt s.mem r' q' = some a → q'.length < 3 → a = pt → j ≠ k := by
    rintro r' q' a j hr' ha hlen rfl
    obtain ⟨-, rfl⟩ := h.forest hr' hr ha hpt
    omega
  have h' : Walkable roots (s.set pt k e) := by
    refine ⟨hforest, ?_, ?_, h.used_zero, ?_⟩
    · rintro a ⟨r', p, hr', hp⟩
      exact h.used a ⟨r', p, hr', (hwalk r' p hr').symm.trans hp⟩
    · intro r' q' a j hr' ha hj hq' hp
      rw [hwalk r' q' hr'] at ha
      rw [mem_set_apply (hupper hr' ha (by omega))] at hp ⊢
      exact h.not_huge r' q' a j hr' ha hj hq' hp
    · rintro a ⟨r', p, hr', hp⟩
      exact h.ne_zero a ⟨r', p, hr', (hwalk r' p hr').symm.trans hp⟩
  refine ⟨h', fun r' v hr' => ?_⟩
  have hwv := fun p => hwalk r' p hr'
  cases hpt' : tableAt s.mem r' (pagePath v).tail with
  | some a =>
    rw [h'.physAddr_of_pt hr' ((hwv _).trans hpt'), h.physAddr_of_pt hr' hpt']
    by_cases hthis : r' = r ∧ pagePath v = k :: q
    · obtain ⟨rfl, hpath⟩ := hthis
      have hidx : v / 2 ^ 12 % 512 = k := (List.cons.inj hpath).1
      have hapt : a = pt := by
        rw [hpath, List.tail_cons, hpt] at hpt'
        exact (Option.some.inj hpt').symm
      rw [if_pos ⟨rfl, hpath⟩, hapt, hidx, mem_set_entry]
    · rw [if_neg hthis, mem_set_apply]
      rintro rfl hidx
      obtain ⟨rfl, hpath⟩ := h.forest hr' hr hpt' hpt
      exact hthis ⟨rfl, by rw [← hidx, ← hpath]; rfl⟩
  | none =>
    have hthis : ¬(r' = r ∧ pagePath v = k :: q) := by
      rintro ⟨rfl, hpath⟩
      rw [hpath, List.tail_cons, hpt] at hpt'
      cases hpt'
    rw [if_neg hthis]
    cases hpd : tableAt s.mem r' (pagePath v).tail.tail with
    | some pd =>
      rw [h'.physAddr_of_pd hr' ((hwv _).trans hpd) ((hwv _).trans hpt'), h.physAddr_of_pd hr' hpd hpt',
        mem_set_apply (hupper hr' hpd (by simp [pagePath]))]
    | none => rw [h'.physAddr_of_none hr' ((hwv _).trans hpd), h.physAddr_of_none hr' hpd]

/-! ## `get_or_create_table` -/

/-- The entries of the table that replaces a huge page. -/
theorem ptPhys_split {e v : ℕ} (hp : Present e) (hh : Huge e) :
    ptPhys ((e / 0x200000 * 0x200000 + v / 2 ^ 12 % 512 * 4096) ||| e % 32) v = pdPhys e v := by
  have hlt : e % 32 < 4096 := by omega
  have hal : (e / 0x200000 * 0x200000 + v / 2 ^ 12 % 512 * 4096) % 4096 = 0 := by omega
  have hpres : Present (e % 32) := by
    rw [Present] at hp ⊢
    omega
  rw [ptPhys, pdPhys, if_pos ((present_or hal hlt).2 hpres), if_pos ⟨hp, hh⟩, pteAddr_or hal hlt,
    Option.some.injEq]
  omega

/-- `get_or_create_table` fails, or returns the table at the index; in both cases no address changes. -/
theorem Walkable.getOrCreateTable {q : List ℕ} {t i flags : ℕ} (h : Walkable roots s) (hr : roots r)
    (ht : tableAt s.mem r q = some t) (hi : i < 512) (hq : q.length < 3) (hlt : flags < 4096)
    (hpres : Present flags) (hhuge : ¬Huge flags) :
    Walkable roots (getOrCreateTable s t i flags).2 ∧ SamePhys roots s (getOrCreateTable s t i flags).2 ∧
      ((getOrCreateTable s t i flags).1 = 0 ∨
        tableAt (getOrCreateTable s t i flags).2.mem r (i :: q) = some (getOrCreateTable s t i flags).1) := by
  have hout := getOrCreateTable_outcome h.used_zero t i hlt
  generalize Mm.getOrCreateTable s t i flags = R at hout ⊢
  cases hout with
  | found hp hh =>
    refine ⟨h, fun _ _ _ => rfl, .inr ?_⟩
    rw [tableAt_cons, ht, Option.bind_some, tableChild_eq_some]
    exact ⟨⟨hi, hq, hp, hh⟩, rfl⟩
  | full _ hmem hgains =>
    obtain ⟨h₁, hsame⟩ := h.ext (hgains.ext hmem)
    exact ⟨h₁, hsame, .inl rfl⟩
  | @made u g w hmem hgains _ hw =>
    have hg := hgains.fresh (Finset.mem_singleton_self g)
    have haddr : pteAddr (g ||| flags) = g := pteAddr_or hg.aligned hlt
    have hx : s.Ext (u.setPage g w) := (hgains.ext hmem).setPage fun hu => (hg.not_used hu).elim
    obtain ⟨h₁, hsame⟩ := h.ext hx
    have hwalk := (tableAt_congr h.forest fun a ha => hx.mem_eq (h.used a ha)).2
    have hmemt : (u.setPage g w).mem t = s.mem t := hx.mem_eq (h.used t (isTable_of_tableAt hr ht))
    have hnot : ¬IsTable (u.setPage g w).mem roots g := by
      rw [isTable_congr h.forest fun a ha => hx.mem_eq (h.used a ha)]
      exact fun hta => hg.not_used (h.used g hta)
    have hold : tableChild s.mem q t i = none := by
      rw [tableChild, if_neg]
      rintro ⟨-, -, hp, hh⟩
      exact hw.elim (fun hw => hw.1 hp) fun hw => hh hw.2.1
    -- the new table has no page, or the pages of the huge page
    have hnew : ((i :: q).length < 3 → ∀ j, ¬Present (w j)) ∧
        ∀ v, (pagePath v).tail = i :: q → ptPhys (w (v / 2 ^ 12 % 512)) v = pdPhys (s.mem t i) v := by
      obtain ⟨hp, rfl⟩ | ⟨hp, hh, rfl⟩ := hw
      · have habsent : ¬Present 0 := by decide
        refine ⟨fun _ _ => habsent, fun v _ => ?_⟩
        rw [ptPhys, pdPhys, if_neg habsent, if_neg fun hc => hp hc.1]
      · have hlen : q.length = 2 := by
          by_contra hne
          exact h.not_huge r q t i hr ht hi (by omega) hp hh
        exact ⟨by simp [hlen], fun v _ => ptPhys_split hp hh⟩
    obtain ⟨h₂, hsame', htab⟩ := h₁.link hr ((hwalk r q hr).trans ht) hi hq
      ((present_or hg.aligned hlt).2 hpres) (mt (huge_or hg.aligned hlt).1 hhuge)
      (by rw [tableChild, hmemt, ← tableChild, hold]) (by rw [haddr]; exact hg.used)
      (by rw [haddr]; exact hg.ne h.used_zero) (by rwa [haddr])
      (by rw [haddr, Vm.mem_setPage_self]; exact hnew.1)
      (by rw [haddr, Vm.mem_setPage_self, hmemt]; exact hnew.2)
    exact ⟨h₂, fun r' v hr' => (hsame' r' v hr').trans (hsame r' v hr'), .inr (by rw [htab, haddr])⟩

/-! ## `vmm_map_page_in` -/

/-- Two addresses have the same path if they are in the same page, up to the bits from 48 on. -/
theorem pagePath_eq_iff {v w : ℕ} : pagePath v = pagePath w ↔ v / 4096 % 2 ^ 36 = w / 4096 % 2 ^ 36 := by
  constructor
  · intro h
    have := congrArg vpn h
    rw [vpn_pagePath, vpn_pagePath] at this
    exact this
  · intro h
    simp only [pagePath, List.cons.injEq, and_true]
    omega

/-- The addresses of a page are mapped or not together. -/
theorem physAddr_eq_none_congr {mem : ℕ → ℕ → ℕ} {v w : ℕ} (h : pagePath v = pagePath w) :
    physAddr mem r v = none ↔ physAddr mem r w = none := by
  simp only [pagePath, List.cons.injEq, and_true] at h
  obtain ⟨h1, h2, h3, h4⟩ := h
  rw [physAddr, physAddr, Option.map_eq_none_iff, Option.map_eq_none_iff, mmuTranslate, mmuTranslate, h1, h2,
    h3, h4]
  split_ifs <;> simp

/-- The address of a byte is that of its page and the offset. -/
theorem physAddr_page (mem : ℕ → ℕ → ℕ) (r v : ℕ) :
    physAddr mem r v = (physAddr mem r (v / 4096 * 4096)).map (· + v % 4096) := by
  have hpath : pagePath (v / 4096 * 4096) = pagePath v := pagePath_eq_iff.2 (by omega)
  simp only [pagePath, List.cons.injEq, and_true] at hpath
  obtain ⟨h1, h2, h3, h4⟩ := hpath
  -- the offset in a page is part of the offset in a huge page
  have h30 : v % 2 ^ 30 = v / 4096 * 4096 % 2 ^ 30 + v % 4096 := by omega
  have h21 : v % 2 ^ 21 = v / 4096 * 4096 % 2 ^ 21 + v % 4096 := by omega
  have h12 : v / 4096 * 4096 % 4096 = 0 := Nat.mul_mod_left _ _
  rw [physAddr, physAddr, mmuTranslate, mmuTranslate, h1, h2, h3, h4]
  split_ifs <;> simp only [Option.map_none, Option.map_some]
  · rw [h30, Nat.add_assoc]
  · rw [h21, Nat.add_assoc]
  · rw [h12, Nat.add_zero]

/-- The page of `virt` under the PML4 `r` is mapped by the entry `e`, and no other address has changed. -/
def MapsOne (roots : ℕ → Prop) (s s' : Vm) (r virt e : ℕ) : Prop :=
  ∀ r' v, roots r' → physAddr s'.mem r' v =
    if r' = r ∧ pagePath v = pagePath virt then ptPhys e v else physAddr s.mem r' v

theorem Walkable.pageTableFor (h : Walkable roots s) (hr : roots r) (virt flags : ℕ) :
    Walkable roots (pageTableFor s r virt flags).2 ∧ SamePhys roots s (pageTableFor s r virt flags).2 ∧
      ((pageTableFor s r virt flags).1 = 0 ∨
        tableAt (pageTableFor s r virt flags).2.mem r (pagePath virt).tail =
          some (pageTableFor s r virt flags).1) := by
  exact pageTableFor_walk (I := Walkable roots) (R := SamePhys roots)
    (fun h₁ h₂ r' v hr' => (h₂ r' v hr').trans (h₁ r' v hr'))
    (fun hu ht hi hq hlt hp hh => hu.getOrCreateTable hr ht hi hq hlt hp hh) h virt flags

/-- `vmm_map_page_in` maps the page, or gives up without an effect on any address. -/
theorem Walkable.vmmMapPageIn (h : Walkable roots s) (hr : roots r) (virt phys flags : ℕ) :
    Walkable roots (vmmMapPageIn s r virt phys flags) ∧
      if (Mm.pageTableFor s r virt flags).1 = 0 then
        SamePhys roots s (vmmMapPageIn s r virt phys flags)
      else
        MapsOne roots s (vmmMapPageIn s r virt phys flags) r virt (pteAddr phys ||| flags) := by
  obtain ⟨h₁, hsame, hres⟩ := h.pageTableFor hr virt flags
  rw [vmmMapPageIn_eq]
  generalize Mm.pageTableFor s r virt flags = pt at h₁ hsame hres ⊢
  by_cases hz : pt.1 = 0
  · rw [if_pos hz, if_pos hz]
    exact ⟨h₁, hsame⟩
  · rw [if_neg hz, if_neg hz]
    obtain ⟨h₂, hleaf⟩ := h₁.setLeaf (k := virt / 2 ^ 12 % 512) (e := pteAddr phys ||| flags) hr
      (hres.resolve_left hz) rfl
    refine ⟨h₂, fun r' v hr' => (hleaf r' v hr').trans ?_⟩
    rw [hsame r' v hr']
    rfl

end

/-! ## Runs -/

/-- What happens to an address space: a page is mapped, or somebody allocates a frame and fills it. -/
inductive MapOp
  | map (virt phys flags : ℕ)
  | alloc (words : ℕ → ℕ)

/-- One such step for the address space `root`. -/
def mapStep (root : ℕ) (s : Vm) : MapOp → Vm
  | .map virt phys flags => vmmMapPageIn s root virt phys flags
  | .alloc words => if s.alloc.1 = 0 then s.alloc.2 else s.alloc.2.setPage s.alloc.1 words

/-- Step: mapping and unmapping keep the page tables in order. -/
theorem Walkable.mapStep {roots : ℕ → Prop} {s : Vm} {root : ℕ} (h : Walkable roots s) (hr : roots root)
    (op : MapOp) : Walkable roots (mapStep root s op) := by
  cases op with
  | map virt phys flags => exact (h.vmmMapPageIn hr virt phys flags).1
  | alloc words =>
    obtain heq | ⟨hne, hfresh, hext⟩ := Vm.alloc_cases h.used_zero
    · rw [Mm.mapStep, if_pos (by rw [heq]), heq]
      exact h
    · rw [Mm.mapStep, if_neg hne]
      exact (h.ext (hext.setPage fun hu => (hfresh.not_used hu).elim)).1

/-- In every address space made by `vmm_create_address_space` and `vmm_map_page_in`, a call of
`vmm_map_page_in` maps the whole page and changes no other address, or it changes no address at all. -/
theorem vmm_map_one_page (K : Kernel) (s₀ : Vm) (hboot : Booted K s₀) (ops : List MapOp)
    (hroot : (vmmCreateAddressSpace K.boot s₀).1 ≠ 0) (virt phys flags : ℕ) (hvirt : virt < 2 ^ 48)
    (hphys : phys % 4096 = 0) (hflags : flags < 4096) (hpres : Present flags) :
    let root := (vmmCreateAddressSpace K.boot s₀).1
    let s := Run.run (mapStep root) (vmmCreateAddressSpace K.boot s₀).2 ops
    let s' := vmmMapPageIn s root virt phys flags
    ((∀ v < 2 ^ 48, v / 4096 = virt / 4096 → vmmGetPhysicalIn s' root v = phys + v % 4096) ∧
      ∀ v < 2 ^ 48, v / 4096 ≠ virt / 4096 → vmmGetPhysicalIn s' root v = vmmGetPhysicalIn s root v) ∨
    ∀ v, vmmGetPhysicalIn s' root v = vmmGetPhysicalIn s root v := by
  intro root s s'
  obtain ⟨-, hspace⟩ := vmmCreateAddressSpace_spec (hboot.frameInv True)
  obtain ⟨pdpt, pd, hbuilt⟩ := hspace.resolve_left hroot
  have hinit : Walkable (fun x => False ∨ x = root) (vmmCreateAddressSpace K.boot s₀).2 :=
    (hbuilt.frameInv (hboot.frameInv True)).walkable
  have hs : Walkable (fun x => False ∨ x = root) s :=
    Run.run_invariant (fun t op ht => ht.mapStep (.inr rfl) op) hinit ops
  have hpte : pteAddr phys = phys := by
    rw [pteAddr]
    omega
  simp only [vmmGetPhysicalIn_eq]
  obtain ⟨-, heffect⟩ := hs.vmmMapPageIn (.inr rfl) virt phys flags
  split at heffect
  · exact .inr fun v => by rw [heffect root v (.inr rfl)]
  · refine .inl ⟨fun v hv hpage => ?_, fun v hv hpage => ?_⟩
    · have hpath : pagePath v = pagePath virt := pagePath_eq_iff.2 (by rw [hpage])
      rw [heffect root v (.inr rfl), if_pos ⟨rfl, hpath⟩, hpte, ptPhys,
        if_pos ((present_or hphys hflags).2 hpres), pteAddr_or hphys hflags, Option.getD_some]
    · have hpath : pagePath v ≠ pagePath virt := fun hpath => hpage (by
        have := pagePath_eq_iff.1 hpath
        omega)
      rw [heffect root v (.inr rfl), if_neg fun hc => hpath hc.2]

/-- The first address space of the example machine, with one page of the huge page at 4 MB mapped before. -/
theorem vmm_map_one_page_demo :
    let root := (vmmCreateAddressSpace demoKernel.boot demoVm).1
    let s := Run.run (mapStep root) (vmmCreateAddressSpace demoKernel.boot demoVm).2
      [.alloc fun _ => 0, .map 0x400000 0x200000 7]
    let s' := vmmMapPageIn s root 0x401000 0x800000 7
    ((∀ v < 2 ^ 48, v / 4096 = 0x401000 / 4096 → vmmGetPhysicalIn s' root v = 0x800000 + v % 4096) ∧
      ∀ v < 2 ^ 48, v / 4096 ≠ 0x401000 / 4096 →
        vmmGetPhysicalIn s' root v = vmmGetPhysicalIn s root v) ∨
    ∀ v, vmmGetPhysicalIn s' root v = vmmGetPhysicalIn s root v :=
  vmm_map_one_page demoKernel demoVm booted_demo _ (by rw [created_demo.1]; decide) 0x401000 0x800000 7
    (by decide) (by decide) (by decide) (by decide)

end PlantOS.Mm
