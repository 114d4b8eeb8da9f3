import PlantOS.Mm.VmmSpaces

/-!
# Translation

What the processor makes of the page tables. Under `FrameInv` a translation is the identity, or it comes
from a user entry.
-/

namespace PlantOS.Mm

open NodeForest

/-- The entries on the way to a table. -/
theorem tableAt_cons_eq_some {mem : ℕ → ℕ → ℕ} {r i a : ℕ} {q : List ℕ}
    (h : tableAt mem r (i :: q) = some a) :
    ∃ t, tableAt mem r q = some t ∧ i < 512 ∧ Present (mem t i) ∧ ¬Huge (mem t i) ∧
      pteAddr (mem t i) = a := by
  obtain ⟨t, ht, hc⟩ := walk_cons_eq_some.1 h
  obtain ⟨⟨hi, -, hp, hh⟩, ha⟩ := tableChild_eq_some.1 hc
  exact ⟨t, ht, hi, hp, hh, ha⟩

/-- The walk through the tables ends in the entry of the page. -/
theorem mmuTranslate_of_leafAt {mem : ℕ → ℕ → ℕ} {r va e : ℕ}
    (hleaf : leafAt mem r (pagePath va) = some e) (hp : Present e) :
    ∃ u, mmuTranslate mem r va = some ⟨pteAddr e + va % 4096, u⟩ := by
  obtain ⟨k, q, pt, hpath, -, -, hpt, rfl⟩ := leafAt_eq_some.1 hleaf
  obtain ⟨rfl, rfl⟩ := List.cons.inj hpath
  obtain ⟨pd, hpd, -, hp2, hh2, rfl⟩ := tableAt_cons_eq_some hpt
  obtain ⟨pdpt, hpdpt, -, hp3, hh3, rfl⟩ := tableAt_cons_eq_some hpd
  obtain ⟨pml4, hpml4, -, hp4, -, rfl⟩ := tableAt_cons_eq_some hpdpt
  obtain rfl := Option.some.inj hpml4
  rw [mmuTranslate]
  rw [if_neg (not_or.2 ⟨not_not.2 hp4, not_not.2 hp3⟩), if_neg hh3, if_neg (not_not.2 hp2), if_neg hh2,
    if_neg (not_not.2 hp)]
  exact ⟨_, rfl⟩

/-- A translation leads to the address itself or to the frame of a user entry. -/
theorem FrameInv.mmuTranslate_cases {K : Kernel} {excl : Prop} {roots : ℕ → Prop} {s : Vm} {r va : ℕ}
    {tr : Translation} (h : FrameInv K excl roots s) (hr : roots r)
    (htr : mmuTranslate s.mem r va = some tr) :
    tr.phys = va % 2 ^ 48 ∨
      ∃ e, UserEntry s.mem r (pagePath va) e ∧ pteAddr tr.phys = pteAddr e := by
  have hi : ∀ n, n % 512 < 512 := fun n => Nat.mod_lt n (by decide)
  rw [mmuTranslate] at htr
  split at htr
  · exact absurd htr (by simp)
  rename_i hp
  rw [not_or, not_not, not_not] at hp
  obtain ⟨hp4, hp3⟩ := hp
  -- The walk goes through tables as long as entries are present and not huge.
  have h4 := tableAt_next (q := []) (r := r) rfl (hi _) (by decide) hp4
    (h.not_huge (q := []) hr rfl (hi _) (by decide) hp4)
  generalize pteAddr (s.mem r (va / 2 ^ 39 % 512)) = pdpt at h4 hp3 htr
  have hh3 := h.not_huge hr h4 (hi _) (by simp) hp3
  rw [if_neg hh3] at htr
  have h3 := tableAt_next h4 (hi _) (by simp) hp3 hh3
  generalize pteAddr (s.mem pdpt (va / 2 ^ 30 % 512)) = pd at h3 htr
  split at htr
  · exact absurd htr (by simp)
  rename_i hp2
  rw [not_not] at hp2
  split at htr
  · -- huge pages are identity pages
    rename_i hh2
    obtain rfl := Option.some.inj htr
    have he := (h.huge r _ pd _ hr h3 (hi _) (by simp) hp2 hh2).2
    simp only [vpn] at he
    left
    dsimp only
    omega
  rename_i hh2
  have h2 := tableAt_next h3 (hi _) (by simp) hp2 hh2
  generalize pteAddr (s.mem pd (va / 2 ^ 21 % 512)) = pt at h2 htr
  split at htr
  · exact absurd htr (by simp)
  rename_i hp1
  rw [not_not] at hp1
  obtain rfl := Option.some.inj htr
  have hal := pteAddr_aligned (s.mem pt (va / 2 ^ 12 % 512))
  -- An entry of a page table is an identity entry or that of a user page.
  by_cases hid : pteAddr (s.mem pt (va / 2 ^ 12 % 512)) = vpn (pagePath va) * 4096
  · left
    rw [vpn_pagePath] at hid
    dsimp only
    omega
  · right
    refine ⟨s.mem pt (va / 2 ^ 12 % 512), ⟨?_, hp1, hid⟩, ?_⟩
    · rw [leafAt_eq_some]
      exact ⟨_, _, pt, rfl, rfl, hi _, h2, rfl⟩
    · generalize pteAddr (s.mem pt (va / 2 ^ 12 % 512)) = f at hal ⊢
      dsimp only [pteAddr]
      omega

end PlantOS.Mm
