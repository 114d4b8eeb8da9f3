import PlantOS.Mm.VmmClone
import PlantOS.Mm.VmmOnePage
import PlantOS.Mm.VmmTranslate

/-!
# The kernel under the page table of a process

During a system call or a page fault the page table of the process stays in CR3, and the kernel uses frames
by their physical addresses: it clears a new page, and it reads and writes page tables, through the identity
map. A user page takes the place of the identity page at its address. If that address is the one of a frame
that the kernel uses, the kernel reaches the user's frame there and not its own. Nothing in the code rules
this out: the heap of a process can grow over the addresses of the frames that the allocator gives out.

`DirectInv` is the page-table invariant together with the absence of such pages. Under it the kernel reaches
every frame that it uses, with the page table of any process (`DirectInv.kernelReaches`), which is what the
functions of `Vmm` take for granted. The lemmas of this module say how it survives the operations; new user
entries come only from `vmm_map_page_in`, at the page that it is asked for, and from
`vmm_clone_address_space`, at the pages of the source.
-/

namespace PlantOS.Mm

open NodeForest

/-- The address of the page of `virt`. The processor does not look at the bits from 48 on. -/
def pageOf (virt : ℕ) : ℕ := virt / 4096 % 2 ^ 36 * 4096

/-- The frames that the kernel uses by their addresses: those that the allocator manages, the boot page
tables, and `P`, which stands for the bitmap, the kernel stacks and whatever else of the kernel's own memory
is in use. -/
def Direct (K : Kernel) (total : ℕ) (P : ℕ → Prop) (a : ℕ) : Prop :=
  (a % 4096 = 0 ∧ a / 4096 < total ∧ ¬K.Page a) ∨ (∃ k < 6, a = K.boot + k * 4096) ∨ P a

/-- With any of the page tables `roots` in CR3, the addresses of the frames `D` lead to these frames. -/
def KernelReaches (D roots : ℕ → Prop) (mem : ℕ → ℕ → ℕ) : Prop :=
  ∀ r v a, roots r → v < 2 ^ 48 → D (v / 4096 * 4096) → physAddr mem r v = some a → a = v

/-- The page-table invariant, and no user page is at the address of a frame in `D`. -/
structure DirectInv (K : Kernel) (excl : Prop) (D roots : ℕ → Prop) (s : Vm) : Prop
    extends FrameInv K excl roots s where
  clear : ∀ r p e, roots r → UserEntry s.mem r p e → ¬D (vpn p * 4096)

section

variable {K : Kernel} {excl : Prop} {D roots roots' : ℕ → Prop} {s s' : Vm} {r : ℕ}

theorem vpn_pagePath_mul (virt : ℕ) : vpn (pagePath virt) * 4096 = pageOf virt := by
  rw [vpn_pagePath]
  rfl

/-- A frame that the kernel uses is reached at its address, as the page there can only be an identity
page. -/
theorem DirectInv.kernelReaches (h : DirectInv K excl D roots s) : KernelReaches D roots s.mem := by
  intro r v a hr hv hD ha
  obtain ⟨tr, htr, rfl⟩ := Option.map_eq_some_iff.1 ha
  obtain hid | ⟨e, he, -⟩ := h.mmuTranslate_cases hr htr
  · rw [hid, Nat.mod_eq_of_lt hv]
  · have hclear := h.clear r _ e hr he
    rw [vpn_pagePath_mul, pageOf, Nat.mod_eq_of_lt (by omega)] at hclear
    exact absurd hD hclear

/-! ## What keeps the invariant -/

/-- The user pages of `s'` are where `s` has some, or where the kernel uses no frame. -/
theorem DirectInv.of_userEntry (h : DirectInv K excl D roots s) (h' : FrameInv K excl roots' s')
    (huser : ∀ r p e, roots' r → UserEntry s'.mem r p e →
      (∃ r' e', roots r' ∧ UserEntry s.mem r' p e') ∨ ¬D (vpn p * 4096)) :
    DirectInv K excl D roots' s' where
  toFrameInv := h'
  clear r p e hr he := by
    obtain ⟨r', e', hr', he'⟩ | hD := huser r p e hr he
    · exact h.clear r' p e' hr' he'
    · exact hD

/-- A smaller set of live address spaces. -/
theorem DirectInv.mono (h : DirectInv K excl D roots s) (hsub : ∀ r, roots' r → roots r) :
    DirectInv K excl D roots' s :=
  h.of_userEntry (h.toFrameInv.mono hsub) fun r _ e hr he => .inl ⟨r, e, hsub r hr, he⟩

/-- The weaker invariant, in which user entries may share frames. -/
theorem DirectInv.shared (h : DirectInv K True D roots s) : DirectInv K False D roots s where
  toFrameInv := { h.toFrameInv with unique := fun hf => hf.elim }
  clear := h.clear

/-- A state with the same page tables. -/
theorem DirectInv.congr (h : DirectInv K excl D roots s) (h' : FrameInv K excl roots s')
    (hmem : ∀ a, IsTable s.mem roots a → s'.mem a = s.mem a) : DirectInv K excl D roots s' :=
  h.of_userEntry h' fun r _ e hr he => .inl ⟨r, e, hr, (userEntry_congr h.forest hmem hr).1 he⟩

/-- Allocating frames and writing to them. -/
theorem DirectInv.ext (h : DirectInv K excl D roots s) (hx : s.Ext s') : DirectInv K excl D roots s' :=
  h.congr (h.toFrameInv.ext hx) fun a ha => hx.mem_eq (h.table a ha).1

/-- `vmm_map_page_in` for a page that hides no frame of the kernel's. -/
theorem DirectInv.mapPage {virt phys flags : ℕ} (h : DirectInv K excl D roots s) (hr : roots r)
    (hf : Loose K excl roots s (pteAddr phys)) (hflags : flags < 4096) (hD : ¬D (pageOf virt)) :
    DirectInv K excl D roots (vmmMapPageIn s r virt phys flags) := by
  have hmap := vmmMapPageIn_spec h.toFrameInv hr virt hf hflags
  refine h.of_userEntry hmap.inv fun r' p e hr' he => ?_
  obtain he | ⟨rfl, -⟩ := hmap.user r' p e hr' he
  · exact .inl ⟨r', e, hr', he⟩
  · rw [vpn_pagePath_mul]
    exact .inr hD

/-- The page of `SYS_MUNMAP`. -/
theorem DirectInv.unmap {va : ℕ} (h : DirectInv K True D roots s) (hr : roots r) (hal : va % 4096 = 0)
    (hlt : va < 2 ^ 48) (hz : vmmGetPhysicalIn s r va ≠ 0) (hne : vmmGetPhysicalIn s r va ≠ va) :
    DirectInv K True D roots (vmmUnmapPage (s.free (vmmGetPhysicalIn s r va)) r va) := by
  obtain ⟨pt, hpt, -, -, hunmap⟩ := vmmGetPhysicalIn_user h.toFrameInv hr hal hlt hz hne
  refine h.of_userEntry (h.toFrameInv.unmap hr hal hlt hz hne) ?_
  rw [vmmUnmapPage_free, hunmap]
  rintro r' p e hr' ⟨hleaf, hp, haddr⟩
  obtain ⟨hleaf, -⟩ | ⟨-, -, rfl⟩ :=
    (leafAt_setLeaf h.forest hr hpt rfl (Nat.mod_lt _ (by decide)) hr').1 hleaf
  · exact .inl ⟨r', e, hr', hleaf, hp, haddr⟩
  · exact absurd hp (by decide)

/-- The remaining address spaces after one has been destroyed. -/
theorem DirectInv.destroy (h : DirectInv K True D roots s) (hr : roots r) :
    DirectInv K True D (fun x => roots x ∧ x ≠ r) (vmmDestroyAddressSpace K.boot s r) := by
  refine h.of_userEntry (vmmDestroyAddressSpace_spec h.toFrameInv hr) ?_
  rw [(vmmDestroyAddressSpace_releases h.toFrameInv hr).mem]
  exact fun r' _ e hr' he => .inl ⟨r', e, hr'.1, he⟩

/-- An address space joins in new frames, with user pages only where there were some. -/
theorem DirectInv.join (h : DirectInv K excl D roots s) (h' : FrameInv K excl (fun x => roots x ∨ x = r) s')
    (hx : s.Ext s')
    (huser : ∀ p e, UserEntry s'.mem r p e → ∃ r' e', roots r' ∧ UserEntry s.mem r' p e') :
    DirectInv K excl D (fun x => roots x ∨ x = r) s' := by
  refine h.of_userEntry h' ?_
  rintro r' p e (hr' | rfl) he
  · have hmem : ∀ a, IsTable s.mem roots a → s'.mem a = s.mem a := fun a ha => hx.mem_eq (h.table a ha).1
    exact .inl ⟨r', e, hr', (userEntry_congr h.forest hmem hr').1 he⟩
  · exact .inl (huser p e he)

/-- A new address space has no user pages. -/
theorem SpaceBuilt.directInv {pdpt : ℕ} {pd : ℕ → ℕ} (hb : SpaceBuilt K s s' r pdpt pd)
    (h : DirectInv K excl D roots s) : DirectInv K excl D (fun x => roots x ∨ x = r) s' := by
  refine h.join (hb.frameInv h.toFrameInv) hb.ext fun p e he => ?_
  have hleaf := he.1
  rw [hb.leafAt_eq_none] at hleaf
  cases hleaf

end

/-! ## Copies -/

namespace SpaceCloned

variable {K : Kernel} {excl : Prop} {D roots roots' : ℕ → Prop} {s b t : Vm} {r src pdpt : ℕ} {pd : ℕ → ℕ}

/-- The page tables of a copy are below its four directories. -/
theorem tableAt_pt (hb : SpaceBuilt K s b r pdpt pd) (h : SpaceCloned K excl roots' s b t src pd 4)
    {q : List ℕ} (hq : q.length = 3) {pt : ℕ} (hpt : tableAt t.mem r q = some pt) :
    ∃ j < 512, ∃ i < 4, q = [j, i, 0] ∧ ¬Huge (t.mem (pd i) j) ∧ pteAddr (t.mem (pd i) j) = pt := by
  obtain ⟨j, i, l, rfl⟩ := List.length_eq_three.1 hq
  obtain ⟨x, hx, hj, hp, hh, rfl⟩ := tableAt_cons_eq_some hpt
  obtain ⟨y, hy, -, hpx, -, rfl⟩ := tableAt_cons_eq_some hx
  obtain ⟨z, hz, -, hpy, -, rfl⟩ := tableAt_cons_eq_some hy
  obtain rfl := Option.some.inj hz
  obtain rfl : l = 0 := by
    by_contra hl
    rw [h.mem_root hb, hb.mem_root_ne hl] at hpy
    exact absurd hpy (by decide)
  rw [h.mem_root hb, hb.mem_root_zero, (SpaceBuilt.link_entry hb.fresh_pdpt).2.2] at hpx hh ⊢
  have hi : i < 4 := by
    by_contra hi
    rw [h.mem_pdpt hb, hb.mem_pdpt_ge hi] at hpx
    exact absurd hpx (by decide)
  rw [h.mem_pdpt hb, hb.mem_pdpt_lt hi, (SpaceBuilt.link_entry (hb.fresh_pd i hi)).2.2] at hh ⊢
  exact ⟨j, hj, i, hi, rfl, hh, rfl⟩

/-- A copy has user pages only where the source has some. -/
theorem exists_userEntry (hb : SpaceBuilt K s b r pdpt pd) (h : SpaceCloned K excl roots' s b t src pd 4)
    {p : List ℕ} {e : ℕ} (he : UserEntry t.mem r p e) : ∃ e', UserEntry s.mem src p e' := by
  obtain ⟨hleaf, hp, haddr⟩ := he
  obtain ⟨k, q, pt, rfl, hq, hk, hpt, rfl⟩ := leafAt_eq_some.1 hleaf
  obtain ⟨j, hj, i, hi, rfl, hh, rfl⟩ := h.tableAt_pt hb hq hpt
  have hhuge : ¬t.mem (pd i) j = (i * 512 + j) * 0x200000 + 0x87 := by
    intro heq
    rw [heq, Huge] at hh
    omega
  cases hpd : tableAt s.mem src [i, 0] with
  | none => exact absurd ((congrFun (h.rest i hi (.inr hpd)) j).trans (hb.mem_pd_huge hi j)) hhuge
  | some srcPd =>
    -- the page table is a copy, and a copied entry is a user entry only if its source is one
    have hcopied := h.entry i hi srcPd hpd j hj
    have htab : Present (s.mem srcPd j) ∧ ¬Huge (s.mem srcPd j) := by
      by_contra hc
      exact hhuge (hcopied.boot hc)
    obtain ⟨newPt, frame, hentry, hfresh, hcopy⟩ := hcopied.table htab
    rw [hentry, pteAddr_or hfresh.aligned (pteFlags_lt _)] at hp haddr
    have hp' : Present (s.mem (pteAddr (s.mem srcPd j)) k) := by
      by_contra hc
      rw [(hcopy k hk).absent hc] at hp
      exact absurd hp (by decide)
    refine ⟨s.mem (pteAddr (s.mem srcPd j)) k, ?_, hp', fun hid => haddr ?_⟩
    · rw [leafAt_eq_some]
      exact ⟨k, _, _, rfl, rfl, hk, tableAt_next hpd hj (by simp) htab.1 htab.2, rfl⟩
    · rw [(hcopy k hk).identity hp' (hid.trans (vpn_leaf i j k)), hid]

/-- The copy of an address space. -/
theorem directInv (hb : SpaceBuilt K s b r pdpt pd)
    (hc : SpaceCloned K excl (fun x => roots x ∨ x = r) s b t src pd 4)
    (h : DirectInv K excl D roots s) (hsrc : roots src) :
    DirectInv K excl D (fun x => roots x ∨ x = r) t := by
  refine h.join hc.inv (hc.ext hb) fun p e he => ?_
  obtain ⟨e', he'⟩ := hc.exists_userEntry hb he
  exact ⟨src, e', hsrc, he'⟩

end SpaceCloned

end PlantOS.Mm
