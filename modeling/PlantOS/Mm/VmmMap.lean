import PlantOS.Mm.VmmFreeFrames
import PlantOS.Mm.VmmInvariant

/-!
# Mapping pages

What `get_or_create_table`, `vmm_map_page_in`, `vmm_unmap_page` and `vmm_get_physical_in` do to the page
tables. `TablesGrow` is the effect of the table-building code: it adds tables and splits huge pages, and
no user entry and no other frame changes.
-/

namespace PlantOS.Mm

/-- `s'` has the tables of `s` and possibly more, with the same user entries; frames that are no tables
are unchanged. -/
structure TablesGrow (K : Kernel) (excl : Prop) (roots : ℕ → Prop) (s s' : Vm) : Prop where
  inv : FrameInv K excl roots s'
  used : ∀ a, s.Used a → s'.Used a
  data : ∀ a, s.Used a → ¬IsTable s.mem roots a → ¬IsTable s'.mem roots a ∧ s'.mem a = s.mem a
  table : ∀ r p a, roots r → tableAt s.mem r p = some a → tableAt s'.mem r p = some a
  leaf : ∀ r p e, roots r → leafAt s.mem r p = some e → leafAt s'.mem r p = some e
  user : ∀ r p e, roots r → UserEntry s'.mem r p e → UserEntry s.mem r p e
  entry : ∀ r q a i, roots r → tableAt s.mem r q = some a → tableChild s.mem q a i ≠ none →
    s'.mem a i = s.mem a i
  present : ∀ r q a i, roots r → tableAt s.mem r q = some a → q.length < 3 →
    Present (s.mem a i) → Present (s'.mem a i)

section

variable {K : Kernel} {excl : Prop} {roots : ℕ → Prop} {s u s' s'' : Vm} {r : ℕ}

theorem TablesGrow.refl (h : FrameInv K excl roots s) : TablesGrow K excl roots s s where
  inv := h
  used _ ha := ha
  data _ _ ht := ⟨ht, rfl⟩
  table _ _ _ _ h := h
  leaf _ _ _ _ h := h
  user _ _ _ _ h := h
  entry _ _ _ _ _ _ _ := rfl
  present _ _ _ _ _ _ _ h := h

theorem TablesGrow.trans (h : TablesGrow K excl roots s s') (h' : TablesGrow K excl roots s' s'') :
    TablesGrow K excl roots s s'' where
  inv := h'.inv
  used a ha := h'.used a (h.used a ha)
  data a ha ht := by
    obtain ⟨ht', hmem⟩ := h.data a ha ht
    obtain ⟨ht'', hmem'⟩ := h'.data a (h.used a ha) ht'
    exact ⟨ht'', hmem'.trans hmem⟩
  table r p a hr ha := h'.table r p a hr (h.table r p a hr ha)
  leaf r p e hr he := h'.leaf r p e hr (h.leaf r p e hr he)
  user r p e hr he := h.user r p e hr (h'.user r p e hr he)
  entry r q a i hr ha hc := by
    have hmem := h.entry r q a i hr ha hc
    have hc' : tableChild s'.mem q a i ≠ none := by rwa [tableChild, hmem, ← tableChild]
    exact (h'.entry r q a i hr (h.table r q a hr ha) hc').trans hmem
  present r q a i hr ha hq hp :=
    h'.present r q a i hr (h.table r q a hr ha) hq (h.present r q a i hr ha hq hp)

/-- Allocating frames and writing to them. -/
theorem TablesGrow.of_ext (h : FrameInv K excl roots s) (hx : s.Ext s') :
    TablesGrow K excl roots s s' := by
  have hmem : ∀ a, IsTable s.mem roots a → s'.mem a = s.mem a :=
    fun a ha => hx.mem_eq (h.table a ha).1
  refine ⟨h.ext hx, hx.used, ?_, ?_, ?_, ?_, ?_, ?_⟩
  · intro a ha ht
    rw [isTable_congr h.forest hmem]
    exact ⟨ht, hx.mem_eq ha⟩
  · intro r p a hr ha
    rwa [(tableAt_congr h.forest hmem).2 r p hr]
  · intro r p e hr he
    rwa [leafAt_congr h.forest hmem hr]
  · intro r p e hr he
    rwa [userEntry_congr h.forest hmem hr] at he
  · intro r q a i hr ha _
    rw [hmem a (isTable_of_tableAt hr ha)]
  · intro r q a i hr ha _ hp
    rwa [hmem a (isTable_of_tableAt hr ha)]

/-- A frame allocated since `s` is in no use. -/
theorem FrameInv.not_isTable_of_fresh (h : FrameInv K excl roots s) {g : ℕ} (hg : s.Fresh s' g) :
    ¬IsTable s.mem roots g :=
  fun ht => hg.not_used (h.table g ht).1

/-- A frame that was free is not mapped by a user entry, -/
theorem FrameInv.not_isUserFrame_of_fresh (h : FrameInv K excl roots s) {g : ℕ}
    (hg : s.Fresh s' g) : ¬IsUserFrame s.mem roots g := by
  rintro ⟨r, p, e, hr, he, rfl⟩
  exact hg.not_used (h.user r p e hr he).1

/-- and it is none of the kernel's. -/
theorem FrameInv.not_kernel_of_fresh (h : FrameInv K excl roots s) {g : ℕ} (hg : s.Fresh s' g) :
    ¬K.Page g :=
  fun hk => hg.not_used (h.kernel g hk)

/-- Linking a table that has been allocated since `s` and has no user entries. -/
theorem TablesGrow.link {q : List ℕ} {t i e : ℕ} (h : FrameInv K excl roots s) (hr : roots r)
    (ht : tableAt s.mem r q = some t) (hi : i < 512) (hq : q.length < 3) (hpres : Present e)
    (hhuge : ¬Huge e) (hold : tableChild s.mem q t i = none) (hx : s.Ext u)
    (hg : s.Fresh u (pteAddr e)) (hempty : (i :: q).length < 3 → ∀ j, ¬Present (u.mem (pteAddr e) j))
    (hid : ∀ k < 512, Present (u.mem (pteAddr e) k) →
      pteAddr (u.mem (pteAddr e) k) = vpn (k :: i :: q) * 4096) :
    TablesGrow K excl roots s (u.set t i e) ∧
      tableAt (u.set t i e).mem r (i :: q) = some (pteAddr e) := by
  have hgrow := TablesGrow.of_ext h hx
  have hmem : ∀ a, IsTable s.mem roots a → u.mem a = s.mem a :=
    fun a ha => hx.mem_eq (h.table a ha).1
  have ht₁ := hgrow.table r q t hr ht
  have hold₁ : tableChild u.mem q t i = none := by
    rw [tableChild, hmem t (isTable_of_tableAt hr ht), ← tableChild, hold]
  have hnot₁ : ¬IsTable u.mem roots (pteAddr e) := by
    rw [isTable_congr h.forest hmem]
    exact h.not_isTable_of_fresh hg
  have hnew : NewTable K excl roots u (i :: q) (pteAddr e) := by
    refine ⟨hg.used, h.not_kernel_of_fresh hg, hnot₁, ?_, hempty, ?_, ?_⟩
    · rintro ⟨r', p, e', hr', he', heq⟩
      exact h.not_isUserFrame_of_fresh hg ⟨r', p, e', hr', hgrow.user r' p e' hr' he', heq⟩
    · intro k hk hp haddr
      exact (haddr (hid k hk hp)).elim
    · intro _ k hk k' _ hp haddr
      exact (haddr (hid k hk hp)).elim
  have hlink := fun {r' p a} (hr' : roots r') => tableAt_link hgrow.inv.forest hr ht₁ hi hq hpres
    hhuge hold₁ hnot₁ hempty hr' (p := p) (a := a)
  have hleaf := fun {r' p e'} (hr' : roots r') => leafAt_link hgrow.inv.forest hr ht₁ hi hq hpres
    hhuge hold₁ hnot₁ hempty hr' (p := p) (c := e')
  refine ⟨⟨hgrow.inv.link hr ht₁ hi hq hpres hhuge hold₁ hnew, hx.used, ?_, ?_, ?_, ?_, ?_, ?_⟩,
    (hlink hr).2 (.inr ⟨rfl, rfl, rfl⟩)⟩
  · intro a ha hta
    have hne : a ≠ t := fun heq => hta (heq ▸ isTable_of_tableAt hr ht)
    refine ⟨?_, (Vm.mem_set_ne hne).trans (hx.mem_eq ha)⟩
    rintro ⟨r', p, hr', hp⟩
    obtain hp | ⟨-, -, rfl⟩ := (hlink hr').1 hp
    · exact (hgrow.data a ha hta).1 ⟨r', p, hr', hp⟩
    · exact hg.not_used ha
  · intro r' p a hr' ha
    exact (hlink hr').2 (.inl (hgrow.table r' p a hr' ha))
  · intro r' p e' hr' he'
    exact (hleaf hr').2 (.inl (hgrow.leaf r' p e' hr' he'))
  · rintro r' p e' hr' ⟨hl, hp, haddr⟩
    obtain hl | ⟨rfl, -, k, hk, rfl, rfl⟩ := (hleaf hr').1 hl
    · exact hgrow.user r' p e' hr' ⟨hl, hp, haddr⟩
    · exact (haddr (hid k hk hp)).elim
  · intro r' q' a j hr' ha hc
    rw [← hgrow.entry r' q' a j hr' ha hc]
    refine mem_set_apply ?_
    -- the entry that is written referred to no table
    rintro rfl rfl
    obtain ⟨-, rfl⟩ := h.forest hr' hr ha ht
    exact hc hold
  · intro r' q' a j hr' ha hq' hp
    by_cases hne : a = t → j ≠ i
    · rw [mem_set_apply hne]
      exact hgrow.present r' q' a j hr' ha hq' hp
    · push Not at hne
      obtain ⟨rfl, rfl⟩ := hne
      rwa [mem_set_entry]

/-! ## `get_or_create_table` -/

/-- The attempts at a frame outside of the huge page take the frames that they set aside and the one that
they find. -/
theorem splitAlloc_takes (h0 : s.Used 0) (hugePhys n : ℕ) :
    ∀ {rejected : List ℕ} {s₁ : Vm}, Vm.Takes s s₁ rejected →
      let R := splitAlloc hugePhys n rejected s₁
      R.2.2.mem = s₁.mem ∧
        (R.1 = 0 ∧ Vm.Takes s R.2.2 R.2.1 ∨ R.1 ≠ 0 ∧ Vm.Takes s R.2.2 (R.2.1 ++ [R.1])) := by
  induction n with
  | zero => exact fun ht => ⟨rfl, .inl ⟨rfl, ht⟩⟩
  | succ n ih =>
    intro rejected s₁ ht
    rw [splitAlloc]
    obtain ⟨-, heq⟩ | ⟨hne, htake⟩ := Vm.alloc_takes ((ht.used 0).2 (.inl h0))
    · rw [if_pos (by rw [heq]), heq]
      exact ⟨rfl, .inl ⟨rfl, ht⟩⟩
    · rw [if_neg hne]
      split
      · exact ih (ht.trans htake)
      · exact ⟨rfl, .inr ⟨hne, ht.trans htake⟩⟩

/-- Once the frames set aside are given back, only the one that was found is taken. -/
theorem splitAlloc_gains (h0 : s.Used 0) (hugePhys : ℕ) :
    let R := splitAlloc hugePhys 16 [] s
    let u := R.2.1.foldl Vm.free R.2.2
    u.mem = s.mem ∧ (R.1 = 0 ∧ s.Gains u ∅ ∨ R.1 ≠ 0 ∧ s.Gains u {R.1}) := by
  obtain ⟨hmem, htakes⟩ := splitAlloc_takes h0 hugePhys 16 (Vm.Takes.refl s)
  refine ⟨(mem_foldl_free _ _).trans hmem, htakes.imp (fun h => ⟨h.1, ?_⟩) fun h => ⟨h.1, ?_⟩⟩
  · have hnil := List.append_nil (splitAlloc hugePhys 16 [] s).2.1
    exact Vm.Takes.release (hnil.symm ▸ h.2)
  · exact Vm.Takes.release h.2

/-- Releasing frames allocated since `s`. -/
theorem ext_foldl_free {l : List ℕ} : ∀ {s₁ : Vm}, s.Ext s₁ → (∀ x ∈ l, ¬s.Used x ∧ x % 4096 = 0) →
    s.Ext (l.foldl Vm.free s₁) := by
  induction l with
  | nil => exact fun hx _ => hx
  | cons x l ih =>
    intro s₁ hx hl
    obtain ⟨hnot, hal⟩ := hl x List.mem_cons_self
    exact ih (hx.free hnot hal) fun y hy => hl y (List.mem_cons_of_mem x hy)

/-- What `get_or_create_table` has done with the entry `i` of the table `t`: it has found a table, or no frame
for one, or it has linked a new one. A new table is empty, or it maps the huge page that it replaces. -/
inductive TableOutcome (s : Vm) (t i flags : ℕ) : ℕ × Vm → Prop
  | found (present : Present (s.mem t i)) (table : ¬Huge (s.mem t i)) :
      TableOutcome s t i flags (pteAddr (s.mem t i), s)
  | full {u : Vm} (old : Present (s.mem t i) → Huge (s.mem t i)) (mem : u.mem = s.mem)
      (gains : s.Gains u ∅) : TableOutcome s t i flags (0, u)
  | made {u : Vm} {g : ℕ} {w : ℕ → ℕ} (mem : u.mem = s.mem) (gains : s.Gains u {g}) (ne_zero : g ≠ 0)
      (words : (¬Present (s.mem t i) ∧ w = fun _ => 0) ∨ (Present (s.mem t i) ∧ Huge (s.mem t i) ∧
        w = fun k => (s.mem t i / 0x200000 * 0x200000 + k * 4096) ||| s.mem t i % 32)) :
      TableOutcome s t i flags (g, (u.setPage g w).set t i (g ||| flags))

theorem getOrCreateTable_outcome {flags : ℕ} (h0 : s.Used 0) (t i : ℕ) (hlt : flags < 4096) :
    TableOutcome s t i flags (getOrCreateTable s t i flags) := by
  have hptr : ∀ {u v : Vm} {g : ℕ}, s.Gains u {g} → pteAddr ((v.set t i (g ||| flags)).mem t i) = g :=
    fun hg => by rw [mem_set_entry, pteAddr_or (hg.fresh (Finset.mem_singleton_self _)).aligned hlt]
  rw [getOrCreateTable]
  dsimp only
  split_ifs with hp hh hz hz
  · obtain ⟨hmem, ⟨-, hgains⟩ | ⟨hne, -⟩⟩ := splitAlloc_gains h0 (s.mem t i / 0x200000 * 0x200000)
    · exact .full (fun _ => hh) hmem hgains
    · exact absurd hz hne
  · obtain ⟨hmem, ⟨hz', -⟩ | ⟨hne, hgains⟩⟩ := splitAlloc_gains h0 (s.mem t i / 0x200000 * 0x200000)
    · exact absurd hz' hz
    · rw [hptr hgains]
      exact .made hmem hgains hne (.inr ⟨hp, hh, rfl⟩)
  · exact .found hp hh
  all_goals obtain ⟨-, heq⟩ | ⟨hne, htakes⟩ := Vm.alloc_takes h0
  · rw [heq]
    exact .full (fun hp' => absurd hp' hp) rfl (Vm.Takes.refl s).gains
  · exact absurd hz hne
  · exact absurd (congrArg Prod.fst heq) hz
  · rw [hptr htakes.gains]
    exact .made rfl htakes.gains hne (.inl ⟨hp, rfl⟩)

/-- The entries that a huge page is split into. -/
theorem pteAddr_split (v k : ℕ) : pteAddr ((v * 0x200000 + k * 4096) ||| 7) = (v * 512 + k) * 4096 :=
  (pteAddr_or (by omega) (by decide)).trans (by omega)

/-- `get_or_create_table` fails, or returns the table at the index; in both cases no mapping changes. -/
theorem getOrCreateTable_spec {q : List ℕ} {t i flags : ℕ} (h : FrameInv K excl roots s)
    (hr : roots r) (ht : tableAt s.mem r q = some t) (hi : i < 512) (hq : q.length < 3)
    (hlt : flags < 4096) (hpres : Present flags) (hhuge : ¬Huge flags) :
    TablesGrow K excl roots s (getOrCreateTable s t i flags).2 ∧
      ((getOrCreateTable s t i flags).1 = 0 ∨
        tableAt (getOrCreateTable s t i flags).2.mem r (i :: q) =
          some (getOrCreateTable s t i flags).1) := by
  have hout := getOrCreateTable_outcome h.used_zero t i hlt
  generalize getOrCreateTable s t i flags = R at hout ⊢
  cases hout with
  | found hp hh =>
    refine ⟨TablesGrow.refl h, .inr ?_⟩
    rw [tableAt_cons, ht, Option.bind_some, tableChild_eq_some]
    exact ⟨⟨hi, hq, hp, hh⟩, rfl⟩
  | full _ hmem hgains => exact ⟨TablesGrow.of_ext h (hgains.ext hmem), .inl rfl⟩
  | @made u g w hmem hgains _ hw =>
    have hfresh := hgains.fresh (Finset.mem_singleton_self g)
    have haddr : pteAddr (g ||| flags) = g := pteAddr_or hfresh.aligned hlt
    have hold : tableChild s.mem q t i = none := by
      rw [tableChild, if_neg]
      rintro ⟨-, -, hp, hh⟩
      exact hw.elim (fun hw => hw.1 hp) fun hw => hh hw.2.1
    have hlink := TablesGrow.link (e := g ||| flags) (u := u.setPage g w) h hr ht hi hq
      ((present_or hfresh.aligned hlt).2 hpres) (mt (huge_or hfresh.aligned hlt).1 hhuge) hold
      ((hgains.ext hmem).setPage fun hu => (hfresh.not_used hu).elim)
      (by rw [haddr]; exact ⟨hfresh.1, hfresh.2⟩)
    rw [haddr, Vm.mem_setPage_self] at hlink
    suffices hnew : ((i :: q).length < 3 → ∀ j, ¬Present (w j)) ∧
        ∀ k < 512, Present (w k) → pteAddr (w k) = vpn (k :: i :: q) * 4096 from
      (hlink hnew.1 hnew.2).imp_right .inr
    obtain ⟨-, rfl⟩ | ⟨hp, hh, rfl⟩ := hw
    · have habsent : ¬Present 0 := by decide
      exact ⟨fun _ _ => habsent, fun _ _ hc => absurd hc habsent⟩
    · -- the new table maps the same 2 MB to themselves
      obtain ⟨hlen, he⟩ := h.huge r q t i hr ht hi hq hp hh
      have hphys : s.mem t i / 0x200000 * 0x200000 = vpn (i :: q) * 0x200000 := by omega
      have hflags : s.mem t i % 32 = 7 := by omega
      rw [hphys, hflags]
      exact ⟨fun hlt => absurd hlt (by simp [hlen]), fun k _ _ => pteAddr_split _ k⟩

/-! ## `vmm_map_page_in` -/

/-- The path of the page of an address: the indices from the page table up to the PML4. -/
def pagePath (virt : ℕ) : List ℕ :=
  [virt / 2 ^ 12 % 512, virt / 2 ^ 21 % 512, virt / 2 ^ 30 % 512, virt / 2 ^ 39 % 512]

theorem vpn_pagePath (virt : ℕ) : vpn (pagePath virt) = virt / 2 ^ 12 % 2 ^ 36 := by
  simp only [pagePath, vpn]
  omega

/-- The frame is allocated and can be mapped. -/
structure Loose (K : Kernel) (excl : Prop) (roots : ℕ → Prop) (s : Vm) (f : ℕ) : Prop where
  used : s.Used f
  not_kernel : ¬K.Page f
  not_table : ¬IsTable s.mem roots f
  not_user : excl → ¬IsUserFrame s.mem roots f

theorem TablesGrow.loose (h : TablesGrow K excl roots s s') {f : ℕ}
    (hf : Loose K excl roots s f) : Loose K excl roots s' f where
  used := h.used f hf.used
  not_kernel := hf.not_kernel
  not_table := (h.data f hf.used hf.not_table).1
  not_user := by
    rintro hx ⟨r, p, e, hr, he, rfl⟩
    exact hf.not_user hx ⟨r, p, e, hr, h.user r p e hr he, rfl⟩

/-- A frame allocated since `s` can be mapped. -/
theorem FrameInv.loose_of_fresh (h : FrameInv K excl roots s) (hx : s.Ext s') {f : ℕ}
    (hf : s.Fresh s' f) : Loose K excl roots s' f := by
  have hgrow := TablesGrow.of_ext h hx
  refine ⟨hf.used, h.not_kernel_of_fresh hf, ?_, ?_⟩
  · rw [isTable_congr h.forest fun a ha => hx.mem_eq (h.table a ha).1]
    exact h.not_isTable_of_fresh hf
  · rintro _ ⟨r, p, e, hr, he, rfl⟩
    exact h.not_isUserFrame_of_fresh hf ⟨r, p, e, hr, hgrow.user r p e hr he, rfl⟩

/-- The page table of `virt` as `vmm_map_page_in` finds or makes it, or 0. -/
def pageTableFor (s : Vm) (pml4 virt flags : ℕ) : ℕ × Vm :=
  let pdpt := getOrCreateTable s pml4 (virt / 2 ^ 39 % 512) (tblFlags flags)
  if pdpt.1 = 0 then (0, pdpt.2)
  else
    let pd := getOrCreateTable pdpt.2 pdpt.1 (virt / 2 ^ 30 % 512) (tblFlags flags)
    if pd.1 = 0 then (0, pd.2)
    else getOrCreateTable pd.2 pd.1 (virt / 2 ^ 21 % 512) (tblFlags flags)

theorem vmmMapPageIn_eq (s : Vm) (pml4 virt phys flags : ℕ) :
    vmmMapPageIn s pml4 virt phys flags =
      if (pageTableFor s pml4 virt flags).1 = 0 then (pageTableFor s pml4 virt flags).2
      else (pageTableFor s pml4 virt flags).2.set (pageTableFor s pml4 virt flags).1 (virt / 2 ^ 12 % 512)
        (pteAddr phys ||| flags) := by
  rw [vmmMapPageIn, pageTableFor]
  dsimp only
  split
  · rw [if_pos rfl]
  · split
    · rw [if_pos rfl]
    · rfl

/-- What one `get_or_create_table` on the path keeps and does, the whole walk keeps and does. -/
theorem pageTableFor_walk {I : Vm → Prop} {R : Vm → Vm → Prop}
    (htrans : ∀ {a b c}, R a b → R b c → R a c)
    (hstep : ∀ {s q t i flags}, I s → tableAt s.mem r q = some t → i < 512 → q.length < 3 →
      flags < 4096 → Present flags → ¬Huge flags →
      I (getOrCreateTable s t i flags).2 ∧ R s (getOrCreateTable s t i flags).2 ∧
        ((getOrCreateTable s t i flags).1 = 0 ∨
          tableAt (getOrCreateTable s t i flags).2.mem r (i :: q) = some (getOrCreateTable s t i flags).1))
    (h : I s) (virt flags : ℕ) :
    I (pageTableFor s r virt flags).2 ∧ R s (pageTableFor s r virt flags).2 ∧
      ((pageTableFor s r virt flags).1 = 0 ∨
        tableAt (pageTableFor s r virt flags).2.mem r (pagePath virt).tail =
          some (pageTableFor s r virt flags).1) := by
  have hi : ∀ n, n % 512 < 512 := fun n => Nat.mod_lt n (by decide)
  obtain ⟨hlt, hp, hh⟩ := tblFlags_spec flags
  rw [pageTableFor]
  dsimp only
  obtain ⟨h₁, hrel₁, hres₁⟩ := hstep (q := []) h rfl (hi (virt / 2 ^ 39)) (by decide) hlt hp hh
  generalize getOrCreateTable s r (virt / 2 ^ 39 % 512) (tblFlags flags) = pdpt at h₁ hrel₁ hres₁ ⊢
  by_cases hz₁ : pdpt.1 = 0
  · rw [if_pos hz₁]
    exact ⟨h₁, hrel₁, .inl rfl⟩
  rw [if_neg hz₁]
  obtain ⟨h₂, hrel₂, hres₂⟩ :=
    hstep h₁ (hres₁.resolve_left hz₁) (hi (virt / 2 ^ 30)) (by simp) hlt hp hh
  generalize getOrCreateTable pdpt.2 pdpt.1 (virt / 2 ^ 30 % 512) (tblFlags flags) = pd
    at h₂ hrel₂ hres₂ ⊢
  by_cases hz₂ : pd.1 = 0
  · rw [if_pos hz₂]
    exact ⟨h₂, htrans hrel₁ hrel₂, .inl rfl⟩
  rw [if_neg hz₂]
  obtain ⟨h₃, hrel₃, hres₃⟩ :=
    hstep h₂ (hres₂.resolve_left hz₂) (hi (virt / 2 ^ 21)) (by simp) hlt hp hh
  exact ⟨h₃, htrans (htrans hrel₁ hrel₂) hrel₃, hres₃⟩

theorem pageTableFor_grow (h : FrameInv K excl roots s) (hr : roots r) (virt flags : ℕ) :
    TablesGrow K excl roots s (pageTableFor s r virt flags).2 ∧
      ((pageTableFor s r virt flags).1 = 0 ∨
        tableAt (pageTableFor s r virt flags).2.mem r (pagePath virt).tail =
          some (pageTableFor s r virt flags).1) := by
  have hwalk := pageTableFor_walk (s := s) (r := r) (I := FrameInv K excl roots)
    (R := TablesGrow K excl roots) TablesGrow.trans (fun hu ht hi hq hlt hp hh => by
      obtain ⟨hgrow, hres⟩ := getOrCreateTable_spec hu hr ht hi hq hlt hp hh
      exact ⟨hgrow.inv, hgrow, hres⟩) h virt flags
  exact hwalk.2

/-- `vmm_map_page_in` builds the tables on the path of the page and writes its entry, or it gives up. -/
theorem vmmMapPageIn_cases (h : FrameInv K excl roots s) (hr : roots r) (virt phys flags : ℕ) :
    TablesGrow K excl roots s (vmmMapPageIn s r virt phys flags) ∨
      ∃ s₁ pt, TablesGrow K excl roots s s₁ ∧ tableAt s₁.mem r (pagePath virt).tail = some pt ∧
        vmmMapPageIn s r virt phys flags = s₁.set pt (virt / 2 ^ 12 % 512) (pteAddr phys ||| flags) := by
  obtain ⟨hgrow, hres⟩ := pageTableFor_grow h hr virt flags
  rw [vmmMapPageIn_eq]
  split
  · exact .inl hgrow
  · next hz => exact .inr ⟨_, _, hgrow, hres.resolve_left hz, rfl⟩

/-- The effect of `vmm_map_page_in` for a frame that can be mapped: the invariant is kept, other frames
are as before, and the only new user entry is that of the page and has this frame. -/
structure PageMapped (K : Kernel) (excl : Prop) (roots : ℕ → Prop) (s s' : Vm) (virt f : ℕ) : Prop where
  inv : FrameInv K excl roots s'
  used : ∀ a, s.Used a → s'.Used a
  data : ∀ a, s.Used a → ¬IsTable s.mem roots a → ¬IsTable s'.mem roots a ∧ s'.mem a = s.mem a
  user : ∀ r p e, roots r → UserEntry s'.mem r p e →
    UserEntry s.mem r p e ∨ (p = pagePath virt ∧ pteAddr e = f)

/-- Building the tables changes no user entry; the entry of the page is written last. -/
theorem vmmMapPageIn_spec {phys flags : ℕ} (h : FrameInv K excl roots s) (hr : roots r) (virt : ℕ)
    (hf : Loose K excl roots s (pteAddr phys)) (hflags : flags < 4096) :
    PageMapped K excl roots s (vmmMapPageIn s r virt phys flags) virt (pteAddr phys) := by
  obtain hgrow | ⟨s₁, pt, hgrow, hpt, heq⟩ := vmmMapPageIn_cases h hr virt phys flags
  · exact ⟨hgrow.inv, hgrow.used, hgrow.data, fun r p e hr he => .inl (hgrow.user r p e hr he)⟩
  · rw [heq]
    have hk : virt / 2 ^ 12 % 512 < 512 := Nat.mod_lt _ (by decide)
    have haddr : pteAddr (pteAddr phys ||| flags) = pteAddr phys :=
      pteAddr_or (pteAddr_aligned phys) hflags
    have hf₁ := hgrow.loose hf
    have hwalk := (tableAt_setLeaf (k := virt / 2 ^ 12 % 512) (e := pteAddr phys ||| flags)
      hgrow.inv.forest hr hpt rfl).2
    refine ⟨hgrow.inv.setLeaf hr hpt rfl hk fun _ _ => ?_, hgrow.used, ?_, ?_⟩
    · rw [haddr]
      exact ⟨hf₁.used, hf₁.not_kernel, hf₁.not_table, hf₁.not_user⟩
    · intro a ha ht
      obtain ⟨ht₁, hmem⟩ := hgrow.data a ha ht
      have hne : a ≠ pt := fun hap => ht₁ (hap ▸ isTable_of_tableAt hr hpt)
      refine ⟨?_, (Vm.mem_set_ne hne).trans hmem⟩
      rintro ⟨r', p, hr', hp⟩
      exact ht₁ ⟨r', p, hr', (hwalk r' p hr').symm.trans hp⟩
    · rintro r' p e hr' ⟨hleaf, hp, hne⟩
      obtain ⟨hleaf, -⟩ | ⟨-, rfl, rfl⟩ :=
        (leafAt_setLeaf hgrow.inv.forest hr hpt rfl hk hr').1 hleaf
      · exact .inl (hgrow.user r' p e hr' ⟨hleaf, hp, hne⟩)
      · exact .inr ⟨rfl, haddr⟩

theorem PageMapped.loose {virt f g : ℕ} (h : PageMapped K excl roots s s' virt f)
    (hg : Loose K excl roots s g) (hne : g ≠ f) : Loose K excl roots s' g where
  used := h.used g hg.used
  not_kernel := hg.not_kernel
  not_table := (h.data g hg.used hg.not_table).1
  not_user := by
    rintro hx ⟨r, p, e, hr, he, rfl⟩
    obtain he | ⟨-, heq⟩ := h.user r p e hr he
    · exact hg.not_user hx ⟨r, p, e, hr, he, rfl⟩
    · exact hne heq

/-! ## `vmm_get_physical_in` and `vmm_unmap_page` -/

/-- Huge entries are in the directories only. -/
theorem FrameInv.not_huge {q : List ℕ} {t i : ℕ} (h : FrameInv K excl roots s) (hr : roots r)
    (ht : tableAt s.mem r q = some t) (hi : i < 512) (hq : q.length < 2)
    (hp : Present (s.mem t i)) : ¬Huge (s.mem t i) := by
  intro hh
  have := (h.huge r q t i hr ht hi (by omega) hp hh).1
  omega

theorem tableAt_next {mem : ℕ → ℕ → ℕ} {q : List ℕ} {t i : ℕ} (ht : tableAt mem r q = some t)
    (hi : i < 512) (hq : q.length < 3) (hp : Present (mem t i)) (hh : ¬Huge (mem t i)) :
    tableAt mem r (i :: q) = some (pteAddr (mem t i)) := by
  rw [tableAt_cons, ht, Option.bind_some, tableChild_eq_some]
  exact ⟨⟨hi, hq, hp, hh⟩, rfl⟩

/-- If `vmm_get_physical` gives another address for a page below 2^48, then the page has a user entry for
the frame at this address, and `vmm_unmap_page` clears the entry. -/
theorem vmmGetPhysicalIn_user {va : ℕ} (h : FrameInv K excl roots s) (hr : roots r)
    (hal : va % 4096 = 0) (hlt : va < 2 ^ 48) (hz : vmmGetPhysicalIn s r va ≠ 0)
    (hne : vmmGetPhysicalIn s r va ≠ va) :
    ∃ pt, tableAt s.mem r (pagePath va).tail = some pt ∧
      UserEntry s.mem r (pagePath va) (s.mem pt (va / 2 ^ 12 % 512)) ∧
      vmmGetPhysicalIn s r va = pteAddr (s.mem pt (va / 2 ^ 12 % 512)) ∧
      vmmUnmapPage s r va = s.set pt (va / 2 ^ 12 % 512) 0 := by
  have hi : ∀ n, n % 512 < 512 := fun n => Nat.mod_lt n (by decide)
  rw [vmmUnmapPage]
  rw [vmmGetPhysicalIn] at hz hne ⊢
  by_cases hp4 : Present (s.mem r (va / 2 ^ 39 % 512))
  swap
  · exact (hz (if_pos hp4)).elim
  -- Each level that is not present would have given 0.
  rw [if_neg (not_not.2 hp4)] at hz hne ⊢
  have h4 := tableAt_next (q := []) (r := r) rfl (hi _) (by decide) hp4
    (h.not_huge (q := []) hr rfl (hi _) (by decide) hp4)
  generalize pteAddr (s.mem r (va / 2 ^ 39 % 512)) = pdpt at h4 hz hne ⊢
  by_cases hp3 : Present (s.mem pdpt (va / 2 ^ 30 % 512))
  swap
  · exact (hz (if_pos hp3)).elim
  have hh3 := h.not_huge hr h4 (hi _) (by simp) hp3
  rw [if_neg (not_not.2 hp3), if_neg hh3] at hz hne ⊢
  have h3 := tableAt_next h4 (hi _) (by simp) hp3 hh3
  generalize pteAddr (s.mem pdpt (va / 2 ^ 30 % 512)) = pd at h3 hz hne ⊢
  by_cases hp2 : Present (s.mem pd (va / 2 ^ 21 % 512))
  swap
  · exact (hz (if_pos hp2)).elim
  rw [if_neg (not_not.2 hp2)] at hz hne ⊢
  by_cases hh2 : Huge (s.mem pd (va / 2 ^ 21 % 512))
  · -- huge pages are identity pages
    rw [if_pos hh2] at hne
    have he := (h.huge r _ pd _ hr h3 (hi _) (by simp) hp2 hh2).2
    have hbase : s.mem pd (va / 2 ^ 21 % 512) / 2 ^ 21 * 2 ^ 21 = 2 ^ 21 * (va / 2 ^ 21) := by
      simp only [vpn] at he
      omega
    rw [hbase, ← Nat.two_pow_add_eq_or_of_lt (Nat.mod_lt _ (by decide)), Nat.div_add_mod] at hne
    exact (hne rfl).elim
  rw [if_neg hh2] at hz hne ⊢
  have h2 := tableAt_next h3 (hi _) (by simp) hp2 hh2
  generalize pteAddr (s.mem pd (va / 2 ^ 21 % 512)) = pt at h2 hz hne ⊢
  by_cases hp1 : Present (s.mem pt (va / 2 ^ 12 % 512))
  swap
  · exact (hz (if_pos hp1)).elim
  rw [if_neg (not_not.2 hp1), hal, Nat.or_zero] at hz hne ⊢
  rw [if_neg (not_not.2 hp4), if_neg (not_not.2 hp3), if_neg (not_not.2 hp2), if_neg hh2]
  refine ⟨pt, h2, ⟨?_, hp1, ?_⟩, rfl, rfl⟩
  · rw [leafAt_eq_some]
    exact ⟨_, _, pt, rfl, rfl, hi _, h2, rfl⟩
  · rw [vpn_pagePath]
    omega

/-- Releasing a frame that is in no use. -/
theorem FrameInv.free {f : ℕ} (h : FrameInv K excl roots s) (hal : f % 4096 = 0)
    (hker : ¬K.Page f) (htab : ¬IsTable s.mem roots f) (huser : ¬IsUserFrame s.mem roots f) :
    FrameInv K excl roots (s.free f) := by
  refine h.congr (fun _ _ => rfl) (fun _ _ => rfl) ?_
  intro a ha hown
  refine ha.free ?_
  rw [Nat.div_mul_cancel (Nat.dvd_of_mod_eq_zero hal)]
  rintro rfl
  obtain hown | hown | hown := hown
  · exact hker hown
  · exact htab hown
  · exact huser hown

theorem vmmUnmapPage_free {a va : ℕ} :
    vmmUnmapPage (s.free a) r va = (vmmUnmapPage s r va).free a := by
  simp only [vmmUnmapPage, Vm.mem_free, apply_ite (Vm.free · a)]
  rfl

/-- The page of `SYS_MUNMAP`: its frame is released and its entry cleared. -/
theorem FrameInv.unmap {va : ℕ} (h : FrameInv K True roots s) (hr : roots r)
    (hal : va % 4096 = 0) (hlt : va < 2 ^ 48) (hz : vmmGetPhysicalIn s r va ≠ 0)
    (hne : vmmGetPhysicalIn s r va ≠ va) :
    FrameInv K True roots (vmmUnmapPage (s.free (vmmGetPhysicalIn s r va)) r va) := by
  obtain ⟨pt, hpt, hentry, hphys, hunmap⟩ := vmmGetPhysicalIn_user h hr hal hlt hz hne
  obtain ⟨-, hker, htab⟩ := h.user r _ _ hr hentry
  have hk : va / 2 ^ 12 % 512 < 512 := Nat.mod_lt _ (by decide)
  have hinv := h.setLeaf (e := 0) hr hpt rfl hk fun hp => absurd hp (by decide)
  -- the releases and the write commute; after the write the frame is in no use
  rw [vmmUnmapPage_free, hunmap, hphys]
  refine hinv.free (pteAddr_aligned _) hker ?_ ?_
  · rintro ⟨r', p, hr', hp⟩
    rw [← tableAt, (tableAt_setLeaf h.forest hr hpt rfl).2 r' p hr'] at hp
    exact htab ⟨r', p, hr', hp⟩
  · rintro ⟨r', p, e, hr', ⟨hleaf, hp, haddr⟩, heq⟩
    obtain ⟨hleaf, hother⟩ | ⟨-, -, rfl⟩ := (leafAt_setLeaf h.forest hr hpt rfl hk hr').1 hleaf
    · exact hother (h.unique trivial r' r p _ e _ hr' hr ⟨hleaf, hp, haddr⟩ hentry heq)
    · exact absurd hp (by decide)

end

end PlantOS.Mm
