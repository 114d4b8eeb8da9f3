import PlantOS.Mm.VmmClone
import PlantOS.Mm.VmmDestroy
import PlantOS.Mm.VmmMemory

/-!
# When a copy fails

If `pmm_alloc_page` fails, `vmm_clone_address_space` calls `vmm_destroy_address_space` for the copy and
returns 0. The destruction releases what it finds in the tables of the copy. It misses two kinds of frames:
a page table that is not yet linked into its directory, with the pages copied for it, and a page whose copy
is in the frame with the address of the page, since that looks like an entry of the kernel's identity map.

`cloneAllocs` and the free frames in their order tell before the call which frame is allocated for what, and
so whether one of them gets lost.
-/

namespace PlantOS.Mm

section Zip

variable {α : Type*} {as : List α} {l : List ℕ} {x y : α} {a : ℕ}

theorem exists_mem_zip (h : l.length = as.length) (ha : a ∈ l) : ∃ x, (x, a) ∈ as.zip l := by
  obtain ⟨i, hi, rfl⟩ := List.mem_iff_getElem.1 ha
  refine ⟨as[i], List.mem_iff_getElem.2 ⟨i, ?_, List.getElem_zip⟩⟩
  rw [List.length_zip]
  omega

/-- The second components are different, so the first ones are determined. -/
theorem eq_of_mem_zip (h : l.Nodup) (hx : (x, a) ∈ as.zip l) (hy : (y, a) ∈ as.zip l) : x = y := by
  obtain ⟨i, hi, hxi⟩ := List.mem_iff_getElem.1 hx
  obtain ⟨j, hj, hyj⟩ := List.mem_iff_getElem.1 hy
  rw [List.getElem_zip, Prod.mk.injEq] at hxi hyj
  obtain rfl : i = j := (h.getElem_inj_iff).1 (hxi.2.trans hyj.2.symm)
  exact hxi.1.symm.trans hyj.1

end Zip

section

variable {K : Kernel} {excl : Prop} {roots : ℕ → Prop} {s b t : Vm} {r src pdpt : ℕ} {pd : ℕ → ℕ}
  {allocs : List CloneAlloc} {l₀ l : List ℕ}

/-! ## The destruction of the copy -/

/-- The frames of a new address space. -/
theorem SpaceBuilt.owns_iff (hb : SpaceBuilt K s b r pdpt pd) (a : ℕ) :
    Owns b.mem r a ↔ a ∈ r :: pdpt :: (List.range 4).map pd := by
  simp only [List.mem_cons, List.mem_map, List.mem_range]
  constructor
  · rintro (⟨x, p, rfl, hp⟩ | ⟨x, p, e, rfl, ⟨he, -⟩, -⟩)
    · obtain ⟨-, rfl⟩ | ⟨-, rfl⟩ | ⟨i, hi, -, rfl⟩ := hb.tableAt_cases hp
      · exact .inl rfl
      · exact .inr (.inl rfl)
      · exact .inr (.inr ⟨i, hi, rfl⟩)
    · rw [hb.leafAt_eq_none] at he
      cases he
  · rintro (rfl | rfl | ⟨i, hi, rfl⟩)
    · exact owns_of_tableAt (q := []) rfl
    · exact owns_of_tableAt hb.tableAt_pdpt
    · exact owns_of_tableAt (hb.tableAt_pd hi)

/-- The copy has no tables for addresses from 4 GB on. -/
theorem SpaceBuilt.lowOnly (hb : SpaceBuilt K s b r pdpt pd)
    (hk : Vm.Keeps (fun a => ∃ i < 4, a = pd i) b t) : LowOnly t.mem r := by
  have hroot : t.mem r = b.mem r := by
    refine hk.mem r hb.fresh_root.used ?_
    rintro ⟨i, hi, heq⟩
    exact hb.pd_ne_root i hi heq.symm
  have hpdpt : t.mem pdpt = b.mem pdpt := by
    refine hk.mem pdpt hb.fresh_pdpt.used ?_
    rintro ⟨i, hi, heq⟩
    exact hb.pd_ne_pdpt i hi heq.symm
  constructor
  · intro i _ hi hp
    rw [hroot, hb.mem_root_ne (by omega)] at hp
    exact absurd hp (by decide)
  · intro _ i _ hi hp
    rw [hroot, hb.mem_root_zero, (SpaceBuilt.link_entry hb.fresh_pdpt).2.2, hpdpt,
      hb.mem_pdpt_ge (by omega)] at hp
    exact absurd hp (by decide)

/-- The destruction of an address space whose frames have been allocated since `s`. -/
theorem vmmDestroyAddressSpace_used (h : FrameInv K True roots t) (hr : roots r) (hlow : LowOnly t.mem r)
    (ht : Vm.Takes s t l) (hown : ∀ a, Owns t.mem r a → a ∈ l) (a : ℕ) :
    (vmmDestroyAddressSpace K.boot t r).Used a ↔ s.Used a ∨ (a ∈ l ∧ ¬Owns t.mem r a) := by
  obtain ⟨frames, -, hmem, heq⟩ := vmmDestroyAddressSpace_frames h hr hlow
  have hfree : ∀ c ∈ frames, c % 4096 = 0 ∧ c / 4096 < t.pmm.totalPages ∧ ¬s.Used c := by
    intro c hc
    rw [ht.total]
    exact Vm.mem_freeFrames.1 (ht.mem_free (hown c ((hmem c).1 hc)))
  rw [heq]
  constructor
  · intro ha
    have hnot : ¬Owns t.mem r a := fun ho =>
      not_used_foldl_free ((hmem a).2 ho) (hfree a ((hmem a).2 ho)).2.1 ha
    exact ((ht.used a).1 (used_of_used_foldl_free ha)).imp_right fun hl => ⟨hl, hnot⟩
  · rintro (hs | ⟨hl, hnot⟩)
    · exact used_foldl_free (fun c hc => (hfree c hc).1) (fun hc => (hfree a hc).2.2 hs)
        ((ht.used a).2 (.inl hs))
    · exact used_foldl_free (fun c hc => (hfree c hc).1) (fun hc => hnot ((hmem a).1 hc))
        ((ht.used a).2 (.inr hl))

/-- Where the loops of `vmm_clone_address_space` have come to: the address space `r` has been created in the
frames `l₀`, and the state is `t`. -/
structure CloneAt (K : Kernel) (s b t : Vm) (r : ℕ) (l₀ : List ℕ) : Prop where
  inv : FrameInv K True (· = r) t
  low : LowOnly t.mem r
  takes : Vm.Takes s b l₀
  owns : ∀ a, Owns b.mem r a ↔ a ∈ l₀

/-- After complete page tables the destruction misses the copies at the address of their page. -/
theorem CloneTaken.destroy_used (h : CloneTaken r b t allocs l) (hc : CloneAt K s b t r l₀) (a : ℕ) :
    (vmmDestroyAddressSpace K.boot t r).Used a ↔ s.Used a ∨ (.page a, a) ∈ allocs.zip l := by
  have ht := hc.takes.trans h.takes
  have hown : ∀ a, Owns t.mem r a → a ∈ l₀ ++ l := by
    intro a ha
    rw [h.owns, hc.owns] at ha
    obtain ha | ⟨x, hx, -⟩ := ha
    · exact List.mem_append_left l ha
    · exact List.mem_append_right l₀ (List.of_mem_zip hx).2
  rw [vmmDestroyAddressSpace_used hc.inv rfl hc.low ht hown, h.owns, hc.owns]
  refine or_congr_right ⟨?_, ?_⟩
  · rintro ⟨hmem, hnot⟩
    rw [not_or] at hnot
    obtain ⟨x, hx⟩ := exists_mem_zip h.length ((List.mem_append.1 hmem).resolve_left hnot.1)
    by_contra hlost
    refine hnot.2 ⟨x, hx, ?_⟩
    rintro rfl
    exact hlost hx
  · intro hlost
    have hl := (List.of_mem_zip hlost).2
    refine ⟨List.mem_append_right l₀ hl, ?_⟩
    rintro (h₀ | ⟨x, hx, hne⟩)
    · exact (List.nodup_append.1 ht.nodup).2.2 a h₀ a hl rfl
    · exact hne (eq_of_mem_zip h.takes.nodup hx hlost)

/-- What `vmm_clone_address_space` can come to: there are no six frames for the new address space, or the
copy is complete, or it is destroyed. -/
theorem vmmCloneAddressSpace_cases (h : FrameInv K excl roots s) (hsrc : roots src) :
    (s.freeFrames.length < 6 ∧ (vmmCloneAddressSpace K.boot s src).1 = 0 ∧
        s.SameFrames (vmmCloneAddressSpace K.boot s src).2) ∨
      ∃ b t r l₀, l₀.length = 6 ∧ r ≠ 0 ∧ CloneAt K s b t r l₀ ∧
        ((vmmCloneAddressSpace K.boot s src = (r, t) ∧
            ∃ l, CloneTaken r b t (cloneAllocs s.mem src) l) ∨
          (vmmCloneAddressSpace K.boot s src = (0, vmmDestroyAddressSpace K.boot t r) ∧
            CloneFailed r b t (cloneAllocs s.mem src))) := by
  rw [vmmCloneAddressSpace, cloneAllocs]
  dsimp only
  obtain ⟨hext, ⟨hz, hsame, hlen⟩ | ⟨pdpt, pd, hb, htakes⟩⟩ := vmmCreateAddressSpace_cases h
  · rw [if_pos hz]
    exact .inl ⟨hlen, rfl, hsame⟩
  generalize vmmCreateAddressSpace K.boot s = R at hext hb htakes ⊢
  have hinv : FrameInv K True (· = R.1) R.2 :=
    (hb.frameInv ((⟨h.kernel, h.boot⟩ : Booted K s).frameInv True)).mono fun x hx => .inr hx
  have hroot : R.1 ≠ 0 := hinv.root_ne_zero rfl
  have hstart : SpaceCloned K True (· = R.1) s R.2 R.2 src pd 0 :=
    ⟨hinv, Vm.Keeps.refl _ _, fun i hi => (Nat.not_lt_zero i hi).elim, fun _ _ _ => rfl⟩
  refine .inr ⟨R.2, ?_⟩
  rw [if_neg hroot, hext.mem_eq (h.table src (isTable_of_tableAt (q := []) hsrc rfl)).1]
  by_cases hp : Present (s.mem src 0)
  swap
  · rw [if_pos hp, if_neg hp]
    exact ⟨R.2, R.1, _, rfl, hroot, ⟨hinv, hb.lowOnly (Vm.Keeps.refl _ _), htakes, hb.owns_iff⟩,
      .inl ⟨rfl, [], .refl _ _⟩⟩
  rw [if_neg (not_not.2 hp), if_pos hp, hb.mem_root_zero, (SpaceBuilt.link_entry hb.fresh_pdpt).2.2]
  have hpdpt := tableAt_next (q := []) (r := src) rfl (by decide) (by decide) hp
    (h.not_huge (q := []) hsrc rfl (by decide) (by decide) hp)
  obtain ⟨hinvT, hkeepsT, hclone, hfail⟩ :=
    clonePdpt_spec h hsrc hpdpt hb (by rfl) 4 (Nat.zero_add _) hstart
  generalize clonePdpt (pteAddr (s.mem src 0)) pdpt 4 0 R.2 = T at hinvT hkeepsT hclone hfail ⊢
  refine ⟨T.2, R.1, _, rfl, hroot, ⟨hinvT, hb.lowOnly hkeepsT, htakes, hb.owns_iff⟩, ?_⟩
  by_cases hT : T.1 = true
  · rw [if_pos hT]
    exact .inl ⟨rfl, (hclone hT).2⟩
  · rw [if_neg hT]
    exact .inr ⟨rfl, hfail (by simpa using hT)⟩

/-- How the call of `vmm_clone_address_space` for `src` ends: -/
inductive CloneOutcome (K : Kernel) (s : Vm) (src : ℕ) : Prop
  /-- there are no six frames for a new address space; -/
  | noSpace (few : s.freeFrames.length < 6) (failed : (vmmCloneAddressSpace K.boot s src).1 = 0)
      (same : s.SameFrames (vmmCloneAddressSpace K.boot s src).2)
  /-- there are enough frames, and to destroy the copy would lose those at the address of their page; -/
  | copied (enough : 6 + (cloneAllocs s.mem src).length ≤ s.freeFrames.length)
      (succeeded : (vmmCloneAddressSpace K.boot s src).1 ≠ 0)
      (destroyed : ∀ a, (vmmDestroyAddressSpace K.boot (vmmCloneAddressSpace K.boot s src).2
        (vmmCloneAddressSpace K.boot s src).1).Used a ↔
          s.Used a ∨ (.page a, a) ∈ (cloneAllocs s.mem src).zip (s.freeFrames.drop 6))
  /-- there is no frame for a page table; -/
  | noTable (created : 6 ≤ s.freeFrames.length)
      (next : (cloneAllocs s.mem src)[s.freeFrames.length - 6]? = some .table)
      (failed : (vmmCloneAddressSpace K.boot s src).1 = 0)
      (used : ∀ a, (vmmCloneAddressSpace K.boot s src).2.Used a ↔
        s.Used a ∨ (.page a, a) ∈ (cloneAllocs s.mem src).zip (s.freeFrames.drop 6))
  /-- there is no frame for a page, and the page table it was for gets lost. -/
  | noPage {virt g : ℕ} (created : 6 ≤ s.freeFrames.length)
      (next : (cloneAllocs s.mem src)[s.freeFrames.length - 6]? = some (.page virt))
      (failed : (vmmCloneAddressSpace K.boot s src).1 = 0)
      (used : (vmmCloneAddressSpace K.boot s src).2.Used g) (unused : ¬s.Used g)

/-- The frames that have been allocated so far are those for the allocations so far. -/
theorem zip_taken {pre rest : List CloneAlloc} {free : List ℕ} (hlen : l.length = pre.length)
    (hrest : rest = [] ∨ free = []) : (pre ++ rest).zip (l ++ free) = pre.zip l := by
  rw [List.zip_append hlen.symm]
  obtain rfl | rfl := hrest
  · rw [List.zip_nil_left, List.append_nil]
  · rw [List.zip_nil_right, List.append_nil]

theorem cloneOutcome (h : FrameInv K excl roots s) (hsrc : roots src) : CloneOutcome K s src := by
  obtain ⟨hlt, hz, hsame⟩ | ⟨b, t, r, l₀, hl₀, hr, hc, ⟨heq, l, htaken⟩ | ⟨heq, hfail⟩⟩ :=
    vmmCloneAddressSpace_cases h hsrc
  · exact .noSpace hlt hz hsame
  · have hfree : s.freeFrames = l₀ ++ (l ++ t.freeFrames) := by rw [hc.takes.free, htaken.takes.free]
    have hused := htaken.destroy_used hc
    refine .copied ?_ (by rwa [heq]) fun a => ?_
    · simp only [hfree, List.length_append, hl₀, htaken.length]
      omega
    · rw [heq, hused, hfree, ← hl₀, List.drop_left, ← zip_taken htaken.length (.inl rfl), List.append_nil]
  · cases hfail with
    | @table pre l htaken next free =>
      obtain ⟨rest, hrest⟩ := next
      have hfree : s.freeFrames = l₀ ++ l := by
        rw [hc.takes.free, htaken.takes.free, free, List.append_nil]
      rw [List.append_assoc] at hrest
      have hzip : (pre ++ ([CloneAlloc.table] ++ rest)).zip (l ++ []) = pre.zip l :=
        zip_taken htaken.length (.inr rfl)
      rw [List.append_nil] at hzip
      refine .noTable (by simp [hfree, hl₀]) ?_ (by rw [heq]) fun a => ?_
      · simp [hfree, hl₀, htaken.length, ← hrest]
      · rw [heq, htaken.destroy_used hc, hfree, ← hl₀, List.drop_left, ← hrest, hzip]
    | @page pre l virt g takes length next free owns mem loose =>
      obtain ⟨rest, hrest⟩ := next
      have ht := hc.takes.trans takes
      have hmem := List.mem_append_right l₀ mem
      have hfree : s.freeFrames = l₀ ++ l := by rw [ht.free, free, List.append_nil]
      have hnext : (cloneAllocs s.mem src)[s.freeFrames.length - 6]? = some (.page virt) := by
        simp [hfree, hl₀, length, ← hrest]
      refine .noPage (by simp [hfree, hl₀]) hnext (by rw [heq]) ?_ (ht.fresh hmem).not_used
      rw [heq, vmmDestroyAddressSpace_used hc.inv rfl hc.low ht]
      · exact .inr ⟨hmem, loose⟩
      · intro a ha
        rw [List.mem_append, ← hc.owns]
        exact owns a ha

/-! ## Failures without a loss -/

/-- The copy of a page goes to the frame with the address of the page. -/
def CopiedToItself (s : Vm) (src : ℕ) : Prop :=
  ∃ x ∈ (cloneAllocs s.mem src).zip (s.freeFrames.drop 6), x.1 = .page x.2

theorem copiedToItself_iff :
    CopiedToItself s src ↔ ∃ a, (.page a, a) ∈ (cloneAllocs s.mem src).zip (s.freeFrames.drop 6) := by
  constructor
  · rintro ⟨⟨x, a⟩, hx, heq⟩
    obtain rfl : x = .page a := heq
    exact ⟨a, hx⟩
  · rintro ⟨a, ha⟩
    exact ⟨_, ha, rfl⟩

/-- No frame gets lost if the only frames that may are those of pages copied to themselves. -/
theorem used_iff_of_lost
    (hused : ∀ a, t.Used a ↔
      s.Used a ∨ (.page a, a) ∈ (cloneAllocs s.mem src).zip (s.freeFrames.drop 6)) :
    (∀ a, t.Used a ↔ s.Used a) ↔ ¬CopiedToItself s src := by
  rw [copiedToItself_iff]
  constructor
  · rintro hsame ⟨a, ha⟩
    have hfree := List.mem_of_mem_drop (List.of_mem_zip ha).2
    exact (Vm.mem_freeFrames.1 hfree).2.2 ((hsame a).1 ((hused a).2 (.inr ha)))
  · intro hnot a
    rw [hused]
    exact or_iff_left fun ha => hnot ⟨a, ha⟩

/-- There are fewer than six free frames, so that no address space is created; or memory runs out when a page
table is to be allocated, and no page has been copied to the frame with its address. -/
def FailsClean (s : Vm) (src : ℕ) : Prop :=
  s.freeFrames.length < 6 ∨
    ((cloneAllocs s.mem src)[s.freeFrames.length - 6]? = some .table ∧ ¬CopiedToItself s src)

/-- A copy fails, with the same frames allocated or not, or there are enough free frames. -/
theorem clone_cases (h : FrameInv K excl roots s) (hsrc : roots src) :
    ((vmmCloneAddressSpace K.boot s src).1 = 0 ∧
      s.freeFrames.length < 6 + (cloneAllocs s.mem src).length ∧
      ((∀ a, (vmmCloneAddressSpace K.boot s src).2.Used a ↔ s.Used a) ↔ FailsClean s src)) ∨
    ((vmmCloneAddressSpace K.boot s src).1 ≠ 0 ∧
      6 + (cloneAllocs s.mem src).length ≤ s.freeFrames.length ∧
      ((∀ a, (vmmDestroyAddressSpace K.boot (vmmCloneAddressSpace K.boot s src).2
        (vmmCloneAddressSpace K.boot s src).1).Used a ↔ s.Used a) ↔ ¬CopiedToItself s src)) := by
  obtain ⟨few, failed, same⟩ | ⟨enough, succeeded, destroyed⟩ | ⟨created, next, failed, used⟩ |
    ⟨created, next, failed, used, unused⟩ := cloneOutcome h hsrc
  · exact .inl ⟨failed, by omega, iff_of_true same.used (.inl few)⟩
  · exact .inr ⟨succeeded, enough, used_iff_of_lost destroyed⟩
  · have hlt := (List.getElem?_eq_some_iff.1 next).1
    refine .inl ⟨failed, by omega, (used_iff_of_lost used).trans ⟨fun hnot => .inr ⟨next, hnot⟩, ?_⟩⟩
    rintro (hfew | ⟨-, hnot⟩)
    · omega
    · exact hnot
  · have hlt := (List.getElem?_eq_some_iff.1 next).1
    refine .inl ⟨failed, by omega, iff_of_false (fun hsame => unused ((hsame _).1 used)) ?_⟩
    rintro (hfew | ⟨htable, -⟩)
    · omega
    · rw [next] at htable
      cases htable

/-- A failed copy leaks nothing, if memory runs out at the right point. In every state of the page tables and
for every live address space, a call of `vmm_clone_address_space` that returns 0 leaves the same frames
allocated if and only if the call does not fail at all, since there are enough free frames, or fails as
`FailsClean` says. -/
theorem clone_failure_clean_iff (K : Kernel) (excl : Prop) (roots : ℕ → Prop) (s : Vm)
    (h : FrameInv K excl roots s) (src : ℕ) (hsrc : roots src) :
    ((vmmCloneAddressSpace K.boot s src).1 = 0 →
      ∀ a, (vmmCloneAddressSpace K.boot s src).2.Used a ↔ s.Used a) ↔
    (6 + (cloneAllocs s.mem src).length ≤ s.freeFrames.length ∨ FailsClean s src) := by
  obtain ⟨failed, hlt, hsame⟩ | ⟨succeeded, henough, -⟩ := clone_cases h hsrc
  · rw [forall_prop_of_true failed, hsame]
    exact (or_iff_right (not_le.2 hlt)).symm
  · exact iff_of_true (fun hz => (succeeded hz).elim) (.inl henough)

end

/-! ## A small machine -/

/-- A new address space of the example kernel, in the frames 7 to 12. The frame 512 is free, and those from
1024 on are. -/
def smallSpace : Vm where
  mem a :=
    if a = 7 * 4096 then fun i => if i = 0 then (8 * 4096) ||| 7 else 0
    else if a = 8 * 4096 then fun i => if i < 4 then ((9 + i) * 4096) ||| 7 else 0
    else if 9 * 4096 ≤ a ∧ a < 13 * 4096 then bootTables 4096 (a - 6 * 4096)
    else bootTables 4096 a
  pmm := ⟨fun i => decide (i < 1024 ∧ i ≠ 512), 1025, 1023⟩

theorem spaceBuilt_small :
    SpaceBuilt demoKernel demoVm smallSpace (7 * 4096) (8 * 4096) fun i => (9 + i) * 4096 where
  ext := by
    have hused : ∀ a, demoVm.Used a →
        a / 4096 < 1024 ∧ a / 4096 ≠ 512 ∧ ¬(7 * 4096 ≤ a ∧ a < 13 * 4096) := by
      intro a ha
      have hbit := of_decide_eq_true ha.2
      omega
    refine ⟨fun a ha => ⟨ha.1, decide_eq_true ⟨(hused a ha).1, (hused a ha).2.1⟩⟩, fun a ha _ => ?_⟩
    have hout := (hused a ha).2.2
    have hmem : smallSpace.mem a = bootTables 4096 a := by
      simp only [smallSpace]
      rw [if_neg (by omega), if_neg (by omega), if_neg (by omega)]
    exact hmem
  fresh_root := ⟨by decide, by decide⟩
  fresh_pdpt := ⟨by decide, by decide⟩
  fresh_pd i hi := by
    refine ⟨fun h => ?_, by omega, decide_eq_true (by omega)⟩
    have hbit := of_decide_eq_true h.2
    omega
  ne_pdpt := by decide
  pd_ne_root := by decide
  pd_ne_pdpt := by decide
  inj i _ i' _ h := by omega
  mem_root := rfl
  mem_pdpt := rfl
  mem_pd i hi := by
    simp only [smallSpace]
    rw [if_neg (by omega), if_neg (by omega), if_pos (by omega)]
    exact congrArg (bootTables 4096) (by omega : (9 + i) * 4096 - 6 * 4096 = 4096 + (2 + i) * 4096)

/-- A page table that maps the page at 6 MB to the frame 1024 and the other pages of its 2 MB to
themselves. -/
def smallPt (k : ℕ) : ℕ := if k = 0 then 1024 * 4096 ||| 7 else (0x600000 + k * 4096) ||| 7

/-- The frames up to 1024 are taken, and there are `n` more; the frame 512 has the page table. -/
def smallFrames (n : ℕ) : Vm :=
  Vm.setPage ⟨smallSpace.mem, fun i => decide (i < 1025), 1025 + n, 1025⟩ (512 * 4096) smallPt

/-- The address space with this page table, when `n` frames are left. -/
def smallVm (n : ℕ) : Vm := (smallFrames n).set (9 * 4096) 3 (512 * 4096 ||| 7)

theorem frameInv_small (n : ℕ) : FrameInv demoKernel True (· = 7 * 4096) (smallVm n) := by
  have hinv : FrameInv demoKernel True (· = 7 * 4096) smallSpace :=
    (spaceBuilt_small.frameInv (booted_demo.frameInv True)).mono fun x hx => .inr hx
  have hnot : ¬smallSpace.Used (512 * 4096) := by decide
  have hx : smallSpace.Ext (smallFrames n) := by
    refine ⟨fun a ha => ⟨ha.1, decide_eq_true ?_⟩, fun a ha _ => Vm.mem_setPage_ne ?_⟩
    · have hbit := of_decide_eq_true ha.2
      omega
    · rintro rfl
      exact hnot ha
  have hloose : ∀ {f}, ¬smallSpace.Used f → (smallFrames n).Used f →
      Loose demoKernel True (· = 7 * 4096) (smallFrames n) f :=
    fun hf hf' => hinv.loose_of_fresh hx ⟨hf, hf'⟩
  have hpt := hloose hnot ⟨rfl, rfl⟩
  have hpage := hloose (f := 1024 * 4096) (by decide) ⟨rfl, rfl⟩
  have hgrow := TablesGrow.of_ext hinv hx
  have hpd := hgrow.table _ _ _ rfl (spaceBuilt_small.tableAt_pd (i := 0) (by decide))
  -- the only user page of the table is the first one
  have huser : ∀ k < 512, Present (smallPt k) → pteAddr (smallPt k) ≠ vpn [k, 3, 0, 0] * 4096 →
      k = 0 ∧ pteAddr (smallPt k) = 1024 * 4096 := by
    intro k hk _ hne
    by_cases hz : k = 0
    · subst hz
      exact ⟨rfl, rfl⟩
    · refine (hne ?_).elim
      rw [smallPt, if_neg hz, pteAddr_or (by omega) (by decide)]
      simp only [vpn]
      omega
  have hmem : (smallFrames n).mem (512 * 4096) = smallPt := Vm.mem_setPage_self
  refine hgrow.inv.link (q := [0, 0]) rfl hpd (by decide) (by decide) (by decide) (by decide) ?_
    ⟨hpt.used, hpt.not_kernel, hpt.not_table, hpt.not_user trivial, fun hlen => absurd hlen (by decide),
      ?_, ?_⟩
  · rw [tableChild, if_neg]
    rintro ⟨-, -, -, hh⟩
    have hpd₀ : (smallFrames n).mem (9 * 4096) = smallSpace.mem (9 * 4096) := Vm.mem_setPage_ne (by decide)
    rw [hpd₀] at hh
    exact hh (by decide +kernel)
  · intro k hk hp hne
    rw [show pteAddr (512 * 4096 ||| 7) = 512 * 4096 from rfl, hmem] at hp hne ⊢
    rw [(huser k hk hp hne).2]
    exact ⟨hpage.used, hpage.not_kernel, hpage.not_table, by decide, hpage.not_user⟩
  · intro _ k hk k' hk' hp hne hp' hne' _
    rw [show pteAddr (512 * 4096 ||| 7) = 512 * 4096 from rfl, hmem] at hp hne hp' hne'
    rw [(huser k hk hp hne).1, (huser k' hk' hp' hne').1]

/-- A copy takes a page table and a page. -/
theorem cloneAllocs_small (n : ℕ) :
    cloneAllocs (smallVm n).mem (7 * 4096) = [.table, .page 0x600000] :=
  (by decide +kernel : cloneAllocs (smallVm 0).mem (7 * 4096) = [.table, .page 0x600000])

/-- With six free frames there is none for the page table. -/
theorem clone_failure_clean_iff_small :
    FailsClean (smallVm 6) (7 * 4096) ∧
      (((vmmCloneAddressSpace demoKernel.boot (smallVm 6) (7 * 4096)).1 = 0 →
        ∀ a, (vmmCloneAddressSpace demoKernel.boot (smallVm 6) (7 * 4096)).2.Used a ↔ (smallVm 6).Used a) ↔
      (6 + (cloneAllocs (smallVm 6).mem (7 * 4096)).length ≤ (smallVm 6).freeFrames.length ∨
        FailsClean (smallVm 6) (7 * 4096))) := by
  have hfree : (smallVm 6).freeFrames.length = 6 := by decide +kernel
  refine ⟨.inr ⟨?_, ?_⟩, clone_failure_clean_iff _ _ _ _ (frameInv_small 6) _ rfl⟩
  · rw [hfree, cloneAllocs_small]
    rfl
  · rintro ⟨x, hx, -⟩
    rw [List.drop_eq_nil_of_le hfree.le, List.zip_nil_right] at hx
    cases hx

/-- With seven free frames there is none for the page, and a frame gets lost. -/
theorem clone_leaks_page_table :
    (vmmCloneAddressSpace demoKernel.boot (smallVm 7) (7 * 4096)).1 = 0 ∧
      ∃ a, (vmmCloneAddressSpace demoKernel.boot (smallVm 7) (7 * 4096)).2.Used a ∧ ¬(smallVm 7).Used a := by
  have hfree : (smallVm 7).freeFrames.length = 7 := by decide +kernel
  have hnext : (cloneAllocs (smallVm 7).mem (7 * 4096))[(smallVm 7).freeFrames.length - 6]? =
      some (.page 0x600000) := by
    rw [hfree, cloneAllocs_small]
    rfl
  have hend : CloneOutcome demoKernel (smallVm 7) (7 * 4096) := cloneOutcome (frameInv_small 7) rfl
  obtain ⟨few, -⟩ | ⟨enough, -⟩ | ⟨-, next, -⟩ | ⟨-, -, failed, used, unused⟩ := hend
  · omega
  · rw [cloneAllocs_small, hfree] at enough
    exact absurd enough (by decide)
  · rw [hnext] at next
    cases next
  · exact ⟨failed, _, used, unused⟩

end PlantOS.Mm
