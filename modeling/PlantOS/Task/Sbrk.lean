import PlantOS.Task.Mmap

/-!
# `SYS_SBRK`

The loop of `SYS_SBRK` leaves on the first page without a frame, but the code after it is that of success:
the break moves and the old one is returned. A page for whose table there is no frame is passed over in
silence, and no page of the range is looked at before it is mapped anew.

`sbrk_contract_iff` says when the call does what its caller relies on, in a state and for a range that hide no
frame which the kernel uses: the loop clears pages and builds page tables under the page table of the process.
Shape of the converse: a page that
the loop passed over can only be right if it was an identity page and its frame was taken, and lost, for a
page that was passed over as well. As frames and pages are both taken in ascending order, that page is the
same one (`served_of_mapped`).

Reference: `cpu/syscall.c`.
-/

namespace PlantOS.Task

open PlantOS.Mm Word

/-- The processor accepts the address: its upper 17 bits are equal. -/
def Canonical (v : ℕ) : Prop := v < 2 ^ 47 ∨ (2 ^ 64 - 2 ^ 47 ≤ v ∧ v < 2 ^ 64)

/-- The value of a word as an `int64_t`. -/
def toInt64 (x : ℕ) : ℤ := if x < 2 ^ 63 then x else x - 2 ^ 64

/-- The address lies in the pages between the two breaks. -/
def Between (brk brk' v : ℕ) : Prop := roundUp brk ≤ v ∧ v < roundUp brk'

/-- What a call that returns the old break promises. The frame of a new page was free before, is its own and
holds zeros. -/
structure SbrkGrown (roots : ℕ → Prop) (s : Vm) (t : Proc) (increment : ℕ) (r : SysResult) : Prop where
  brk : (r.proc.brk : ℤ) = t.brk + toInt64 increment
  mapped : ∀ p, p % 4096 = 0 → Between t.brk r.proc.brk p → Canonical p ∧
    ∃ i ∈ s.freePages, i ∉ r.vm.freePages ∧ physAddr r.vm.mem t.cr3 p = some (i * 4096) ∧
      r.vm.mem (i * 4096) = (fun _ => 0) ∧ ¬IsTable r.vm.mem roots (i * 4096)
  distinct : ∀ p p', p % 4096 = 0 → p' % 4096 = 0 → Between t.brk r.proc.brk p → Between t.brk r.proc.brk p' →
    physAddr r.vm.mem t.cr3 p = physAddr r.vm.mem t.cr3 p' → p = p'
  outside : ∀ r' v, roots r' → Canonical v → ¬(r' = t.cr3 ∧ Between t.brk r.proc.brk v) →
    physAddr r.vm.mem r' v = physAddr s.mem r' v
  moved : ∀ r' v a, roots r' → Canonical v → physAddr s.mem r' v = some a → a ≠ v % 2 ^ 48 →
    physAddr r.vm.mem r' v = some a
  contents : ∀ f, s.Used f → ¬IsTable s.mem roots f → r.vm.mem f = s.mem f

/-- The contract of `SYS_SBRK`: the heap has grown, or -1 is returned and nothing has changed. -/
structure SbrkContract (roots : ℕ → Prop) (s : Vm) (t : Proc) (increment : ℕ) (r : SysResult) : Prop where
  grown : r.rax = t.brk → SbrkGrown roots s t increment r
  failed : r.rax = sysError →
    r.proc.brk = t.brk ∧ SamePhys roots s r.vm ∧ r.vm.freePages = s.freePages

/-- There is a frame for the page, and the page can be mapped to it or is so already. -/
def PageServed (cr3 : ℕ) (s : Vm) (p : ℕ) : Prop :=
  s.freePages.Nonempty ∧
    (Mappable s.mem s.alloc.2.freePages cr3 p ∨ physAddr s.mem cr3 p = some s.alloc.1)

/-- The condition for the contract: nothing is asked for, or less than nothing; or the range consists of
canonical addresses, nothing but the identity map is mapped there, and every page is served in its turn. -/
def SbrkServed (s : Vm) (t : Proc) (increment : ℕ) : Prop :=
  increment = 0 ∨ (2 ^ 63 ≤ increment ∧ t.brk ≠ sysError) ∨
    (increment < 2 ^ 63 ∧ t.brk + increment < 2 ^ 64 ∧
      (roundUp t.brk = roundUp (t.brk + increment) ∨
        (roundUp (t.brk + increment) < 2 ^ 64 ∧
          (∀ v, Between t.brk (t.brk + increment) v →
            Canonical v ∧ ∀ a, physAddr s.mem t.cr3 v = some a → a = v % 2 ^ 48) ∧
          Run.Admits (newPage t.cr3 userRw) (PageServed t.cr3) s
            (pagesFrom (roundUp t.brk) ((roundUp (t.brk + increment) - roundUp t.brk) / 4096)))))

theorem Canonical.pagePath_ne {v w : ℕ} (hv : Canonical v) (hw : Canonical w) (hne : v / 4096 ≠ w / 4096) :
    pagePath v ≠ pagePath w := by
  rw [Canonical] at hv hw
  intro hpath
  have := pagePath_eq_iff.1 hpath
  omega

theorem Canonical.mod_lt {v w : ℕ} (hv : Canonical v) (hw : Canonical w) (hlt : v < w) :
    v % 2 ^ 48 < w % 2 ^ 48 := by
  rw [Canonical] at hv hw
  omega

/-! ## The loop -/

section

variable {K : Kernel} {excl : Prop} {roots : ℕ → Prop} {s : Vm} {r base n k : ℕ}
variable (h : FrameInv K excl roots s) (hr : roots r) (hal : base % 4096 = 0)
  (hcan : ∀ k < n, Canonical (base + k * 4096))
include h hr

theorem loop_inv (base k : ℕ) : FrameInv K excl roots (loopState r userRw base s k) :=
  (addsPages_run h hr (by decide) (pagesFrom base k)).inv

/-- The frame that the loop takes for its page number `k`. -/
theorem loop_frame (hk : k < n) (hfree : (loopState r userRw base s k).freePages.Nonempty) :
    ∃ i ∈ (loopState r userRw base s k).freePages, (loopState r userRw base s k).alloc.1 = i * 4096 ∧
      (∀ j ∈ (loopState r userRw base s k).freePages, i ≤ j) ∧
      i ∉ (loopState r userRw base s (k + 1)).freePages ∧
      (loopState r userRw base s n).mem (i * 4096) = (fun _ => 0) ∧
      ¬IsTable (loopState r userRw base s n).mem roots (i * 4096) := by
  have hflags : userRw < 4096 := by decide
  have hinv := loop_inv h hr base k
  obtain ⟨-, hclears, -⟩ := mapNewPage_free hinv hr hfree (base + k * 4096) hflags
  have hrest := addsPages_loopState h hr hflags base (k + 1) (n - (k + 1))
  rw [Nat.add_sub_cancel' hk, loopState_succ] at hrest
  obtain ⟨hempty, -⟩ | ⟨i, hi, hmin, haddr, -⟩ := Vm.alloc_lowest hinv.used_zero
  · rw [hempty] at hfree
    exact absurd hfree Finset.not_nonempty_empty
  have hdiv : (loopState r userRw base s k).alloc.1 / 4096 = i := by omega
  obtain ⟨htable, hmem⟩ := hrest.data _ hclears.fresh.used hclears.not_table
  refine ⟨i, hi, haddr, hmin, ?_, ?_, ?_⟩
  · rw [loopState_succ]
    intro hmem'
    exact (Finset.mem_erase.1 (hclears.free hmem')).1 hdiv.symm
  · rw [← haddr]
    exact hmem.trans hclears.zero
  · rw [← haddr]
    exact htable

include hal hcan

/-- The translation of a page changes in its turn only. -/
theorem loop_phys (hk : k < n) :
    physAddr (loopState r userRw base s k).mem r (base + k * 4096) = physAddr s.mem r (base + k * 4096) ∧
      physAddr (loopState r userRw base s n).mem r (base + k * 4096) =
        physAddr (loopState r userRw base s (k + 1)).mem r (base + k * 4096) := by
  have hflags : userRw < 4096 := by decide
  have hpre := addsPages_loopState h hr hflags base 0 k
  have hpost := addsPages_loopState h hr hflags base (k + 1) (n - (k + 1))
  rw [Nat.add_sub_cancel' hk] at hpost
  rw [Nat.zero_add] at hpre
  refine ⟨hpre.phys _ _ hr fun _ p hp => ?_, hpost.phys _ _ hr fun _ p hp => ?_⟩
  · obtain ⟨j, hj, rfl⟩ := mem_pagesFrom.1 hp
    have hp := hcan j (by omega)
    rw [Nat.zero_mul, Nat.add_zero]
    exact (hcan k hk).pagePath_ne hp (by omega)
  · obtain ⟨j, hj, rfl⟩ := mem_pagesFrom.1 hp
    have hp := hcan (k + 1 + j) (by omega)
    rw [Nat.add_mul, ← Nat.add_assoc] at hp
    exact (hcan k hk).pagePath_ne hp (by omega)

/-- A page that is served is mapped to its frame in the end. -/
theorem loop_served (hk : k < n)
    (hserved : PageServed r (loopState r userRw base s k) (base + k * 4096)) :
    physAddr (loopState r userRw base s n).mem r (base + k * 4096) =
      some (loopState r userRw base s k).alloc.1 := by
  have hflags : userRw < 4096 := by decide
  have hinv := loop_inv h hr base k
  obtain ⟨hfree, hmap⟩ := hserved
  obtain ⟨-, hclears, hmaps, hsame⟩ := mapNewPage_free hinv hr hfree (base + k * 4096) hflags
  rw [(loop_phys h hr hal hcan hk).2, loopState_succ]
  by_cases hready : PageReady (loopState r userRw base s k) r (base + k * 4096)
  · have haligned := hclears.fresh.aligned
    rw [newPage, hmaps hready _ _ hr, if_pos ⟨rfl, rfl⟩, ptPhys,
      if_pos ((present_or haligned hflags).2 (by decide)), pteAddr_or haligned hflags]
    have hoff : (base + k * 4096) % 4096 = 0 := by omega
    rw [hoff, Nat.add_zero]
  · rw [newPage, hsame hready _ _ hr]
    exact hmap.resolve_left fun hm => hready ⟨hfree, hm⟩

/-- A page that is not served keeps its translation. -/
theorem loop_passed (hk : k < n)
    (hnot : ¬PageServed r (loopState r userRw base s k) (base + k * 4096)) :
    physAddr (loopState r userRw base s n).mem r (base + k * 4096) = physAddr s.mem r (base + k * 4096) := by
  have hflags : userRw < 4096 := by decide
  have hinv := loop_inv h hr base k
  obtain ⟨hpre, hpost⟩ := loop_phys h hr hal hcan hk
  rw [hpost, ← hpre, loopState_succ]
  obtain hempty | hfree := (loopState r userRw base s k).freePages.eq_empty_or_nonempty
  · rw [newPage, mapNewPage_empty hinv.used_zero hempty]
  · exact (mapNewPage_free hinv hr hfree (base + k * 4096) hflags).2.2.2
      (fun hready => hnot ⟨hfree, .inl hready.2⟩) _ _ hr

omit hal hcan

/-- The frames taken by the loop are those of its pages and page tables. -/
theorem loop_taken {i : ℕ} (hk : k ≤ n) (hi : i ∈ s.freePages)
    (hnot : i ∉ (loopState r userRw base s k).freePages)
    (htable : ¬IsTable (loopState r userRw base s n).mem roots (i * 4096)) :
    ∃ j < k, (loopState r userRw base s j).freePages.Nonempty ∧
      (loopState r userRw base s j).alloc.1 = i * 4096 := by
  induction k with
  | zero => exact absurd hi hnot
  | succ k ih =>
    by_cases hbefore : i ∈ (loopState r userRw base s k).freePages
    swap
    · obtain ⟨j, hj, hj'⟩ := ih (by omega) hbefore
      exact ⟨j, by omega, hj'⟩
    have hflags : userRw < 4096 := by decide
    obtain ⟨-, hclears, -⟩ := mapNewPage_free (loop_inv h hr base k) hr ⟨i, hbefore⟩ (base + k * 4096) hflags
    rw [loopState_succ] at hnot
    refine ⟨k, by omega, ⟨i, hbefore⟩, ?_⟩
    by_contra hne
    refine htable ?_
    have hrest := addsPages_loopState h hr hflags base (k + 1) (n - (k + 1))
    rw [Nat.add_sub_cancel' hk, loopState_succ] at hrest
    refine hrest.keep _ (hclears.table i hbefore (fun heq => hne ?_) hnot)
    have := hclears.fresh.aligned
    omega

/-- The loop takes frames in ascending order. -/
theorem loop_ascending {j : ℕ} (hj : (loopState r userRw base s j).freePages.Nonempty)
    (hk : (loopState r userRw base s k).freePages.Nonempty) (hlt : j < k) :
    (loopState r userRw base s j).alloc.1 < (loopState r userRw base s k).alloc.1 := by
  obtain ⟨i, -, haddr, hmin, hnot, -⟩ := loop_frame (n := j + 1) h hr (Nat.lt_succ_self j) hj
  obtain ⟨i', hi', haddr', -⟩ := loop_frame (n := k + 1) h hr (Nat.lt_succ_self k) hk
  have hrest := addsPages_loopState h hr (by decide : userRw < 4096) base (j + 1) (k - (j + 1))
  rw [Nat.add_sub_cancel' hlt] at hrest
  have hstep := addsPages_loopState h hr (by decide : userRw < 4096) base j 1
  have hmem := hrest.free hi'
  have hle := hmin i' (hstep.free hmem)
  have hne : i' ≠ i := fun heq => hnot (heq ▸ hmem)
  omega

include hal hcan

/-- If the pages of the loop are mapped as they should be in the end, then every page was served in its
turn. -/
theorem served_of_mapped
    (hid : ∀ k < n, ∀ a, physAddr s.mem r (base + k * 4096) = some a → a = (base + k * 4096) % 2 ^ 48)
    (hmap : ∀ k < n, ∃ i ∈ s.freePages, i ∉ (loopState r userRw base s n).freePages ∧
      physAddr (loopState r userRw base s n).mem r (base + k * 4096) = some (i * 4096) ∧
      ¬IsTable (loopState r userRw base s n).mem roots (i * 4096))
    (hinj : ∀ j < n, ∀ k < n, physAddr (loopState r userRw base s n).mem r (base + j * 4096) =
      physAddr (loopState r userRw base s n).mem r (base + k * 4096) → j = k) :
    ∀ k < n, PageServed r (loopState r userRw base s k) (base + k * 4096) := by
  let Passed := {k : Fin n // ¬PageServed r (loopState r userRw base s k) (base + k * 4096)}
  -- the frame of a page that was passed over is the one lost at such a page
  have hex : ∀ k : Passed, ∃ j : Passed, (loopState r userRw base s j.1).freePages.Nonempty ∧
      (loopState r userRw base s j.1).alloc.1 = (base + k.1 * 4096) % 2 ^ 48 ∧
      physAddr s.mem r (base + k.1 * 4096) = some ((base + k.1 * 4096) % 2 ^ 48) := by
    rintro ⟨⟨k, hk⟩, hnot⟩
    obtain ⟨i, hi, htaken, hphys, htable⟩ := hmap k hk
    have hs := (loop_passed h hr hal hcan hk hnot).symm.trans hphys
    have hown := hid k hk _ hs
    obtain ⟨j, hj, hfree, haddr⟩ := loop_taken h hr (Nat.le_refl n) hi htaken htable
    refine ⟨⟨⟨j, hj⟩, fun hserved => ?_⟩, hfree, haddr.trans hown, hown ▸ hs⟩
    have hserved' := loop_served h hr hal hcan hj hserved
    rw [haddr, ← hphys] at hserved'
    obtain rfl := hinj j hj k hk hserved'
    exact hnot hserved
  choose f hfree haddr hs using hex
  have hmono : StrictMono f := by
    intro j k hlt
    by_contra hle
    have hmod := (hcan _ j.1.2).mod_lt (hcan _ k.1.2) (by
      have : (j.1 : ℕ) < k.1 := hlt
      omega)
    rw [← haddr j, ← haddr k] at hmod
    obtain heq | hlt' := eq_or_lt_of_le (not_lt.1 hle)
    · rw [heq] at hmod
      exact lt_irrefl _ hmod
    · exact lt_asymm hmod (loop_ascending h hr (hfree k) (hfree j) hlt')
  intro k hk
  by_contra hnot
  have hfix : f ⟨⟨k, hk⟩, hnot⟩ = ⟨⟨k, hk⟩, hnot⟩ := le_antisymm hmono.apply_le hmono.le_apply
  have hfree' := hfree ⟨⟨k, hk⟩, hnot⟩
  have haddr' := haddr ⟨⟨k, hk⟩, hnot⟩
  rw [hfix] at hfree' haddr'
  refine hnot ⟨hfree', .inr ?_⟩
  rw [(loop_phys h hr hal hcan hk).1, hs ⟨⟨k, hk⟩, hnot⟩, ← haddr']

end

/-! ## The call -/

theorem pageUp_eq_ite {x : ℕ} (hx : x < 2 ^ 64) : pageUp x = if roundUp x < 2 ^ 64 then roundUp x else 0 := by
  rw [pageUp, roundUp]
  by_cases hlt : x + 4095 < 2 ^ 64
  · rw [wrap_of_lt (by push_cast; rfl) hlt, if_pos (by omega)]
  · have hwrap : wrap 64 ((x : ℤ) + 4095) = x + 4095 - 2 ^ 64 := by
      rw [wrap]
      omega
    rw [hwrap, if_neg (by omega)]
    omega

theorem roundUp_mono {x y : ℕ} (h : x ≤ y) : roundUp x ≤ roundUp y :=
  Nat.mul_le_mul_right 4096 (Nat.div_le_div_right (Nat.add_le_add_right h 4095))

theorem roundUp_mod (x : ℕ) : roundUp x % 4096 = 0 := Nat.mul_mod_left _ _

/-- The pages between two breaks. -/
theorem between_page_iff {brk brk' p : ℕ} (hp : p % 4096 = 0) :
    Between brk brk' p ↔ ∃ k < (roundUp brk' - roundUp brk) / 4096, p = roundUp brk + k * 4096 := by
  have h1 := roundUp_mod brk
  have h2 := roundUp_mod brk'
  rw [Between]
  constructor
  · intro hb
    exact ⟨(p - roundUp brk) / 4096, by omega, by omega⟩
  · rintro ⟨k, hk, rfl⟩
    omega

section

variable {K : Kernel} {excl : Prop} {roots : ℕ → Prop} {s : Vm} {t : Proc} {increment : ℕ}

/-- A call for more memory is the loop. -/
theorem sysSbrk_eq (h : FrameInv K excl roots s) (hr : roots t.cr3) (hpos : increment ≠ 0)
    (hlt : increment < 2 ^ 63) :
    sysSbrk s t increment = ⟨t.brk, loopState t.cr3 userRw (pageUp t.brk) s
      ((pageUp (wrap 64 (t.brk + increment)) - pageUp t.brk) / 4096),
      { t with brk := wrap 64 (t.brk + increment) }⟩ := by
  rw [sysSbrk, if_neg hpos, if_neg (not_le.2 hlt)]
  dsimp only
  rw [mapNewPages_eq_run h hr (by decide)]
  rfl

/-- If the range is empty, or every page is served, the heap has grown. -/
theorem sbrkGrown_of_served (h : FrameInv K excl roots s) (hr : roots t.cr3) {n : ℕ}
    (hlt : increment < 2 ^ 63) (hn : n = (roundUp (t.brk + increment) - roundUp t.brk) / 4096)
    (hrange : ∀ v, Between t.brk (t.brk + increment) v →
      Canonical v ∧ ∀ a, physAddr s.mem t.cr3 v = some a → a = v % 2 ^ 48)
    (hserved : Run.Admits (newPage t.cr3 userRw) (PageServed t.cr3) s (pagesFrom (roundUp t.brk) n)) :
    SbrkGrown roots s t increment
      ⟨t.brk, loopState t.cr3 userRw (roundUp t.brk) s n, { t with brk := t.brk + increment }⟩ := by
  have hal := roundUp_mod t.brk
  have hbetween : ∀ k < n, Between t.brk (t.brk + increment) (roundUp t.brk + k * 4096) := fun k hk =>
    (between_page_iff (by omega)).2 ⟨k, hn ▸ hk, rfl⟩
  have hcan : ∀ k < n, Canonical (roundUp t.brk + k * 4096) := fun k hk => (hrange _ (hbetween k hk)).1
  rw [admits_pagesFrom] at hserved
  have hloop := addsPages_run h hr (by decide : userRw < 4096) (pagesFrom (roundUp t.brk) n)
  -- The loop maps only pages between the old and the new break.
  have houtside : ∀ r' v, roots r' → Canonical v → ¬(r' = t.cr3 ∧ Between t.brk (t.brk + increment) v) →
      physAddr (loopState t.cr3 userRw (roundUp t.brk) s n).mem r' v = physAddr s.mem r' v := by
    intro r' v hr' hv hout
    refine hloop.phys r' v hr' fun heq p hp => ?_
    obtain ⟨k, hk, rfl⟩ := mem_pagesFrom.1 hp
    refine hv.pagePath_ne (hcan k hk) fun hpage => hout ⟨heq, ?_⟩
    have hb := hbetween k hk
    have h2 := roundUp_mod (t.brk + increment)
    rw [Between] at hb ⊢
    omega
  refine ⟨?_, fun p hp hb => ⟨(hrange p hb).1, ?_⟩, fun p p' hp hp' hb hb' heq => ?_, houtside,
    fun r' v a hr' hv ha hne => ?_, fun f hf ht => (hloop.data f hf ht).2⟩
  · rw [toInt64, if_pos hlt]
    push_cast
    rfl
  · obtain ⟨k, hk, rfl⟩ := (between_page_iff hp).1 hb
    rw [← hn] at hk
    -- The frame of page `k` is taken in iteration `k`: it was free before and stays taken.
    obtain ⟨i, hi, haddr, -, hnot, hzero, htable⟩ := loop_frame h hr hk (hserved k hk).1
    have hpre := addsPages_loopState h hr (by decide : userRw < 4096) (roundUp t.brk) 0 k
    have hpost := addsPages_loopState h hr (by decide : userRw < 4096) (roundUp t.brk) (k + 1) (n - (k + 1))
    rw [Nat.zero_add] at hpre
    rw [Nat.add_sub_cancel' hk] at hpost
    refine ⟨i, hpre.free hi, fun hmem => hnot (hpost.free hmem), ?_, hzero, htable⟩
    rw [loop_served h hr hal hcan hk (hserved k hk), haddr]
  · obtain ⟨j, hj, rfl⟩ := (between_page_iff hp).1 hb
    obtain ⟨k, hk, rfl⟩ := (between_page_iff hp').1 hb'
    rw [← hn] at hj hk
    dsimp only at heq
    rw [loop_served h hr hal hcan hj (hserved j hj), loop_served h hr hal hcan hk (hserved k hk),
      Option.some.injEq] at heq
    -- The frames are given out in ascending order, so two pages do not share one.
    obtain hjk | rfl | hkj := lt_trichotomy j k
    · exact absurd heq (loop_ascending h hr (hserved j hj).1 (hserved k hk).1 hjk).ne
    · rfl
    · exact absurd heq (loop_ascending h hr (hserved k hk).1 (hserved j hj).1 hkj).ne'
  · rw [← ha]
    refine houtside r' v hr' hv ?_
    rintro ⟨rfl, hb⟩
    exact hne ((hrange v hb).2 a ha)

/-- The contract for a range without pages. -/
theorem sbrkGrown_of_empty (h : FrameInv K excl roots s) (hr : roots t.cr3) (hlt : increment < 2 ^ 63)
    (hempty : roundUp t.brk = roundUp (t.brk + increment)) :
    SbrkGrown roots s t increment ⟨t.brk, s, { t with brk := t.brk + increment }⟩ := by
  refine sbrkGrown_of_served (n := 0) h hr hlt (by rw [hempty, Nat.sub_self]) (fun v hb => ?_) trivial
  rw [Between, hempty] at hb
  omega

/-- If the heap has grown, the addresses of the range were identity addresses, and every page was served. -/
theorem served_of_sbrkGrown (h : FrameInv K excl roots s) (hr : roots t.cr3) {n : ℕ}
    (hn : n = (roundUp (t.brk + increment) - roundUp t.brk) / 4096)
    (hgrown : SbrkGrown roots s t increment
      ⟨t.brk, loopState t.cr3 userRw (roundUp t.brk) s n, { t with brk := t.brk + increment }⟩) :
    (∀ v, Between t.brk (t.brk + increment) v →
        Canonical v ∧ ∀ a, physAddr s.mem t.cr3 v = some a → a = v % 2 ^ 48) ∧
      Run.Admits (newPage t.cr3 userRw) (PageServed t.cr3) s (pagesFrom (roundUp t.brk) n) := by
  have hal := roundUp_mod t.brk
  have hal' := roundUp_mod (t.brk + increment)
  have hbetween : ∀ k < n, Between t.brk (t.brk + increment) (roundUp t.brk + k * 4096) := fun k hk =>
    (between_page_iff (by omega)).2 ⟨k, hn ▸ hk, rfl⟩
  have hrange : ∀ v, Between t.brk (t.brk + increment) v →
      Canonical v ∧ ∀ a, physAddr s.mem t.cr3 v = some a → a = v % 2 ^ 48 := by
    intro v hb
    have hpage : Between t.brk (t.brk + increment) (v / 4096 * 4096) := by
      rw [Between] at hb ⊢
      omega
    obtain ⟨hcan, i, hi, -, hphys, -⟩ := hgrown.mapped _ (Nat.mul_mod_left _ _) hpage
    have hcan' : Canonical v := by
      rw [Canonical] at hcan ⊢
      omega
    refine ⟨hcan', fun a ha => ?_⟩
    by_contra hne
    -- a page that was mapped elsewhere would have to keep its frame and to get a new one
    have hkept := hgrown.moved _ _ _ hr hcan' ha hne
    dsimp only at hphys hkept
    rw [physAddr_page, hphys, Option.map_some, Option.some.injEq] at hkept
    refine not_free_of_moved h hr ha hne ?_
    have hdiv : a / 4096 = i := by omega
    exact hdiv ▸ hi
  refine ⟨hrange, admits_pagesFrom.2 (served_of_mapped h hr hal ?_ ?_ ?_ ?_)⟩
  · exact fun k hk => (hrange _ (hbetween k hk)).1
  · exact fun k hk => (hrange _ (hbetween k hk)).2
  · intro k hk
    obtain ⟨-, i, hi, hnot, hphys, -, htable⟩ := hgrown.mapped _ (by omega) (hbetween k hk)
    exact ⟨i, hi, hnot, hphys, htable⟩
  · intro j hj k hk heq
    have := hgrown.distinct _ _ (by omega) (by omega) (hbetween j hj) (hbetween k hk) heq
    omega

/-- `SYS_SBRK` keeps its contract if and only if the range is served. -/
theorem sbrkContract_iff (h : FrameInv K excl roots s) (hr : roots t.cr3) (hbrk : t.brk < 2 ^ 64)
    (hinc : increment < 2 ^ 64) :
    SbrkContract roots s t increment (sysSbrk s t increment) ↔ SbrkServed s t increment := by
  by_cases hzero : increment = 0
  · subst hzero
    refine iff_of_true ⟨fun _ => ?_, fun _ => ⟨rfl, fun _ _ _ => rfl, rfl⟩⟩ (.inl rfl)
    exact sbrkGrown_of_empty h hr (by decide) rfl
  by_cases hneg : 2 ^ 63 ≤ increment
  · rw [sysSbrk, if_neg hzero, if_pos hneg]
    constructor
    · intro hcontract
      refine .inr (.inl ⟨hneg, fun herror => ?_⟩)
      have hbrk := (hcontract.grown herror.symm).brk
      rw [toInt64, if_neg (not_lt.2 hneg)] at hbrk
      dsimp only at hbrk
      omega
    · rintro (hc | ⟨-, hne⟩ | ⟨hc, -⟩)
      · exact absurd hc hzero
      · exact ⟨fun hrax => absurd hrax.symm hne, fun _ => ⟨rfl, fun _ _ _ => rfl, rfl⟩⟩
      · exact absurd hneg (not_le.2 hc)
  rw [not_le] at hneg
  rw [sysSbrk_eq h hr hzero hneg]
  constructor
  · intro hcontract
    have hgrown := hcontract.grown rfl
    have hsum : wrap 64 (t.brk + increment) = t.brk + increment := by
      have := hgrown.brk
      rw [toInt64, if_pos hneg] at this
      dsimp only at this
      omega
    have hlt : t.brk + increment < 2 ^ 64 := hsum ▸ wrap_lt 64 _
    rw [hsum] at hgrown
    refine .inr (.inr ⟨hneg, hlt, or_iff_not_imp_left.2 fun hne => ?_⟩)
    have hmono : roundUp t.brk < roundUp (t.brk + increment) :=
      lt_of_le_of_ne (roundUp_mono (Nat.le_add_right _ _)) hne
    have hup : roundUp (t.brk + increment) < 2 ^ 64 := by
      -- the loop ends at 0 and does not run
      by_contra hge
      rw [pageUp_eq_ite hlt, if_neg hge, Nat.zero_sub, Nat.zero_div] at hgrown
      obtain ⟨-, i, hi, hnot, -⟩ := hgrown.mapped _ (roundUp_mod t.brk) ⟨le_rfl, hmono⟩
      exact hnot hi
    rw [pageUp_eq_ite hlt, if_pos hup, pageUp_eq_ite hbrk, if_pos (hmono.trans hup)] at hgrown
    exact ⟨hup, served_of_sbrkGrown h hr rfl hgrown⟩
  · rintro (hc | ⟨hc, -⟩ | ⟨-, hlt, hrange⟩)
    · exact absurd hc hzero
    · exact absurd hc (not_le.2 hneg)
    have hsum : wrap 64 (t.brk + increment) = t.brk + increment := wrap_of_lt (by push_cast; rfl) hlt
    rw [hsum]
    refine ⟨fun _ => ?_, fun herror => ?_⟩
    · obtain hempty | ⟨hup, hcan, hserved⟩ := hrange
      · rw [pageUp_eq_ite hlt, pageUp_eq_ite hbrk, hempty, Nat.sub_self, Nat.zero_div]
        exact sbrkGrown_of_empty h hr hneg hempty
      · have hle : roundUp t.brk ≤ roundUp (t.brk + increment) := roundUp_mono (Nat.le_add_right _ _)
        rw [pageUp_eq_ite hlt, if_pos hup, pageUp_eq_ite hbrk, if_pos (hle.trans_lt hup)]
        exact sbrkGrown_of_served h hr hneg rfl hcan hserved
    · dsimp only at herror
      rw [sysError] at herror
      omega

end

/-- The first address space of the example machine, when all frames are taken. -/
def fullVm : Vm :=
  { (vmmCreateAddressSpace demoKernel.boot demoVm).2 with pmm := ⟨fun _ => true, 2 ^ 21, 2 ^ 21⟩ }

theorem freePages_full : fullVm.freePages = ∅ := by
  rw [Finset.eq_empty_iff_forall_notMem]
  intro i hi
  exact Bool.noConfusion (Vm.mem_freePages.1 hi).2

end PlantOS.Task
