import PlantOS.Common.Run
import PlantOS.Mm.VmmDirect
import PlantOS.Task.UserMemory

/-!
# The calls keep the page-table invariant

Every function of `UserMemory` keeps `DirectInv` for the address spaces of the live processes. The
functions get their frames from the allocator in one of three ways: a single cleared page that is mapped
at once (`mapNewPage`), the pages of a file that are allocated first, filled and then mapped (`elf_load`),
and the tables and copies of `vmm_create_address_space` and `vmm_clone_address_space`. For each there is
one lemma, and the calls are put together from them.

What the calls need is in `UserOk`: no page is asked for at the address of a frame that the kernel uses,
`SYS_MUNMAP` stays below the addresses that the page tables can tell apart, `elf_load` stays inside of the
pages it has allocated, the arguments of a program fit into its stack page, and `SYS_MMAP` does not run out
of memory.
-/

namespace PlantOS.Task

open PlantOS.Mm PlantOS.Fs Word

/-! ## Writes to given frames -/

/-- `s'` differs from `s` in the contents of the frames in `P` only. -/
structure WritesOnly (P : ℕ → Prop) (s s' : Vm) : Prop where
  pmm : s'.pmm = s.pmm
  mem : ∀ a, ¬P a → s'.mem a = s.mem a

section

variable {K : Kernel} {excl : Prop} {D roots P : ℕ → Prop} {s₀ s s' s'' : Vm} {r : ℕ}

theorem WritesOnly.refl (P : ℕ → Prop) (s : Vm) : WritesOnly P s s := ⟨rfl, fun _ _ => rfl⟩

theorem WritesOnly.trans (h : WritesOnly P s s') (h' : WritesOnly P s' s'') : WritesOnly P s s'' where
  pmm := h'.pmm.trans h.pmm
  mem a ha := (h'.mem a ha).trans (h.mem a ha)

theorem writesOnly_set {t i e : ℕ} (ht : P t) : WritesOnly P s (s.set t i e) where
  pmm := rfl
  mem _ ha := Vm.mem_set_ne fun hat => ha (hat ▸ ht)

theorem writesOnly_writeByte {dst : ℕ} {b : UInt8} (hdst : P (dst / 4096 * 4096)) :
    WritesOnly P s (writeByte s dst b) :=
  writesOnly_set hdst

theorem WritesOnly.used_iff (h : WritesOnly P s s') {a : ℕ} : s'.Used a ↔ s.Used a := by
  rw [Vm.Used, Vm.Used, h.pmm]

/-- Writes to frames that are neither tables nor the kernel's. -/
theorem WritesOnly.directInv (h : WritesOnly P s s') (hinv : DirectInv K True D roots s)
    (hP : ∀ a, P a → ¬IsTable s.mem roots a ∧ ¬K.Page a) : DirectInv K True D roots s' := by
  have hmem : ∀ a, IsTable s.mem roots a → s'.mem a = s.mem a :=
    fun a ha => h.mem a fun hPa => (hP a hPa).1 ha
  refine hinv.congr (hinv.toFrameInv.congr hmem ?_ fun a ha _ => h.used_iff.2 ha) hmem
  intro a ha
  exact h.mem a fun hPa => (hP a hPa).2 ha

/-- Writes to frames that `s₀` has not allocated. -/
theorem WritesOnly.ext (h : WritesOnly P s s') (hx : s₀.Ext s) (hP : ∀ a, P a → ¬s₀.Used a) :
    s₀.Ext s' where
  used a ha := h.used_iff.2 (hx.used a ha)
  mem a ha _ := (h.mem a fun hPa => hP a hPa ha).trans (hx.mem_eq ha)

/-! ## Single pages -/

/-- Allocating, clearing and mapping a page keeps the invariant. If there was a page, it is neither a
table nor the kernel's afterwards. -/
theorem mapNewPage_spec {va flags : ℕ} (h : DirectInv K excl D roots s) (hr : roots r)
    (hflags : flags < 4096) (hD : ¬D (pageOf va)) :
    DirectInv K excl D roots (mapNewPage s r va flags).2 ∧
      ((mapNewPage s r va flags).1 = true →
        ¬IsTable (mapNewPage s r va flags).2.mem roots s.alloc.1 ∧ ¬K.Page s.alloc.1 ∧
          s.alloc.1 % 4096 = 0) := by
  rw [mapNewPage]
  obtain heq | ⟨hne, hfresh, hext⟩ := Vm.alloc_cases h.used_zero
  · rw [heq, if_pos rfl]
    exact ⟨h, fun hf => absurd hf Bool.false_ne_true⟩
  · rw [if_neg hne]
    have hext' : s.Ext (s.alloc.2.setPage s.alloc.1 fun _ => 0) :=
      hext.setPage fun hu => (hfresh.not_used hu).elim
    have hfresh' : s.Fresh (s.alloc.2.setPage s.alloc.1 fun _ => 0) s.alloc.1 :=
      ⟨hfresh.not_used, hfresh.used⟩
    have haddr : pteAddr s.alloc.1 = s.alloc.1 :=
      Nat.div_mul_cancel (Nat.dvd_of_mod_eq_zero hfresh.aligned)
    have hloose := h.loose_of_fresh hext' hfresh'
    have hloose' : Loose K excl roots (s.alloc.2.setPage s.alloc.1 fun _ => 0)
        (pteAddr s.alloc.1) := by rwa [haddr]
    have hmap := vmmMapPageIn_spec (h.ext hext').toFrameInv hr va hloose' hflags
    refine ⟨(h.ext hext').mapPage hr hloose' hflags hD, fun _ => ⟨?_, hloose.not_kernel, hfresh.aligned⟩⟩
    exact (hmap.data _ hloose.used hloose.not_table).1

/-- The pages of a loop over `n` pages from `va` on. -/
def pagesFrom (va n : ℕ) : List ℕ := (List.range n).map fun k => va + k * 4096

theorem mem_pagesFrom {va n p : ℕ} : p ∈ pagesFrom va n ↔ ∃ k < n, p = va + k * 4096 := by
  simp [pagesFrom, eq_comm]

theorem pagesFrom_succ (va n : ℕ) : pagesFrom va (n + 1) = va :: pagesFrom (va + 4096) n := by
  rw [pagesFrom, List.range_succ_eq_map, List.map_cons, List.map_map, Nat.zero_mul, Nat.add_zero, pagesFrom]
  congr 1
  refine List.map_congr_left fun k _ => ?_
  rw [Function.comp_apply]
  omega

/-- The loops of `SYS_SBRK` and `SYS_MMAP`, page by page. -/
theorem mapNewPages_spec {flags n va : ℕ} (h : DirectInv K True D roots s) (hr : roots r)
    (hflags : flags < 4096) (hD : ∀ p ∈ pagesFrom va n, ¬D (pageOf p)) :
    DirectInv K True D roots (mapNewPages r flags n va s).2 := by
  induction n generalizing s va with
  | zero => exact h
  | succ n ih =>
    rw [pagesFrom_succ, List.forall_mem_cons] at hD
    have hpage := (mapNewPage_spec h hr hflags hD.1).1
    rw [mapNewPages]
    split
    · exact ih hpage hD.2
    · exact hpage

/-- The loop of `SYS_MUNMAP`. It only takes pages away. -/
theorem munmapPages_spec (h : DirectInv K True D roots s) (hr : roots r) (n : ℕ) {va : ℕ}
    (hal : va % 4096 = 0) (hlt : ∀ k < n, va + k * 4096 < 2 ^ 48) :
    DirectInv K True D roots (munmapPages r n va s) := by
  induction n generalizing s va with
  | zero => exact h
  | succ n ih =>
    rw [munmapPages]
    refine ih ?_ (by omega) ?_
    · split
      · rename_i hphys
        exact h.unmap hr hal (by simpa using hlt 0 (Nat.succ_pos n)) hphys.1 hphys.2
      · exact h
    · intro k hk
      have := hlt (k + 1) (by omega)
      omega

/-! ## Loading a file -/

/-- The pages that the loop of `elf_load` has when it ends are new and pairwise different; if it fails it
has released them. -/
theorem elfAllocPages_spec (h0 : s₀.Used 0) (n : ℕ) {pages : List ℕ} (hx : s₀.Ext s)
    (hfresh : ∀ p ∈ pages, s₀.Fresh s p) (hnodup : pages.Nodup) :
    s₀.Ext (elfAllocPages n pages s).2 ∧
      ∀ ps, (elfAllocPages n pages s).1 = some ps →
        ps.length = pages.length + n ∧ ps.Nodup ∧ ∀ p ∈ ps, s₀.Fresh (elfAllocPages n pages s).2 p := by
  induction n generalizing s pages with
  | zero =>
    refine ⟨hx, ?_⟩
    rintro ps ⟨⟩
    exact ⟨rfl, hnodup, hfresh⟩
  | succ n ih =>
    rw [elfAllocPages]
    obtain heq | ⟨hne, hnew, hext⟩ := Vm.alloc_cases (hx.used 0 h0)
    · rw [heq, if_pos rfl]
      have hfree := ext_foldl_free hx fun p hp => ⟨(hfresh p hp).not_used, (hfresh p hp).aligned⟩
      exact ⟨hfree, fun ps hps => absurd hps (by simp)⟩
    · rw [if_neg hne]
      have hnew₀ : s₀.Fresh s.alloc.2 s.alloc.1 := hnew.of_keeps hx
      have hx' : s₀.Ext (s.alloc.2.setPage s.alloc.1 fun _ => 0) :=
        (hx.trans hext).setPage fun hu => (hnew₀.not_used hu).elim
      have hfresh' : ∀ p ∈ pages ++ [s.alloc.1],
          s₀.Fresh (s.alloc.2.setPage s.alloc.1 fun _ => 0) p := by
        intro p hp
        obtain hp | hp := List.mem_append.1 hp
        · exact ⟨(hfresh p hp).not_used, hext.used p (hfresh p hp).used⟩
        · rw [List.mem_singleton.1 hp]
          exact ⟨hnew₀.not_used, hnew₀.used⟩
      have hnodup' : (pages ++ [s.alloc.1]).Nodup := by
        rw [List.nodup_append]
        refine ⟨hnodup, List.nodup_singleton _, ?_⟩
        intro p hp q hq
        rw [List.mem_singleton.1 hq]
        exact (hnew.ne (hfresh p hp).used).symm
      obtain ⟨hext', hres⟩ := ih hx' hfresh' hnodup'
      refine ⟨hext', fun ps hps => ?_⟩
      obtain ⟨hlen, hrest⟩ := hres ps hps
      refine ⟨?_, hrest⟩
      rw [hlen, List.length_append, List.length_singleton]
      omega

/-- Every byte of the file that `elf_load` copies lies in one of the pages it allocates. -/
def ElfFits (file : ElfFile) : Prop :=
  ∀ i < file.phnum, (file.phdr i).type = 1 → ∀ off < (file.phdr i).filesz,
    file.pageIdx (file.phdr i) off < file.totalPages

theorem elfDst_mem {stray : ℕ → ℕ} {pages : List ℕ} {idx off : ℕ}
    (hal : ∀ p ∈ pages, p % 4096 = 0) (hidx : idx < pages.length) (hoff : off < 4096) :
    elfDst stray pages idx off / 4096 * 4096 ∈ pages := by
  have hmem := List.getElem_mem hidx
  have hpage := hal _ hmem
  rw [elfDst, List.getElem?_eq_getElem hidx]
  dsimp only
  have heq : (pages[idx] + off) / 4096 * 4096 = pages[idx] := by omega
  rwa [heq]

/-- The loop over the bytes of a segment, by induction on the bytes left. -/
theorem elfCopyBytes_spec {file : ElfFile} {stray : ℕ → ℕ} {pages : List ℕ} {ph : ElfPhdr}
    (hal : ∀ p ∈ pages, p % 4096 = 0) (n : ℕ) {off : ℕ}
    (hidx : ∀ k < n, file.pageIdx ph (off + k) < pages.length) :
    WritesOnly (· ∈ pages) s (elfCopyBytes file stray pages ph n off s) := by
  induction n generalizing s off with
  | zero => exact .refl _ s
  | succ n ih =>
    rw [elfCopyBytes]
    refine (writesOnly_writeByte ?_).trans (ih ?_)
    · exact elfDst_mem hal (by simpa using hidx 0 (Nat.succ_pos n)) (Nat.mod_lt _ (by decide))
    · intro k hk
      rw [Nat.add_assoc, Nat.add_comm 1 k]
      exact hidx (k + 1) (by omega)

/-- The copying of the segments writes to the allocated pages only. -/
theorem elfCopySegments_spec {file : ElfFile} {stray : ℕ → ℕ} {pages : List ℕ}
    (hfits : ElfFits file) (hlen : pages.length = file.totalPages)
    (hal : ∀ p ∈ pages, p % 4096 = 0) :
    WritesOnly (· ∈ pages) s (elfCopySegments file stray pages s) := by
  rw [elfCopySegments]
  have hloop : ∀ l : List ℕ, (∀ i ∈ l, i < file.phnum) → ∀ t : Vm, WritesOnly (· ∈ pages) s t →
      WritesOnly (· ∈ pages) s (l.foldl (fun vm i =>
        if (file.phdr i).type ≠ 1 ∨ (file.phdr i).filesz = 0 then vm
        else elfCopyBytes file stray pages (file.phdr i) (file.phdr i).filesz 0 vm) t) := by
    intro l hl
    induction l with
    | nil => exact fun t ht => ht
    | cons i l ih =>
      intro t ht
      refine ih (fun j hj => hl j (List.mem_cons_of_mem i hj)) _ ?_
      dsimp only
      split
      · exact ht
      · rename_i hload
        refine ht.trans (elfCopyBytes_spec hal _ fun k hk => ?_)
        rw [hlen, Nat.zero_add]
        exact hfits i (hl i List.mem_cons_self) (by_contra fun hne => hload (.inl hne)) k hk
  exact hloop _ (fun i hi => List.mem_range.1 hi) s (.refl _ s)

/-- The processor looks at fewer bits of an address than there are in a word. -/
theorem pageOf_wrap_add (vaddr k : ℕ) :
    pageOf (wrap 64 (vaddr + 4096) + k * 4096) = pageOf (vaddr + 4096 + k * 4096) := by
  rw [pageOf, pageOf, wrap]
  omega

/-- The pages of a file are mapped one after the other; the frames of those that wait stay unused. -/
theorem elfMapPages_spec {pages : List ℕ} {vaddr : ℕ} (h : DirectInv K True D roots s) (hr : roots r)
    (hloose : ∀ p ∈ pages, Loose K True roots s p) (hnodup : pages.Nodup)
    (hD : ∀ p ∈ pagesFrom vaddr pages.length, ¬D (pageOf p)) :
    DirectInv K True D roots (elfMapPages r pages vaddr s) := by
  induction pages generalizing s vaddr with
  | nil => exact h
  | cons page pages ih =>
    rw [elfMapPages]
    rw [List.length_cons, pagesFrom_succ, List.forall_mem_cons] at hD
    obtain ⟨hpage, hnodup⟩ := List.nodup_cons.1 hnodup
    have hl := hloose page List.mem_cons_self
    have haddr : pteAddr page = page := Nat.div_mul_cancel (Nat.dvd_of_mod_eq_zero hl.used.1)
    rw [← haddr] at hl
    have hmap := vmmMapPageIn_spec h.toFrameInv hr vaddr hl (by decide : 7 < 4096)
    rw [haddr] at hmap
    refine ih (h.mapPage hr hl (by decide) hD.1) (fun p hp => ?_) hnodup fun p hp => ?_
    · refine hmap.loose (hloose p (List.mem_cons_of_mem page hp)) ?_
      rintro rfl
      exact hpage hp
    · obtain ⟨k, hk, rfl⟩ := mem_pagesFrom.1 hp
      rw [pageOf_wrap_add]
      exact hD.2 _ (mem_pagesFrom.2 ⟨k, hk, rfl⟩)

/-- A file that the loader accepts keeps within the pages allocated for it, and none of them is at the
address of a frame that the kernel uses. -/
def ElfOk (D : ℕ → Prop) (env : ElfEnv) : Prop :=
  ∀ file, env.file = some file → file.validHeader = true →
    ElfFits file ∧ ∀ p ∈ pagesFrom file.pageRange.1 file.totalPages, ¬D (pageOf p)

/-- `elf_load` into one of the address spaces. -/
theorem elfLoad_spec {env : ElfEnv} (h : DirectInv K True D roots s) (hr : roots r) (hok : ElfOk D env) :
    DirectInv K True D roots (elfLoad s r env.file env.arrayOk env.stray).2 := by
  obtain ⟨file, arrayOk, stray⟩ := env
  dsimp only
  cases file with
  | none => exact h
  | some file =>
    rw [elfLoad]
    split
    · exact h
    split
    · exact h
    rename_i hvalid
    obtain ⟨hfits, hD⟩ := hok file rfl (not_not.1 hvalid)
    split
    · exact h
    split
    · exact h
    obtain ⟨hx, hres⟩ := elfAllocPages_spec h.used_zero file.totalPages
      (.refl _ s) (fun p hp => absurd hp List.not_mem_nil) List.nodup_nil
    generalize elfAllocPages file.totalPages [] s = R at hx hres ⊢
    obtain ⟨ps, vm⟩ := R
    cases ps with
    | none => exact h.ext hx
    | some pages =>
      obtain ⟨hlen, hnodup, hfresh⟩ := hres pages rfl
      rw [List.length_nil, Nat.zero_add] at hlen
      have hcopy : WritesOnly _ vm (elfCopySegments file stray pages vm) := elfCopySegments_spec
        hfits hlen fun p hp => (hfresh p hp).aligned
      have hx' := hcopy.ext hx fun p hp => (hfresh p hp).not_used
      refine elfMapPages_spec (h.ext hx') hr (fun p hp => ?_) hnodup (hlen ▸ hD)
      exact h.loose_of_fresh hx' ⟨(hfresh p hp).not_used, hcopy.used_iff.2 (hfresh p hp).used⟩

/-! ## The arguments of a program -/

/-- The strings, the pointers to them and the terminator fit into one page. -/
def ArgsFit (argv : List (List UInt8)) : Prop :=
  ((argv.take 32).map (·.length + 1)).sum + 8 * ((argv.take 32).length + 1) ≤ 4096

instance : DecidablePred ArgsFit := fun _ => inferInstanceAs (Decidable (_ ≤ _))

section Args

variable {phys : ℕ} (hal : phys % 4096 = 0)
include hal

theorem argDst_page {off : ℤ} (hlo : 0 ≤ off) (hhi : off < 4096) :
    argDst phys off / 4096 * 4096 = phys := by
  rw [argDst, if_pos hlo]
  omega

/-- Bytes that fit in the frame are written to it only. -/
theorem writeBytes_spec {bytes : List UInt8} {off : ℕ} (hlen : off + bytes.length ≤ 4096) :
    WritesOnly (· = phys) s (writeBytes s (phys + off) bytes) := by
  induction bytes generalizing s off with
  | nil => exact .refl _ s
  | cons b bytes ih =>
    rw [List.length_cons] at hlen
    rw [writeBytes, Nat.add_assoc]
    refine (writesOnly_writeByte ?_).trans (ih (by omega))
    omega

/-- The strings go to the top of the page, from the last one on. -/
theorem pushStrings_spec (l : List (List UInt8)) (hsum : (l.map (·.length + 1)).sum ≤ 4096) :
    (l.foldr (pushString phys) (s, 4096, [])).2.1 = 4096 - ((l.map (·.length + 1)).sum : ℕ) ∧
      (l.foldr (pushString phys) (s, 4096, [])).2.2.length = l.length ∧
      WritesOnly (· = phys) s (l.foldr (pushString phys) (s, 4096, [])).1 := by
  induction l with
  | nil => exact ⟨rfl, rfl, .refl _ s⟩
  | cons arg l ih =>
    rw [List.map_cons, List.sum_cons] at hsum ⊢
    obtain ⟨hoff, hlen, hwrites⟩ := ih (by omega)
    rw [List.foldr_cons]
    generalize l.foldr (pushString phys) (s, 4096, []) = st at hoff hlen hwrites ⊢
    refine ⟨?_, by rw [pushString, List.length_cons, hlen, List.length_cons], ?_⟩
    · rw [pushString, hoff]
      push_cast
      omega
    · rw [pushString]
      refine hwrites.trans ?_
      rw [argDst, if_pos (by omega)]
      refine writeBytes_spec hal ?_
      rw [List.length_append, List.length_singleton]
      omega

/-- Likewise for a word that is pushed. -/
theorem pushWord_spec (word : ℕ) (st : Vm × ℤ) (hlo : 8 ≤ st.2) (hhi : st.2 ≤ 4096) :
    WritesOnly (· = phys) st.1 (pushWord phys word st).1 :=
  writesOnly_set (argDst_page hal (by omega) (by omega))

/-- The pointers go below the strings, from the last one on. -/
theorem pushWords_spec (words : List ℕ) {st : Vm × ℤ} (hlo : 8 * (words.length : ℤ) ≤ st.2)
    (hhi : st.2 ≤ 4096) :
    (words.foldr (pushWord phys) st).2 = st.2 - 8 * words.length ∧
      WritesOnly (· = phys) st.1 (words.foldr (pushWord phys) st).1 := by
  induction words with
  | nil => exact ⟨by simp, .refl _ st.1⟩
  | cons word words ih =>
    rw [List.length_cons] at hlo ⊢
    obtain ⟨hoff, hwrites⟩ := ih (by omega)
    rw [List.foldr_cons]
    refine ⟨?_, hwrites.trans (pushWord_spec hal word _ (by omega) (by omega))⟩
    rw [pushWord, hoff]
    push_cast
    omega

/-- The `argv` block stays in the stack page. -/
theorem pushArgs_spec {argv : List (List UInt8)} (hfit : ArgsFit argv) :
    WritesOnly (· = phys) s (pushArgs phys argv s) := by
  rw [pushArgs]
  split
  · exact .refl _ s
  rw [ArgsFit] at hfit
  obtain ⟨hoff, hlen, hwrites⟩ := pushStrings_spec (s := s) hal (argv.take 32) (by omega)
  generalize (argv.take 32).foldr (pushString phys) (s, 4096, []) = st at hoff hlen hwrites ⊢
  dsimp only
  refine hwrites.trans ((pushWord_spec hal 0 (st.1, st.2.1 / 8 * 8) ?_ ?_).trans
    (pushWords_spec hal st.2.2 ?_ ?_).2)
  · dsimp only
    omega
  · dsimp only
    omega
  · rw [pushWord]
    omega
  · rw [pushWord]
    omega

end Args

/-! ## Address spaces -/

theorem not_roots_of_fresh (h : FrameInv K True roots s) (hr : s.Fresh s' r) : ¬roots r :=
  fun hroot => hr.not_used (h.table r (isTable_of_tableAt (q := []) hroot rfl)).1

/-- `vmm_create_address_space` gives no address space, or one that is not in use yet. -/
theorem newRoot_spec (h : DirectInv K True D roots s) :
    ((vmmCreateAddressSpace K.boot s).1 = 0 → DirectInv K True D roots (vmmCreateAddressSpace K.boot s).2) ∧
      ((vmmCreateAddressSpace K.boot s).1 ≠ 0 → ¬roots (vmmCreateAddressSpace K.boot s).1 ∧
        DirectInv K True D (fun x => roots x ∨ x = (vmmCreateAddressSpace K.boot s).1)
          (vmmCreateAddressSpace K.boot s).2) := by
  obtain ⟨hext, hres⟩ := vmmCreateAddressSpace_spec h.toFrameInv
  refine ⟨fun _ => h.ext hext, fun hne => ?_⟩
  obtain ⟨pdpt, pd, hb⟩ := hres.resolve_left hne
  exact ⟨not_roots_of_fresh h.toFrameInv hb.fresh_root, hb.directInv h⟩

/-- Destroying the address space that was created last. -/
theorem destroyNew_spec (h : DirectInv K True D (fun x => roots x ∨ x = r) s) (hr : ¬roots r) :
    DirectInv K True D roots (vmmDestroyAddressSpace K.boot s r) := by
  refine (h.destroy (.inr rfl)).mono ?_
  intro x hx
  refine ⟨.inl hx, ?_⟩
  rintro rfl
  exact hr hx

/-- What a function that may create a process leaves: without a new process the invariant for the old
address spaces, with one the invariant for one more address space. -/
structure Spawns (K : Kernel) (D roots : ℕ → Prop) (R : Option Proc × Vm) : Prop where
  none : R.1 = none → DirectInv K True D roots R.2
  some : ∀ t, R.1 = some t → ¬roots t.cr3 ∧ DirectInv K True D (fun x => roots x ∨ x = t.cr3) R.2

theorem Spawns.of_none {vm : Vm} (h : DirectInv K True D roots vm) : Spawns K D roots (.none, vm) :=
  ⟨fun _ => h, fun _ ht => absurd ht (by simp)⟩

theorem Spawns.of_some {vm : Vm} {t : Proc} (hr : ¬roots t.cr3)
    (h : DirectInv K True D (fun x => roots x ∨ x = t.cr3) vm) : Spawns K D roots (.some t, vm) := by
  refine ⟨fun hn => absurd hn (by simp), ?_⟩
  rintro _ ⟨⟩
  exact ⟨hr, h⟩

/-- An address space without a task. -/
theorem newSpace_spec (h : DirectInv K True D roots s) : Spawns K D roots (newSpace K.boot s) := by
  obtain ⟨hfail, hnew⟩ := newRoot_spec h
  rw [newSpace]
  split
  · exact .of_none (hfail ‹_›)
  · obtain ⟨hr, hinv⟩ := hnew ‹_›
    exact .of_some hr hinv

/-- `task_create_user`: an address space with a stack page, or none. -/
theorem taskCreateUser_spec {slotOk kstackOk : Bool} (h : DirectInv K True D roots s)
    (hD : ¬D (pageOf userStackVaddr)) : Spawns K D roots (taskCreateUser K.boot s slotOk kstackOk) := by
  rw [taskCreateUser]
  split
  · exact .of_none h
  obtain ⟨hfail, hnew⟩ := newRoot_spec h
  dsimp only
  split
  · exact .of_none (hfail ‹_›)
  obtain ⟨hr, hinv⟩ := hnew ‹_›
  have hmap := (mapNewPage_spec hinv (.inr rfl) (by decide : userRw < 4096) hD).1
  split
  · exact .of_some hr hmap
  · exact .of_none (destroyNew_spec hmap hr)

/-- `task_create_user_elf`, in the address space `r` that is not a live process's yet. -/
theorem taskCreateUserElf_spec {argv : List (List UInt8)} (h : DirectInv K True D roots s) (hr : roots r)
    (hargs : ArgsFit argv) (hD : ¬D (pageOf userStackVaddr)) (info : ElfInfo) (slotOk kstackOk : Bool) :
    DirectInv K True D roots (taskCreateUserElf s info r argv slotOk kstackOk).2 ∧
      ∀ t, (taskCreateUserElf s info r argv slotOk kstackOk).1 = some t → t.cr3 = r := by
  rw [taskCreateUserElf]
  split
  · exact ⟨h, fun t ht => absurd ht (by simp)⟩
  obtain ⟨hinv, hpage⟩ := mapNewPage_spec h hr (by decide : userRw < 4096) hD
  dsimp only
  split
  · rename_i hok
    obtain ⟨htab, hker, hal⟩ := hpage hok.1
    refine ⟨(pushArgs_spec hal hargs).directInv hinv ?_, ?_⟩
    · rintro _ rfl
      exact ⟨htab, hker⟩
    · rintro _ ⟨⟩
      rfl
  · exact ⟨hinv, fun t ht => absurd ht (by simp)⟩

/-- `SYS_EXEC`: the new address space is given back on every way that does not end in a task. -/
theorem sysExec_spec {env : ElfEnv} {argv : List (List UInt8)} {slotOk kstackOk : Bool}
    (h : DirectInv K True D roots s) (hfile : ElfOk D env) (hargs : ArgsFit argv)
    (hD : ¬D (pageOf userStackVaddr)) : Spawns K D roots (sysExec K.boot s env argv slotOk kstackOk) := by
  obtain ⟨hfail, hnew⟩ := newRoot_spec h
  rw [sysExec]
  split
  · exact .of_none (hfail ‹_›)
  obtain ⟨hr, hinv⟩ := hnew ‹_›
  have hload := elfLoad_spec hinv (.inr rfl) hfile
  dsimp only
  split
  · exact .of_none (destroyNew_spec hload hr)
  · rename_i info _
    obtain ⟨htask, hcr3⟩ := taskCreateUserElf_spec hload (.inr rfl) hargs hD info slotOk
      kstackOk
    split
    · exact .of_none (destroyNew_spec htask hr)
    · rename_i t ht
      refine .of_some ?_ ?_
      · rwa [hcr3 t ht]
      · rwa [hcr3 t ht]

/-- `task_fork`: the child has pages where its parent has some. -/
theorem taskFork_spec {parent : Proc} {slotOk kstackOk : Bool} (h : DirectInv K True D roots s)
    (hr : roots parent.cr3) : Spawns K D roots (taskFork K.boot s parent slotOk kstackOk) := by
  rw [taskFork]
  split
  · exact .of_none h
  dsimp only
  obtain ⟨hz, hinv, hmem⟩ | ⟨b, pdpt, pd, hb, hclone⟩ := vmmCloneAddressSpace_spec h.toFrameInv hr
  · rw [if_pos hz]
    exact .of_none (h.congr (hinv trivial) fun a ha => hmem a (h.table a ha).1)
  · have hnew := not_roots_of_fresh h.toFrameInv hb.fresh_root
    have hcopy := hclone.directInv hb h hr
    rw [if_neg (hclone.inv.root_ne_zero (.inr rfl))]
    split
    · exact .of_none (destroyNew_spec hcopy hnew)
    · exact .of_some hnew hcopy

end

/-! ## The system -/

/-- The PML4s of the live processes. -/
def UserSys.Live (S : UserSys) (x : ℕ) : Prop := ∃ pid t, S.procs pid = some t ∧ t.cr3 = x

/-- The page tables of all live processes satisfy the invariant, and no two processes share one. -/
structure UserInv (K : Kernel) (D : ℕ → Prop) (S : UserSys) : Prop where
  inv : DirectInv K True D S.Live S.vm
  distinct : ∀ pid pid' t t', S.procs pid = some t → S.procs pid' = some t' → t.cr3 = t'.cr3 →
    pid = pid'
  fresh : ∀ pid, S.next ≤ pid → S.procs pid = none

/-- The pages that `SYS_SBRK` maps. -/
def sbrkPages (t : Proc) (increment : ℕ) : List ℕ :=
  if increment < 2 ^ 63 then
    pagesFrom (pageUp t.brk) ((pageUp (wrap 64 (t.brk + increment)) - pageUp t.brk) / 4096)
  else []

/-- The pages that `SYS_MMAP` maps, at the address that it has chosen. -/
def mmapPages (addr length : ℕ) : List ℕ := pagesFrom addr (pageCount addr (pageUp length))

/-- The conditions on a call. A call that maps pages maps none at the address of a frame in `D`. -/
def UserOk (D : ℕ → Prop) (S : UserSys) : UserOp → Prop
  | .load _ env => ElfOk D env
  | .createUser _ _ => ¬D (pageOf userStackVaddr)
  | .exec env argv _ _ => ElfOk D env ∧ ArgsFit argv ∧ ¬D (pageOf userStackVaddr)
  | .sbrk pid increment => ∀ t, S.procs pid = some t → ∀ p ∈ sbrkPages t increment, ¬D (pageOf p)
  | .mmap pid addrHint length prot =>
    ∀ t addr, S.procs pid = some t → mmapAddr t addrHint (pageUp length) = some addr →
      (mapNewPages t.cr3 (mmapMapFlags prot) (pageCount addr (pageUp length)) addr S.vm).1 = true ∧
        ∀ p ∈ mmapPages addr length, ¬D (pageOf p)
  | .munmap _ addr length =>
    ∀ k < pageCount (addr / 4096 * 4096) (pageUp length), addr / 4096 * 4096 + k * 4096 < 2 ^ 48
  | .fault pid cr2 =>
    ∀ t, S.procs pid = some t → (vmaFind t.vmas cr2).isSome → ¬D (pageOf cr2)
  | .space | .fork _ _ _ | .exit _ => True

section

variable {K : Kernel} {D : ℕ → Prop} {S : UserSys} {pid : ℕ} {t : Proc}

theorem procs_resume (r : SysResult) :
    (S.resume pid r).procs = Function.update S.procs pid (some r.proc) := rfl

theorem procs_spawn (vm : Vm) :
    (S.spawn (some t, vm)).procs = Function.update S.procs S.next (some t) := rfl

theorem procs_kill (boot : ℕ) : (S.kill boot pid t).procs = Function.update S.procs pid none := rfl

namespace UserInv

/-- A call that changes memory only. -/
theorem setVm (h : UserInv K D S) {vm : Vm} (hvm : DirectInv K True D S.Live vm) :
    UserInv K D { S with vm := vm } :=
  ⟨hvm, h.distinct, h.fresh⟩

/-- A process goes on with the page table that it had. -/
theorem resume (h : UserInv K D S) (ht : S.procs pid = some t) {r : SysResult}
    (hvm : DirectInv K True D S.Live r.vm) (hcr3 : r.proc.cr3 = t.cr3) : UserInv K D (S.resume pid r) := by
  -- the processes have the page tables they had before
  have hold : ∀ pid' t', (S.resume pid r).procs pid' = some t' →
      ∃ t'', S.procs pid' = some t'' ∧ t''.cr3 = t'.cr3 := by
    intro pid' t' ht'
    rw [procs_resume, Function.update_apply] at ht'
    split at ht'
    · rename_i hpid
      obtain rfl := Option.some.inj ht'
      exact ⟨t, hpid ▸ ht, hcr3.symm⟩
    · exact ⟨t', ht', rfl⟩
  refine ⟨hvm.mono ?_, ?_, ?_⟩
  · rintro x ⟨pid', t', ht', rfl⟩
    obtain ⟨t'', ht'', hx⟩ := hold pid' t' ht'
    exact ⟨pid', t'', ht'', hx⟩
  · intro pid₁ pid₂ t₁ t₂ ht₁ ht₂ heq
    obtain ⟨u₁, hu₁, hc₁⟩ := hold pid₁ t₁ ht₁
    obtain ⟨u₂, hu₂, hc₂⟩ := hold pid₂ t₂ ht₂
    exact h.distinct pid₁ pid₂ u₁ u₂ hu₁ hu₂ (hc₁.trans (heq.trans hc₂.symm))
  · intro pid' hpid'
    have hnone := h.fresh pid' hpid'
    rw [procs_resume, Function.update_of_ne, hnone]
    rintro rfl
    rw [ht] at hnone
    exact absurd hnone (by simp)

/-- A new process gets a number of its own. -/
theorem spawn (h : UserInv K D S) {R : Option Proc × Vm} (hR : Spawns K D S.Live R) :
    UserInv K D (S.spawn R) := by
  obtain ⟨o, vm⟩ := R
  cases o with
  | none => exact h.setVm (hR.none rfl)
  | some t =>
    obtain ⟨hnew, hinv⟩ := hR.some t rfl
    have hold : ∀ pid' t', (S.spawn (some t, vm)).procs pid' = some t' →
        S.procs pid' = some t' ∨ (pid' = S.next ∧ t' = t) := by
      intro pid' t' ht'
      rw [procs_spawn, Function.update_apply] at ht'
      split at ht'
      · exact .inr ⟨‹_›, (Option.some.inj ht').symm⟩
      · exact .inl ht'
    refine ⟨hinv.mono ?_, ?_, ?_⟩
    · rintro x ⟨pid', t', ht', rfl⟩
      obtain ht' | ⟨-, rfl⟩ := hold pid' t' ht'
      · exact .inl ⟨pid', t', ht', rfl⟩
      · exact .inr rfl
    · intro pid₁ pid₂ t₁ t₂ ht₁ ht₂ heq
      obtain h₁ | ⟨hp₁, rfl⟩ := hold pid₁ t₁ ht₁
      · obtain h₂ | ⟨-, rfl⟩ := hold pid₂ t₂ ht₂
        · exact h.distinct pid₁ pid₂ t₁ t₂ h₁ h₂ heq
        · exact (hnew ⟨pid₁, t₁, h₁, heq⟩).elim
      · obtain h₂ | ⟨hp₂, -⟩ := hold pid₂ t₂ ht₂
        · exact (hnew ⟨pid₂, t₂, h₂, heq.symm⟩).elim
        · exact hp₁.trans hp₂.symm
    · intro pid' hpid'
      have hlt : S.next < pid' := hpid'
      rw [procs_spawn, Function.update_of_ne hlt.ne']
      exact h.fresh pid' hlt.le

/-- The address space of a process is destroyed with it; no other process has it. -/
theorem kill (h : UserInv K D S) (ht : S.procs pid = some t) : UserInv K D (S.kill K.boot pid t) := by
  have hlive : S.Live t.cr3 := ⟨pid, t, ht, rfl⟩
  have hold : ∀ pid' t', (S.kill K.boot pid t).procs pid' = some t' →
      pid' ≠ pid ∧ S.procs pid' = some t' := by
    intro pid' t' ht'
    rw [procs_kill, Function.update_apply] at ht'
    split at ht'
    · exact absurd ht' (by simp)
    · exact ⟨‹_›, ht'⟩
  refine ⟨?_, ?_, ?_⟩
  · rw [UserSys.kill, taskExit, if_pos ⟨h.inv.root_ne_zero hlive, h.inv.root_ne_boot hlive⟩]
    refine (h.inv.destroy hlive).mono ?_
    rintro x ⟨pid', t', ht', rfl⟩
    obtain ⟨hne, ht'⟩ := hold pid' t' ht'
    exact ⟨⟨pid', t', ht', rfl⟩, fun heq => hne (h.distinct pid' pid t' t ht' ht heq)⟩
  · intro pid₁ pid₂ t₁ t₂ ht₁ ht₂
    exact h.distinct pid₁ pid₂ t₁ t₂ (hold pid₁ t₁ ht₁).2 (hold pid₂ t₂ ht₂).2
  · intro pid' hpid'
    rw [procs_kill, Function.update_apply, h.fresh pid' hpid', ite_self]

end UserInv

/-- `SYS_SBRK`, also if it runs out of memory in the middle. -/
theorem sysSbrk_spec {roots : ℕ → Prop} {s : Vm} {increment : ℕ} (h : DirectInv K True D roots s)
    (hr : roots t.cr3) (hD : ∀ p ∈ sbrkPages t increment, ¬D (pageOf p)) :
    DirectInv K True D roots (sysSbrk s t increment).vm ∧ (sysSbrk s t increment).proc.cr3 = t.cr3 := by
  rw [sysSbrk]
  split
  · exact ⟨h, rfl⟩
  split
  · exact ⟨h, rfl⟩
  · rename_i hlt
    rw [sbrkPages, if_pos (not_le.1 hlt)] at hD
    exact ⟨mapNewPages_spec h hr (by decide) hD, rfl⟩

theorem mmapMapFlags_lt (prot : ℕ) : mmapMapFlags prot < 4096 := by
  rw [mmapMapFlags]
  split
  · decide
  · decide

/-- `SYS_MMAP` if it does not run out of memory. -/
theorem sysMmap_spec {roots : ℕ → Prop} {s : Vm} {addrHint length prot : ℕ} {r : SysResult}
    (h : DirectInv K True D roots s) (hr : roots t.cr3)
    (hok : ∀ addr, mmapAddr t addrHint (pageUp length) = some addr →
      (mapNewPages t.cr3 (mmapMapFlags prot) (pageCount addr (pageUp length)) addr s).1 = true ∧
        ∀ p ∈ mmapPages addr length, ¬D (pageOf p))
    (hres : sysMmap s t addrHint length prot = some r) :
    DirectInv K True D roots r.vm ∧ r.proc.cr3 = t.cr3 := by
  rw [sysMmap] at hres
  split at hres
  · obtain rfl := Option.some.inj hres
    exact ⟨h, rfl⟩
  dsimp only at hres
  split at hres
  · exact absurd hres (by simp)
  rename_i addr haddr
  split at hres
  · obtain rfl := Option.some.inj hres
    exact ⟨h, rfl⟩
  split at hres
  · obtain rfl := Option.some.inj hres
    exact ⟨h, rfl⟩
  obtain ⟨htrue, hD⟩ := hok addr haddr
  rw [if_pos htrue] at hres
  obtain rfl := Option.some.inj hres
  exact ⟨mapNewPages_spec h hr (mmapMapFlags_lt prot) hD, rfl⟩

/-- The handler maps a new page, as the system calls do, at the page of the fault. -/
theorem pageFaultHandler_eq (s : Vm) (t : Proc) (cr2 : ℕ) : pageFaultHandler s t cr2 =
    match vmaFind t.vmas cr2 with
    | none => (false, s)
    | some v => mapNewPage s t.cr3 (cr2 / 4096 * 4096) (if v.flags.testBit 1 then 7 else 5) :=
  rfl

theorem pageOf_page (cr2 : ℕ) : pageOf (cr2 / 4096 * 4096) = pageOf cr2 := by
  rw [pageOf, pageOf]
  omega

/-- `page_fault_handler`, for any fault in user mode. -/
theorem pageFaultHandler_spec {roots : ℕ → Prop} {s : Vm} {cr2 : ℕ} (h : DirectInv K True D roots s)
    (hr : roots t.cr3) (hD : (vmaFind t.vmas cr2).isSome → ¬D (pageOf cr2)) :
    DirectInv K True D roots (pageFaultHandler s t cr2).2 := by
  rw [pageFaultHandler_eq]
  cases hv : vmaFind t.vmas cr2 with
  | none => exact h
  | some v =>
    rw [hv] at hD
    refine (mapNewPage_spec h hr ?_ ?_).1
    · split
      · decide
      · decide
    · rw [pageOf_page]
      exact hD rfl

/-- Every call that meets the conditions keeps the invariant. -/
theorem UserInv.step {op : UserOp} (h : UserInv K D S) (hok : UserOk D S op) :
    UserInv K D (userStep K.boot S op) := by
  have hcall : ∀ {pid : ℕ} {f : Proc → UserSys},
      (∀ t, S.procs pid = some t → UserInv K D (f t)) → UserInv K D (S.call pid f) := by
    intro pid f hf
    rw [UserSys.call]
    split
    · exact h
    · exact hf _ ‹_›
  have hlive : ∀ {pid t}, S.procs pid = some t → S.Live t.cr3 := fun ht => ⟨_, _, ht, rfl⟩
  cases op with
  | space => exact h.spawn (newSpace_spec h.inv)
  | load pid env => exact hcall fun t ht => h.setVm (elfLoad_spec h.inv (hlive ht) hok)
  | createUser slotOk kstackOk => exact h.spawn (taskCreateUser_spec h.inv hok)
  | exec env argv slotOk kstackOk => exact h.spawn (sysExec_spec h.inv hok.1 hok.2.1 hok.2.2)
  | fork pid slotOk kstackOk => exact hcall fun t ht => h.spawn (taskFork_spec h.inv (hlive ht))
  | sbrk pid increment =>
    refine hcall fun t ht => ?_
    obtain ⟨hvm, hcr3⟩ := sysSbrk_spec h.inv (hlive ht) (hok t ht)
    exact h.resume ht hvm hcr3
  | mmap pid addrHint length prot =>
    refine hcall fun t ht => ?_
    split
    · exact h
    · obtain ⟨hvm, hcr3⟩ :=
        sysMmap_spec h.inv (hlive ht) (fun addr haddr => hok t addr ht haddr) ‹_›
      exact h.resume ht hvm hcr3
  | munmap pid addr length =>
    refine hcall fun t ht => h.resume ht (munmapPages_spec h.inv (hlive ht) _ ?_ hok) rfl
    exact Nat.mul_mod_left ..
  | fault pid cr2 =>
    refine hcall fun t ht => ?_
    have hvm := h.setVm (pageFaultHandler_spec h.inv (hlive ht) (hok t ht))
    dsimp only
    split
    · exact hvm
    · exact hvm.kill ht
  | exit pid => exact hcall fun t ht => h.kill ht

/-- The system after boot: no process yet. -/
def UserSys.init (vm : Vm) : UserSys := ⟨vm, fun _ => none, 0⟩

/-- After boot there is no process. -/
theorem userInv_init {vm : Vm} (h : Booted K vm) : UserInv K D (.init vm) where
  inv := by
    have hinv : DirectInv K True D (fun _ => False) vm := ⟨h.frameInv True, fun _ _ _ hr => hr.elim⟩
    refine hinv.mono ?_
    rintro x ⟨pid, t, ht, -⟩
    exact absurd ht (by simp [UserSys.init])
  distinct _ _ _ _ ht := absurd ht (by simp [UserSys.init])
  fresh _ _ := rfl

/-- The invariant holds in every state that a run reaches whose calls meet the conditions. -/
theorem userInv_run {vm : Vm} {ops : List UserOp} (h : Booted K vm)
    (hok : Run.Admits (userStep K.boot) (UserOk D) (.init vm) ops) :
    UserInv K D (Run.run (userStep K.boot) (.init vm) ops) :=
  Run.run_invariant_of_admits (fun _ _ hinv hop => hinv.step hop) (userInv_init h) hok

end

end PlantOS.Task
