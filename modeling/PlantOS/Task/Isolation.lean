import PlantOS.Task.NewPages

/-!
# Isolation of processes

The consequences of the page-table invariant for the processes: every frame has one use only, and no
translation of a process leads to memory that is not its own, except for the identity map of the first
4 GB, which every process has.

Both are about runs in which no call maps a page at the address of a frame that the kernel uses. In such a run
the kernel reaches its frames under the page table of every process, which is the other half of the results:
without it the page tables that the kernel writes need not be those that the processor reads.
-/

namespace PlantOS.Task

open PlantOS.Mm

/-! ## Frames -/

/-- The entry `e.2` of the table `e.1` refers to the table `a`. -/
def ParentEntry (mem : ℕ → ℕ → ℕ) (roots : ℕ → Prop) (a : ℕ) (e : ℕ × ℕ) : Prop :=
  ∃ r q, roots r ∧ tableAt mem r q = some e.1 ∧ tableChild mem q e.1 e.2 = some a

/-- Every frame has one use only: as the target of one leaf entry that is not an identity entry, or as a
table below one parent entry, or as the PML4 of one process. -/
structure FramesIsolated (S : UserSys) : Prop where
  leaf : ∀ r r' p p' e e', S.Live r → S.Live r' → UserEntry S.vm.mem r p e →
    UserEntry S.vm.mem r' p' e' → pteAddr e = pteAddr e' → r = r' ∧ p = p'
  huge : ∀ r q a i, S.Live r → tableAt S.vm.mem r q = some a → i < 512 → q.length < 3 →
    Present (S.vm.mem a i) → Huge (S.vm.mem a i) →
      q.length = 2 ∧ S.vm.mem a i / 0x200000 = vpn (i :: q)
  used : ∀ a, IsTable S.vm.mem S.Live a ∨ IsUserFrame S.vm.mem S.Live a → S.vm.Used a
  parent : ∀ a, IsTable S.vm.mem S.Live a → ¬S.Live a → ∃! e, ParentEntry S.vm.mem S.Live a e
  root : ∀ a, S.Live a → (∃! pid, ∃ t, S.procs pid = some t ∧ t.cr3 = a) ∧
    ¬∃ e, ParentEntry S.vm.mem S.Live a e
  table : ∀ a, IsTable S.vm.mem S.Live a → ¬IsUserFrame S.vm.mem S.Live a

section

variable {K : Kernel} {D : ℕ → Prop} {S : UserSys}

theorem ParentEntry.tableAt {mem : ℕ → ℕ → ℕ} {roots : ℕ → Prop} {a : ℕ} {e : ℕ × ℕ}
    (h : ParentEntry mem roots a e) :
    ∃ r q, roots r ∧ tableAt mem r q = some e.1 ∧ tableAt mem r (e.2 :: q) = some a := by
  obtain ⟨r, q, hr, ht, ha⟩ := h
  refine ⟨r, q, hr, ht, ?_⟩
  rw [tableAt_cons, ht, Option.bind_some, ha]

/-- A table other than a PML4 is referred to by one entry. -/
theorem UserInv.existsUnique_parent (h : UserInv K D S) {a : ℕ} (ha : IsTable S.vm.mem S.Live a)
    (hroot : ¬S.Live a) : ∃! e, ParentEntry S.vm.mem S.Live a e := by
  obtain ⟨r, p, hr, hp⟩ := ha
  cases p with
  | nil =>
    obtain rfl : r = a := Option.some.inj hp
    exact (hroot hr).elim
  | cons i q =>
    obtain ⟨t, ht, hc⟩ := NodeForest.walk_cons_eq_some.1 hp
    refine ⟨(t, i), ⟨r, q, hr, ht, hc⟩, ?_⟩
    rintro ⟨t', i'⟩ he
    obtain ⟨r', q', hr', ht', ha'⟩ := he.tableAt
    -- the two walks to `a` are the same
    obtain ⟨rfl, hcons⟩ := h.inv.forest hr' hr ha' hp
    obtain ⟨rfl, rfl⟩ := List.cons.inj hcons
    exact Prod.ext (Option.some.inj (ht'.symm.trans ht)) rfl

/-- The invariant says it of the tables and of the user entries; for a PML4 it is that no two processes share
one. -/
theorem UserInv.framesIsolated (h : UserInv K D S) : FramesIsolated S where
  leaf := h.inv.unique trivial
  huge r q a i hr ha hi hq hp hh := by
    obtain ⟨hlen, he⟩ := h.inv.huge r q a i hr ha hi hq hp hh
    refine ⟨hlen, ?_⟩
    rw [he]
    omega
  used := by
    rintro a (ha | ⟨r, p, e, hr, he, rfl⟩)
    · exact (h.inv.table a ha).1
    · exact (h.inv.user r p e hr he).1
  parent _ ha hroot := h.existsUnique_parent ha hroot
  root := by
    rintro a ⟨pid, t, ht, rfl⟩
    refine ⟨⟨pid, ⟨t, ht, rfl⟩, ?_⟩, ?_⟩
    · rintro pid' ⟨t', ht', heq⟩
      exact h.distinct pid' pid t' t ht' ht heq
    · rintro ⟨e, he⟩
      obtain ⟨r, q, hr, -, ha⟩ := he.tableAt
      have hnil : tableAt S.vm.mem t.cr3 [] = some t.cr3 := rfl
      exact absurd (h.inv.forest hr ⟨pid, t, ht, rfl⟩ ha hnil).2 (by simp)
  table := by
    rintro a ha ⟨r, p, e, hr, he, rfl⟩
    exact (h.inv.user r p e hr he).2.2 ha

/-- In every run whose calls meet the conditions, every frame has one use only, and the kernel reaches the
frames that it uses. -/
theorem frames_isolated_of_admits {vm : Vm} {ops : List UserOp} {P : ℕ → Prop} (h : Booted K vm)
    (hok : Run.Admits (userStep K.boot) (UserOk (Direct K vm.pmm.totalPages P)) (.init vm) ops) :
    FramesIsolated (Run.run (userStep K.boot) (.init vm) ops) ∧
      KernelReaches (Direct K vm.pmm.totalPages P) (Run.run (userStep K.boot) (.init vm) ops).Live
        (Run.run (userStep K.boot) (.init vm) ops).vm.mem :=
  ⟨(userInv_run h hok).framesIsolated, (userInv_run h hok).inv.kernelReaches⟩

/-! ### Example machines -/

/-- A machine with 128 MB of memory. The boot page tables are in the first frames, and the heap of the kernel
goes from 4 MB to 16 MB, so that the stack of a process is mapped over it. -/
def heapKernel : Kernel :=
  { demoKernel with
    Page := fun a => a % 4096 = 0 ∧ (a < 7 * 4096 ∨ (0x400000 ≤ a ∧ a < 0x1000000))
    page_zero := demoKernel.page_zero.imp_right .inl
    page_boot := fun k hk => (demoKernel.page_boot k hk).imp_right .inl }

/-- The memory of that machine after boot. -/
def heapVm : Vm where
  mem := bootTables 4096
  pmm :=
    { bitmap := fun i => decide (i < 7 ∨ (13 ≤ i ∧ i < 512) ∨ (1024 ≤ i ∧ i < 4096))
      totalPages := 2 ^ 15
      usedPages := 3578 }

theorem booted_heap : Booted heapKernel heapVm where
  kernel a ha := ⟨ha.1, decide_eq_true (by have := ha.2; omega)⟩
  boot _ _ := rfl

/-- The frames that the kernel uses by their addresses are those of the allocator and all below 4 MB. -/
def heapDirect : ℕ → Prop := Direct heapKernel heapVm.pmm.totalPages (· < 0x400000)

theorem not_heapDirect {a : ℕ} (hlo : 0x400000 ≤ a) (hhi : a < 0x1000000 ∨ 2 ^ 27 ≤ a) : ¬heapDirect a := by
  rintro (⟨hal, hlt, hpage⟩ | ⟨k, hk, rfl⟩ | hP)
  · have hlt' : a / 4096 < 2 ^ 15 := hlt
    exact hpage ⟨hal, by omega⟩
  · exact absurd hlo (by simp only [heapKernel, demoKernel]; omega)
  · exact absurd hP (not_lt.2 hlo)

/-- A process that maps a page and is forked. The child needs another page for its stack, the parent unmaps
its own and ends. -/
def heapRun : List UserOp :=
  [.createUser true true, .mmap 0 0 4096 3, .fork 0 true true, .fault 1 0x7FE000, .munmap 0 0x7FF000 4096,
    .exit 0]

theorem admits_heapRun : Run.Admits (userStep heapKernel.boot) (UserOk heapDirect) (.init heapVm) heapRun := by
  refine ⟨not_heapDirect (by decide) (by decide), ?_, trivial, fun _ _ _ => ?_, ?_, trivial, trivial⟩
  · intro t addr ht haddr
    have hcall : ((userStep heapKernel.boot (.init heapVm) (.createUser true true)).procs 0).map (fun t =>
        (mmapAddr t 0 (pageUp 4096), (mapNewPages t.cr3 (mmapMapFlags 3) (pageCount mmapBase (pageUp 4096))
          mmapBase (userStep heapKernel.boot (.init heapVm) (.createUser true true)).vm).1)) =
        some (some mmapBase, true) := by decide +kernel
    rw [ht, Option.map_some, Option.some.injEq, Prod.mk.injEq] at hcall
    obtain rfl := Option.some.inj (haddr.symm.trans hcall.1)
    refine ⟨hcall.2, fun p hp => ?_⟩
    obtain rfl : p = mmapBase := by
      have hpages : mmapPages mmapBase 4096 = [mmapBase] := by decide
      rw [hpages] at hp
      exact List.mem_singleton.1 hp
    exact not_heapDirect (by decide) (by decide)
  · exact not_heapDirect (by decide) (by decide)
  · intro k hk
    have hcount : pageCount (0x7FF000 / 4096 * 4096) (pageUp 4096) = 1 := by decide
    rw [hcount] at hk
    omega

theorem frames_isolated_demo :
    FramesIsolated (Run.run (userStep heapKernel.boot) (.init heapVm) heapRun) ∧
      KernelReaches heapDirect (Run.run (userStep heapKernel.boot) (.init heapVm) heapRun).Live
        (Run.run (userStep heapKernel.boot) (.init heapVm) heapRun).vm.mem :=
  frames_isolated_of_admits booted_heap admits_heapRun

/-- The first process of the example has its PML4 in frame 7. -/
theorem createUser_demo : taskCreateUser demoKernel.boot demoVm true true =
    (some ⟨7 * 4096, 0, vmaAddOrKeep stackGuardLow userStackTop 0x13 2 vmaInitList⟩,
      (mapNewPage demoSpace (7 * 4096) userStackVaddr userRw).2) := by
  have hok : (mapNewPage demoSpace (7 * 4096) userStackVaddr userRw).1 = true := by decide +kernel
  rw [taskCreateUser, if_neg (by decide)]
  dsimp only
  rw [created_demo_eq, if_neg (by decide), if_pos ⟨hok, rfl⟩]

/-- A process that unmaps the alias of the address of its own PML4. -/
def munmapAlias : UserSys :=
  Run.run (userStep demoKernel.boot) (.init demoVm)
    [.createUser true true, .munmap 0 (2 ^ 48 + 7 * 4096) 4096]

/-- A process can release the PML4 that it runs on. Two addresses that differ by a multiple of 2^48 have the
same page tables, so `vmm_get_physical` takes the alias of a page in the first 2 MB for a page that is mapped
elsewhere, and `vmm_unmap_page` does nothing. -/
theorem munmap_releases_page_table :
    munmapAlias.Live (7 * 4096) ∧ ¬munmapAlias.vm.Used (7 * 4096) ∧ ¬FramesIsolated munmapAlias := by
  have hproc : (munmapAlias.procs 0).map (·.cr3) = some (7 * 4096) := by decide +kernel
  obtain ⟨t, ht, hcr3⟩ := Option.map_eq_some_iff.1 hproc
  have hlive : munmapAlias.Live (7 * 4096) := ⟨0, t, ht, hcr3⟩
  have hused : ¬munmapAlias.vm.Used (7 * 4096) := by
    rw [munmapAlias, Run.run_cons, userStep, UserSys.init, createUser_demo]
    decide +kernel
  refine ⟨hlive, hused, fun hiso => hused (hiso.used _ (.inl ?_))⟩
  exact isTable_of_tableAt (q := []) hlive rfl

/-! ## Translations -/

/-- The translations of a process lead to its own memory: apart from the identity map, no frame that ring
3 can reach is the kernel's, a table, or a user page of another process. -/
def TranslationsIsolated (K : Kernel) (S : UserSys) : Prop :=
  ∀ pid t va phys, S.procs pid = some t → mmuTranslate S.vm.mem t.cr3 va = some ⟨phys, true⟩ →
    phys = va % 2 ^ 48 ∨
      (¬K.Page (pteAddr phys) ∧ ¬IsTable S.vm.mem S.Live (pteAddr phys) ∧
        ∀ pid' t' p e, S.procs pid' = some t' → pid' ≠ pid → UserEntry S.vm.mem t'.cr3 p e →
          pteAddr e ≠ pteAddr phys)

/-- A translation that is not the identity comes from a user entry, and the frame of a user entry has no other
use. -/
theorem UserInv.translationsIsolated (h : UserInv K D S) : TranslationsIsolated K S := by
  intro pid t va phys ht htr
  have hlive : S.Live t.cr3 := ⟨pid, t, ht, rfl⟩
  obtain hid | ⟨e, he, heq⟩ := h.inv.mmuTranslate_cases hlive htr
  · exact .inl hid
  right
  dsimp only at heq
  rw [heq]
  obtain ⟨-, hker, htab⟩ := h.inv.user _ _ _ hlive he
  refine ⟨hker, htab, ?_⟩
  intro pid' t' p e' ht' hne he' hframe
  have hcr3 := (h.inv.unique trivial _ _ _ _ _ _ ⟨pid', t', ht', rfl⟩ hlive he' he hframe).1
  exact hne (h.distinct pid' pid t' t ht' ht hcr3)

/-- In every run whose calls meet the conditions, the translations of the processes are isolated, and those of
the kernel's own frames are the identity. -/
theorem translations_isolated_of_admits {vm : Vm} {ops : List UserOp} {P : ℕ → Prop} (h : Booted K vm)
    (hok : Run.Admits (userStep K.boot) (UserOk (Direct K vm.pmm.totalPages P)) (.init vm) ops) :
    TranslationsIsolated K (Run.run (userStep K.boot) (.init vm) ops) ∧
      KernelReaches (Direct K vm.pmm.totalPages P) (Run.run (userStep K.boot) (.init vm) ops).Live
        (Run.run (userStep K.boot) (.init vm) ops).vm.mem :=
  ⟨(userInv_run h hok).translationsIsolated, (userInv_run h hok).inv.kernelReaches⟩

/-! ### Example machines -/

theorem translations_isolated_demo :
    TranslationsIsolated heapKernel (Run.run (userStep heapKernel.boot) (.init heapVm) heapRun) ∧
      KernelReaches heapDirect (Run.run (userStep heapKernel.boot) (.init heapVm) heapRun).Live
        (Run.run (userStep heapKernel.boot) (.init heapVm) heapRun).vm.mem :=
  translations_isolated_of_admits booted_heap admits_heapRun

/-- A new process can reach the first 2 MB from ring 3, with the kernel's memory and the frame of its own
PML4. -/
theorem user_reaches_kernel :
    ∃ t, (userStep demoKernel.boot (.init demoVm) (.createUser true true)).procs 0 = some t ∧
      (∀ a < 2 ^ 21, mmuTranslate (userStep demoKernel.boot (.init demoVm) (.createUser true true)).vm.mem
        t.cr3 a = some ⟨a, true⟩) ∧
      demoKernel.Page 4096 ∧ t.cr3 < 2 ^ 21 := by
  have hmem : ∀ t ≤ 9, (mapNewPage demoSpace (7 * 4096) userStackVaddr userRw).2.mem (t * 4096) 0 =
      demoSpace.mem (t * 4096) 0 := by decide +kernel
  have hvm : (userStep demoKernel.boot (.init demoVm) (.createUser true true)).vm =
      (mapNewPage demoSpace (7 * 4096) userStackVaddr userRw).2 := by
    rw [userStep, UserSys.init, createUser_demo, UserSys.spawn]
  have hproc : ((userStep demoKernel.boot (.init demoVm) (.createUser true true)).procs 0).map (·.cr3) =
      some (7 * 4096) := by decide +kernel
  obtain ⟨t, ht, hcr3⟩ := Option.map_eq_some_iff.1 hproc
  rw [hvm]
  refine ⟨t, ht, fun a ha => ?_, ⟨rfl, by decide⟩, by rw [hcr3]; decide⟩
  have hidx : ∀ n, 21 ≤ n → a / 2 ^ n % 512 = 0 := fun n hn => by
    rw [Nat.div_eq_of_lt (ha.trans_le (Nat.pow_le_pow_right (by decide) hn))]
  have he4 : pteAddr (demoSpace.mem (7 * 4096) 0) = 8 * 4096 := by decide
  have he3 : pteAddr (demoSpace.mem (8 * 4096) 0) = 9 * 4096 := by decide
  generalize (mapNewPage demoSpace (7 * 4096) userStackVaddr userRw).2.mem = mem at hmem ⊢
  simp only [mmuTranslate, hcr3, hidx 39 (by decide), hidx 30 (by decide), hidx 21 (by decide),
    hmem 7 (by decide), he4, hmem 8 (by decide), he3, hmem 9 (by decide)]
  rw [if_neg (by decide), if_neg (by decide), if_neg (by decide), if_pos (by decide), Nat.mod_eq_of_lt ha]
  rw [(by decide : demoSpace.mem (9 * 4096) 0 / 2 ^ 21 * 2 ^ 21 = 0), Nat.zero_add]
  exact congrArg (fun user => some (Translation.mk a user)) (by decide)

end

end PlantOS.Task
