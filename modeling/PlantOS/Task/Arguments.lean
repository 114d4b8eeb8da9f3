import PlantOS.Fs.PageBytes
import PlantOS.Task.SignalFrame
import PlantOS.Task.UserMemoryInvariant

/-!
# The arguments of a program

`task_create_user_elf` copies the argument strings to the top of the stack page, from the last one down, and
puts the pointers to them and a NULL below. It writes through the physical address of the page; the pointers
are addresses in the user's view, in which the page is at `USER_STACK_VADDR`. The registers with which the
program starts are in the first frame on the kernel stack.

Reference: `task/task.c`.
-/

namespace PlantOS.Task

open PlantOS.Mm PlantOS.Fs Memory Word

/-- The stack page `phys` by user addresses. -/
def stackMem (vm : Vm) (phys : ℕ) : ℕ → UInt8 := fun v => pageByte vm phys (v - userStackVaddr)

/-- A program that starts with these registers finds its arguments in memory. -/
structure ArgsIntact (mem : ℕ → UInt8) (argv : List (List UInt8)) (rsp rdi rsi : ℕ) : Prop where
  argc : rdi = argv.length
  null : load64 mem (rsi + 8 * argv.length) = 0
  string : ∀ i arg, argv[i]? = some arg → load mem (load64 mem (rsi + 8 * i)) (arg.length + 1) = arg ++ [0]
  /-- The strings are above the pointers and end with the page. -/
  area : ∀ i arg, argv[i]? = some arg → rsi + 8 * (argv.length + 1) ≤ load64 mem (rsi + 8 * i) ∧
    load64 mem (rsi + 8 * i) + (arg.length + 1) ≤ userStackTop
  /-- The strings do not overlap. -/
  apart : ∀ i j arg, i < j → j < argv.length → argv[i]? = some arg →
    load64 mem (rsi + 8 * i) + (arg.length + 1) ≤ load64 mem (rsi + 8 * j)
  page : userStackVaddr ≤ rsi
  rsp_aligned : rsp % 16 = 0
  rsp_below : rsp < rsi

/-! ## Stores to the page -/

/-- The bytes of the strings with their terminators. -/
def argBytes (l : List (List UInt8)) : ℕ := (l.map (·.length + 1)).sum

theorem argBytes_cons (arg : List UInt8) (l : List (List UInt8)) :
    argBytes (arg :: l) = arg.length + 1 + argBytes l := List.sum_cons

theorem argBytes_drop_le (l : List (List UInt8)) (i : ℕ) : argBytes (l.drop i) ≤ argBytes l := by
  conv_rhs => rw [← List.take_append_drop i l, argBytes, List.map_append, List.sum_append]
  exact Nat.le_add_left _ _

/-- The place of the string behind the string `i`. -/
theorem argBytes_drop {l : List (List UInt8)} {i : ℕ} {arg : List UInt8} (h : l[i]? = some arg) :
    argBytes (l.drop i) = arg.length + 1 + argBytes (l.drop (i + 1)) := by
  obtain ⟨hi, rfl⟩ := List.getElem?_eq_some_iff.1 h
  rw [List.drop_eq_getElem_cons hi, argBytes_cons]

/-- The offset of the string area in the stack page, with its alignment. -/
def argTop (argv : List (List UInt8)) : ℕ := (4096 - argBytes argv) / 8 * 8

/-- The registers for arguments that fit into the page. -/
theorem argRegs_spec {argv : List (List UInt8)} (hne : argv ≠ []) (hlen : argv.length ≤ 32)
    (hfit : argBytes argv + 8 * (argv.length + 1) ≤ 4096) :
    (argRegs argv).2 = (argv.length, userStackVaddr + (argTop argv - 8 * (argv.length + 1))) ∧
      (argRegs argv).1 % 16 = 0 ∧ (argRegs argv).1 < (argRegs argv).2.2 := by
  have hsum : (argv.map fun a => (a.length + 1 : ℤ)).sum = argBytes argv := by
    clear hne hlen hfit
    induction argv with
    | nil => rfl
    | cons arg l ih =>
      rw [List.map_cons, List.sum_cons, ih, argBytes_cons]
      push_cast
      rfl
  rw [argRegs, if_neg hne, List.take_of_length_le hlen]
  dsimp only
  rw [hsum]
  have htop : argTop argv = (4096 - argBytes argv) / 8 * 8 := rfl
  have hblock : (4096 - (argBytes argv : ℤ)) / 8 * 8 - 8 - 8 * argv.length =
    (argTop argv - 8 * (argv.length + 1) : ℕ) := by omega
  rw [hblock]
  generalize argTop argv - 8 * (argv.length + 1) = off at *
  have hrsi : wrap 64 (0x7FF000 + (off : ℤ)) = userStackVaddr + off :=
    wrap_of_lt (Nat.cast_add _ _).symm (by rw [userStackVaddr]; omega)
  have hrsp : wrap 64 (0x7FF000 + ((off : ℤ) - 8) / 16 * 16) = (userStackVaddr + off - 8) / 16 * 16 :=
    wrap_of_lt (by rw [userStackVaddr]; omega) (by rw [userStackVaddr]; omega)
  rw [hrsi, hrsp]
  refine ⟨rfl, by omega, ?_⟩
  rw [userStackVaddr]
  omega

section

variable {vm : Vm} {phys : ℕ} (hal : phys % 4096 = 0)
include hal

theorem pageByte_writeBytes {bytes : List UInt8} {off : ℕ} (hlen : off + bytes.length ≤ 4096) :
    pageByte (writeBytes vm (phys + off) bytes) phys = store (pageByte vm phys) off bytes := by
  induction bytes generalizing vm off with
  | nil =>
    rw [writeBytes]
    exact funext fun x => (store_of_not_mem (by rw [List.length_nil]; omega)).symm
  | cons b bytes ih =>
    rw [List.length_cons] at hlen
    rw [writeBytes, Nat.add_assoc, ih (by omega), pageByte_writeByte hal (by omega), store_cons]

/-- The strings are at the top of the page, one behind the other. -/
theorem pushStrings_mem (l : List (List UInt8)) (hsum : argBytes l ≤ 4096) :
    (l.foldr (pushString phys) (vm, 4096, [])).2.1 = (4096 - argBytes l : ℕ) ∧
      (l.foldr (pushString phys) (vm, 4096, [])).2.2 =
        (List.range l.length).map (fun i => userStackVaddr + (4096 - argBytes (l.drop i))) ∧
      ∀ i arg, l[i]? = some arg → load (pageByte (l.foldr (pushString phys) (vm, 4096, [])).1 phys)
        (4096 - argBytes (l.drop i)) (arg.length + 1) = arg ++ [0] := by
  induction l with
  | nil => exact ⟨rfl, rfl, fun i arg h => (by cases h)⟩
  | cons arg l ih =>
    have hcons := argBytes_cons arg l
    obtain ⟨hoff, hptrs, hstr⟩ := ih (by omega)
    rw [List.foldr_cons]
    generalize l.foldr (pushString phys) (vm, 4096, []) = st at hoff hptrs hstr ⊢
    have hnew : st.2.1 - (arg.length + 1) = (4096 - argBytes (arg :: l) : ℕ) := by omega
    have hlen : (arg ++ [0]).length = arg.length + 1 := List.length_append
    have hmem : pageByte (pushString phys arg st).1 phys =
        store (pageByte st.1 phys) (4096 - argBytes (arg :: l)) (arg ++ [0]) := by
      rw [pushString, hnew, argDst, if_pos (Int.natCast_nonneg _), Int.toNat_natCast]
      exact pageByte_writeBytes hal (by omega)
    refine ⟨hnew, ?_, fun i a ha => ?_⟩
    · have hptr : wrap 64 (userStackVaddr + (4096 - argBytes (arg :: l) : ℕ)) =
          userStackVaddr + (4096 - argBytes (arg :: l)) :=
        wrap_of_lt (Nat.cast_add _ _).symm (by rw [userStackVaddr]; omega)
      rw [pushString, hnew, hptrs, hptr, List.length_cons, List.range_succ_eq_map, List.map_cons,
        List.map_map]
      rfl
    · rw [hmem]
      cases i with
      | zero =>
        obtain rfl := Option.some.inj ha
        have hself := load_store_self (pageByte st.1 phys) (4096 - argBytes (arg :: l)) (arg ++ [0])
        rwa [hlen] at hself
      | succ i =>
        have hle := argBytes_drop_le l i
        rw [List.drop_succ_cons, load_store_of_disjoint (.inr (by omega)), hstr i a ha]

/-- The words are below `off`, in their order, and what is above stays. -/
theorem pushWords_mem (words : List ℕ) {off : ℕ} (hlo : 8 * words.length ≤ off) (hhi : off ≤ 4096)
    (h8 : off % 8 = 0) :
    (words.foldr (pushWord phys) (vm, off)).2 = (off - 8 * words.length : ℕ) ∧
      (∀ i w, words[i]? = some w → load64 (pageByte (words.foldr (pushWord phys) (vm, off)).1 phys)
        (off - 8 * words.length + 8 * i) = w % 2 ^ 64) ∧
      ∀ x, off ≤ x → pageByte (words.foldr (pushWord phys) (vm, off)).1 phys x = pageByte vm phys x := by
  induction words with
  | nil => exact ⟨rfl, fun i w h => (by cases h), fun _ _ => rfl⟩
  | cons w words ih =>
    rw [List.length_cons] at hlo ⊢
    obtain ⟨hoff, hwords, habove⟩ := ih (by omega)
    rw [List.foldr_cons]
    generalize words.foldr (pushWord phys) (vm, (off : ℤ)) = st at hoff hwords habove ⊢
    have hnew : st.2 - 8 = (off - 8 * (words.length + 1) : ℕ) := by omega
    have hmem : pageByte (pushWord phys w st).1 phys =
        store64 (pageByte st.1 phys) (off - 8 * (words.length + 1)) w := by
      have hidx : (phys + (off - 8 * (words.length + 1))) % 4096 / 8 =
        (off - 8 * (words.length + 1)) / 8 := by omega
      rw [pushWord, hnew, argDst_page hal (by omega) (by omega), argDst, if_pos (Int.natCast_nonneg _),
        Int.toNat_natCast, hidx, pageByte_set (by omega)]
    refine ⟨hnew, fun i w' hw' => ?_, fun x hx => ?_⟩
    · rw [hmem]
      cases i with
      | zero =>
        obtain rfl := Option.some.inj hw'
        exact load64_store64_self
      | succ i =>
        rw [load64_store64_of_disjoint (.inr (by omega)), ← hwords i w' hw']
        congr 1
        omega
    · rw [hmem, ← habove x hx]
      exact if_neg (by omega)

omit hal in
theorem load_stackMem (a n : ℕ) :
    load (stackMem vm phys) (userStackVaddr + a) n = load (pageByte vm phys) a n :=
  List.map_congr_left fun i _ => by rw [stackMem, Nat.add_assoc, Nat.add_sub_cancel_left]

/-- The argument block in the page. -/
theorem pushArgs_mem {argv : List (List UInt8)} (hne : argv ≠ []) (hlen : argv.length ≤ 32)
    (hfit : ArgsFit argv) :
    ArgsIntact (stackMem (pushArgs phys argv vm) phys) argv (argRegs argv).1 (argRegs argv).2.1
      (argRegs argv).2.2 := by
  have htake : argv.take 32 = argv := List.take_of_length_le hlen
  rw [ArgsFit, htake] at hfit
  change argBytes argv + _ ≤ _ at hfit
  have htop : argTop argv = (4096 - argBytes argv) / 8 * 8 := rfl
  obtain ⟨hoff, hptrs, hstr⟩ := @pushStrings_mem vm phys hal argv (by omega)
  have hargs : pushArgs phys argv vm = _ := if_neg hne
  rw [htake] at hargs
  dsimp only at hargs
  generalize argv.foldr (pushString phys) (vm, 4096, []) = st at hoff hptrs hstr hargs
  -- the terminator is one more word behind the pointers
  have hone : pushWord phys 0 (st.1, (argTop argv : ℤ)) =
    [0].foldr (pushWord phys) (st.1, (argTop argv : ℤ)) := rfl
  rw [show st.2.1 / 8 * 8 = (argTop argv : ℤ) by omega, hone, ← List.foldr_append] at hargs
  have hcount : st.2.2.length = argv.length := by rw [hptrs, List.length_map, List.length_range]
  have hcount' : (st.2.2 ++ [0]).length = argv.length + 1 := by
    rw [List.length_append, hcount, List.length_singleton]
  obtain ⟨-, hwords, habove⟩ := @pushWords_mem st.1 phys hal (st.2.2 ++ [0]) (argTop argv) (by omega)
    (by omega) (by omega)
  rw [← hargs, hcount'] at hwords
  rw [← hargs] at habove
  obtain ⟨hregs, haligned, hbelow⟩ := argRegs_spec hne hlen hfit
  have hrsi : (argRegs argv).2.2 = userStackVaddr + (argTop argv - 8 * (argv.length + 1)) :=
    congrArg Prod.snd hregs
  have hload : ∀ i w, (st.2.2 ++ [0])[i]? = some w →
      load64 (stackMem (pushArgs phys argv vm) phys) ((argRegs argv).2.2 + 8 * i) = w % 2 ^ 64 := by
    intro i w hw
    rw [hrsi, ← hwords i w hw, Nat.add_assoc]
    exact congrArg Bytes.leNat (load_stackMem _ 8)
  -- the pointers
  have hptr : ∀ i < argv.length, load64 (stackMem (pushArgs phys argv vm) phys) ((argRegs argv).2.2 + 8 * i) =
      userStackVaddr + (4096 - argBytes (argv.drop i)) := fun i hi => by
    have hword : (st.2.2 ++ [0])[i]? = some (userStackVaddr + (4096 - argBytes (argv.drop i))) := by
      rw [List.getElem?_append_left (hcount ▸ hi), hptrs, List.getElem?_map, List.getElem?_range hi]
      rfl
    rw [hload i _ hword, Nat.mod_eq_of_lt]
    rw [userStackVaddr]
    omega
  have hlt : ∀ {i arg}, argv[i]? = some arg → i < argv.length := fun h => (List.getElem?_eq_some_iff.1 h).1
  refine ⟨congrArg Prod.fst hregs, ?_, fun i arg h => ?_, fun i arg h => ?_, fun i j arg hij hj h => ?_, ?_,
    haligned, hbelow⟩
  · exact hload _ 0 (by rw [← hcount, List.getElem?_append_right le_rfl, Nat.sub_self]; rfl)
  · have hle := argBytes_drop_le argv i
    rw [hptr i (hlt h), load_stackMem, ← hstr i arg h]
    exact load_congr fun x hx _ => habove x (by omega)
  · have hle := argBytes_drop_le argv i
    have hnext := argBytes_drop h
    rw [hptr i (hlt h), hrsi, userStackTop, userStackVaddr]
    omega
  · have hnext := argBytes_drop h
    have hle := argBytes_drop_le argv i
    have hle' := argBytes_drop_le (argv.drop (i + 1)) (j - (i + 1))
    rw [List.drop_drop, Nat.add_sub_cancel' hij] at hle'
    rw [hptr i (hlt h), hptr j hj]
    omega
  · rw [hrsi]
    exact Nat.le_add_right _ _

end

/-! ## The new task -/

/-- The words of a frame that was pushed. -/
theorem frameWord_pushFrame (mem : ℕ → UInt8) (top : ℕ) (f : Frame) (j : Fin 22) :
    frameWord (pushFrame mem top f) (top - 176) j = f j % 2 ^ 64 := by
  have hlist : ∀ l : List (Fin 22), j ∈ l → frameWord (l.foldr (fun (i : Fin 22) mem =>
      store64 mem (top - 176 + 8 * i) (f i)) mem) (top - 176) j = f j % 2 ^ 64 := fun l hj => by
    induction l with
    | nil => exact absurd hj List.not_mem_nil
    | cons i l ih =>
      rw [List.foldr_cons, frameWord_store]
      split_ifs with h
      · rw [h]
      · exact ih ((List.mem_cons.1 hj).resolve_left h)
  exact hlist _ (List.mem_finRange j)

theorem taskInsert_rsp (s : TaskSys) (i j : Slot) :
    (taskInsert s i).mem = s.mem ∧ ((taskInsert s i).tasks j).rsp = (s.tasks j).rsp := by
  have hmodify : ∀ (s : TaskSys) k (l : Option Slot),
      ((s.modify k fun t => { t with next := l }).tasks j).rsp = (s.tasks j).rsp := fun s k l => by
    by_cases h : j = k
    · rw [h, tasks_modify_self]
    · rw [tasks_modify_ne h]
  rw [taskInsert]
  split
  · exact ⟨rfl, hmodify _ _ _⟩
  · exact ⟨rfl, (hmodify _ _ _).trans (hmodify _ _ _)⟩

theorem frameWord_startTask (s : TaskSys) (i : Slot) (top : ℕ) (f : Frame) (j : Fin 22) :
    frameWord (startTask s i top f).2.mem ((startTask s i top f).2.tasks i).rsp j = f j % 2 ^ 64 := by
  rw [startTask, (taskInsert_rsp _ _ i).1, (taskInsert_rsp _ _ i).2, tasks_modify_self]
  dsimp only [TaskSys.modify]
  rw [frameWord_pushFrame]

/-- The first frame of a task that `task_create_user_elf` has created. -/
theorem frameWord_taskCreateElfTcb {s : TaskSys} {entry base npages cr3 ustack kstack : ℕ}
    {argv : List (List UInt8)} {i : Slot}
    (h : (taskCreateElfTcb s entry base npages cr3 argv ustack kstack).1 = some i) (j : Fin 22) :
    frameWord (taskCreateElfTcb s entry base npages cr3 argv ustack kstack).2.mem
        ((taskCreateElfTcb s entry base npages cr3 argv ustack kstack).2.tasks i).rsp j =
      userFrame entry (argRegs argv).1 (argRegs argv).2.1 (argRegs argv).2.2 j % 2 ^ 64 := by
  rw [taskCreateElfTcb] at h ⊢
  split
  · next hnone =>
    rw [hnone] at h
    cases h
  · next k s' hsome =>
    rw [hsome] at h
    dsimp only at h ⊢
    split at h
    · cases h
    next hok =>
    rw [if_neg hok]
    obtain rfl := Option.some.inj h
    exact frameWord_startTask _ _ _ _ j

/-- For 1 to 32 arguments that fit into the stack page, the program that `task_create_user_elf` starts finds
their number in `rdi`, the array of pointers to their copies at `rsi`, and its stack below; all that is stored
for them is in the stack page. -/
theorem user_args_intact {argv : List (List UInt8)} (hne : argv ≠ []) (hlen : argv.length ≤ 32)
    (hfit : ArgsFit argv) {vm : Vm} {info : ElfInfo} {cr3 : ℕ} {slotOk kstackOk : Bool}
    (hproc : (taskCreateUserElf vm info cr3 argv slotOk kstackOk).1.isSome)
    {s : TaskSys} {kstack : ℕ} {i : Slot} (htask : (taskCreateElfTcb s info.entry info.loadBase info.numPages
      cr3 argv vm.alloc.1 kstack).1 = some i) :
    let vm' := (taskCreateUserElf vm info cr3 argv slotOk kstackOk).2
    let s' := (taskCreateElfTcb s info.entry info.loadBase info.numPages cr3 argv vm.alloc.1 kstack).2
    let reg := frameWord s'.mem (s'.tasks i).rsp
    ArgsIntact (stackMem vm' vm.alloc.1) argv (reg 20) (reg 9) (reg 10) ∧
      WritesOnly (· = vm.alloc.1) (mapNewPage vm cr3 userStackVaddr userRw).2 vm' := by
  intro vm' s' reg
  have hal : vm.alloc.1 % 4096 = 0 := by
    rw [Vm.alloc, pmmAllocPage]
    split
    · exact Nat.mul_mod_left _ _
    · rfl
  have hvm : vm' = pushArgs vm.alloc.1 argv (mapNewPage vm cr3 userStackVaddr userRw).2 := by
    simp only [vm', taskCreateUserElf] at hproc ⊢
    split at hproc
    · cases hproc
    next hslot =>
    rw [if_neg hslot]
    split at hproc
    · next hok => rw [if_pos hok]
    · cases hproc
  obtain ⟨hregs, -, hbelow⟩ := argRegs_spec hne hlen (by rwa [ArgsFit, List.take_of_length_le hlen] at hfit)
  have hlt : (argRegs argv).2.2 < 2 ^ 64 := by
    rw [hregs, userStackVaddr, argTop]
    omega
  have hreg := frameWord_taskCreateElfTcb htask
  have hrsp : reg 20 = (argRegs argv).1 := (hreg 20).trans (Nat.mod_eq_of_lt (hbelow.trans hlt))
  have hargc : (argRegs argv).2.1 = argv.length := congrArg Prod.fst hregs
  have hrdi : reg 9 = (argRegs argv).2.1 := (hreg 9).trans (Nat.mod_eq_of_lt (hargc.trans_lt (by omega)))
  have hrsi : reg 10 = (argRegs argv).2.2 := (hreg 10).trans (Nat.mod_eq_of_lt hlt)
  rw [hvm, hrsp, hrdi, hrsi]
  exact ⟨pushArgs_mem hal hne hlen hfit, pushArgs_spec hal hfit⟩

/-- A memory with one table, in which the frames from 2 to 9 are free. -/
def argVm : Vm := ⟨fun _ _ => 0, ⟨fun i => decide (i < 2 ∨ 10 ≤ i), 16, 8⟩⟩

/-- The argument "hi". -/
theorem user_args_intact_hi :
    ∃ rsp rdi rsi, rdi = 1 ∧ ArgsIntact (stackMem (taskCreateUserElf argVm ⟨0x400000, 0x400000, 1⟩ 4096
      [[104, 105]] true true).2 argVm.alloc.1) [[104, 105]] rsp rdi rsi := by
  have hproc : (taskCreateUserElf argVm ⟨0x400000, 0x400000, 1⟩ 4096 [[104, 105]] true true).1.isSome := by
    decide +kernel
  have htask : (taskCreateElfTcb (TaskSys.boot 4096) 0x400000 0x400000 1 4096 [[104, 105]] argVm.alloc.1
    0x10000).1 = some 0 := by decide +kernel
  have hargs := (user_args_intact (by decide) (by decide) (by decide) hproc htask).1
  exact ⟨_, _, _, hargs.argc, hargs⟩

end PlantOS.Task
