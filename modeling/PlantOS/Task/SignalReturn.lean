import PlantOS.Task.SignalFrame

/-!
# Returning from signal handlers

`signal_deliver` saves `rip` and `rflags` on the user stack, and `signal_return` restores them together with
the stack pointer. The general registers are not saved: the program resumes with those that the handler has
when it calls `SYS_SIGRETURN`, among them the number of the call in `rax`.

The memory of the program is a set `U` of addresses that holds the words below its stack pointer and no word
of the frame on the kernel stack.

Reference: `task/signal.c`, `cpu/syscall.c`, `cpu/syscall_stub.asm`.
-/

namespace PlantOS.Task

open Memory Word

/-- The saved frame at `frame` is that of a program with the memory `U`: its stack has room for the words that
are pushed, and the frame is not in its memory. -/
structure UserStack (U : ℕ → Prop) (mem : ℕ → UInt8) (frame : ℕ) : Prop where
  room : 24 ≤ frameWord mem frame 20
  words : ∀ a, a < frameWord mem frame 20 → frameWord mem frame 20 ≤ a + 24 → U a
  apart : ∀ a, U a → a < frame ∨ frame + 176 ≤ a

/-- A handler that was entered with the memory `mem` and the stack pointer `sp` calls `SYS_SIGRETURN` with the
memory `mem'` and the registers `regs`: the stack pointer is where it was, and nothing was written above. -/
structure HandlerReturns (U : ℕ → Prop) (mem : ℕ → UInt8) (sp : ℕ) (mem' : ℕ → UInt8) (regs : Frame) :
    Prop where
  rsp : regs 20 = sp
  call : regs 14 = 7
  keeps : ∀ a, U a → sp ≤ a → mem' a = mem a

/-- The program resumes as it was interrupted: with the registers of the saved frame and the memory above its
stack pointer. -/
structure Transparent (U : ℕ → Prop) (mem : ℕ → UInt8) (frame : ℕ) (mem' : ℕ → UInt8) (regs : Frame) :
    Prop where
  general : ∀ j : Fin 22, j ≤ 14 → regs j = frameWord mem frame j
  rip : regs 17 = frameWord mem frame 17
  rflags : regs 19 = frameWord mem frame 19
  rsp : regs 20 = frameWord mem frame 20
  memory : ∀ a, U a → frameWord mem frame 20 ≤ a → mem' a = mem a

section

variable {U : ℕ → Prop} {mem : ℕ → UInt8} {frame sig handler : ℕ}

/-- There is room below the stack pointer, so it does not wrap. -/
theorem UserStack.wrap_sub (h : UserStack U mem frame) {d : ℕ} (hd : d ≤ 24) :
    wrap 64 (frameWord mem frame 20 - d) = frameWord mem frame 20 - d := by
  have hlt := load64_lt mem (frame + 8 * (20 : Fin 22))
  have := h.room
  refine wrap_of_lt ?_ (by rw [frameWord]; omega)
  omega

/-- The words that are pushed are not in the frame. -/
theorem UserStack.word_apart (h : UserStack U mem frame) {d : ℕ} (hd : 8 ≤ d) (hd' : d ≤ 24) :
    frameWord mem frame 20 - d + 8 ≤ frame ∨ frame + 176 ≤ frameWord mem frame 20 - d := by
  have hroom := h.room
  have hfirst := h.apart _ (h.words (frameWord mem frame 20 - d) (by omega) (by omega))
  have hlast := h.apart _ (h.words (frameWord mem frame 20 - d + 7) (by omega) (by omega))
  omega

/-- The words that are pushed are in the memory of the program, and the frame is not. -/
theorem UserStack.stackApart (h : UserStack U mem frame) : StackApart mem frame := by
  have hword : ∀ d : ℕ, 8 ≤ d → d ≤ 24 → wrap 64 (frameWord mem frame 20 - d) + 8 ≤ frame ∨
      frame + 176 ≤ wrap 64 (frameWord mem frame 20 - d) := by
    intro d hd hd'
    rw [h.wrap_sub hd']
    exact h.word_apart hd hd'
  intro d hd
  simp only [List.mem_cons, List.not_mem_nil, or_false] at hd
  obtain rfl | rfl | rfl := hd
  · exact hword 8 (by decide) (by decide)
  · exact hword 16 (by decide) (by decide)
  · exact hword 24 (by decide) (by decide)

/-- The stores of the entry of a handler: three words on the user stack and three in the frame. -/
theorem UserStack.enterHandler_eq (h : UserStack U mem frame) :
    enterHandler mem frame sig handler =
      store64 (store64 (store64
        (store64 (store64 (store64 mem (frameWord mem frame 20 - 8) sig)
          (frameWord mem frame 20 - 16) (frameWord mem frame 19))
          (frameWord mem frame 20 - 24) (frameWord mem frame 17))
        (frame + 8 * 17) handler) (frame + 8 * 20) (frameWord mem frame 20 - 24)) (frame + 8 * 9) sig := by
  have h8 := h.wrap_sub (d := 8) (by decide)
  have h16 := h.wrap_sub (d := 16) (by decide)
  have h24 := h.wrap_sub (d := 24) (by decide)
  push_cast at h8 h16 h24
  simp only [enterHandler, pushUser, wrap_wrap_sub, Int.reduceAdd]
  rw [h8, h16, h24]

/-- The words that the entry of a handler leaves on the user stack. -/
theorem UserStack.pushed (h : UserStack U mem frame) :
    load64 (enterHandler mem frame sig handler) (frameWord mem frame 20 - 24) = frameWord mem frame 17 ∧
      load64 (enterHandler mem frame sig handler) (frameWord mem frame 20 - 16) = frameWord mem frame 19 := by
  have hroom := h.room
  have h16 := h.word_apart (d := 16) (by decide) (by decide)
  have h24 := h.word_apart (d := 24) (by decide) (by decide)
  rw [h.enterHandler_eq]
  constructor
  · rw [load64_store64_of_disjoint (by omega), load64_store64_of_disjoint (by omega),
      load64_store64_of_disjoint (by omega), load64_store64_self]
    exact Nat.mod_eq_of_lt (load64_lt _ _)
  · rw [load64_store64_of_disjoint (by omega), load64_store64_of_disjoint (by omega),
      load64_store64_of_disjoint (by omega), load64_store64_of_disjoint (by omega), load64_store64_self]
    exact Nat.mod_eq_of_lt (load64_lt _ _)

/-- The entry of a handler changes nothing above the stack pointer. -/
theorem UserStack.above (h : UserStack U mem frame) {a : ℕ} (hU : U a) (ha : frameWord mem frame 20 ≤ a) :
    enterHandler mem frame sig handler a = mem a := by
  have hroom := h.room
  have hout := h.apart a hU
  have hkeep : ∀ (m : ℕ → UInt8) (b v : ℕ), (a < b ∨ b + 8 ≤ a) → store64 m b v a = m a :=
    fun m b v hb => if_neg (by omega)
  rw [h.enterHandler_eq, hkeep _ _ _ (by omega), hkeep _ _ _ (by omega), hkeep _ _ _ (by omega),
    hkeep _ _ _ (by omega), hkeep _ _ _ (by omega), hkeep _ _ _ (by omega)]

/-- What `signal_return` restores after a handler that keeps its stack. -/
theorem HandlerReturns.restored {mem' : ℕ → UInt8} {regs : Frame} (h : UserStack U mem frame)
    (hret : HandlerReturns U (enterHandler mem frame sig handler) (frameWord mem frame 20 - 24) mem' regs) :
    signalReturn mem' regs 17 = frameWord mem frame 17 ∧
      signalReturn mem' regs 19 = frameWord mem frame 19 ∧
      signalReturn mem' regs 20 = frameWord mem frame 20 := by
  have hroom := h.room
  have hlt := load64_lt mem (frame + 8 * (20 : Fin 22))
  rw [← frameWord] at hlt
  obtain ⟨hrip, hrflags⟩ := @UserStack.pushed _ _ _ sig handler h
  have hword : ∀ d, d ≤ 24 → 8 ≤ d → load64 mem' (frameWord mem frame 20 - d) =
      load64 (enterHandler mem frame sig handler) (frameWord mem frame 20 - d) := by
    intro d hd hd'
    refine load64_congr fun x hx hx' => hret.keeps x (h.words x (by omega) (by omega)) (by omega)
  have hup : ∀ d : ℕ, 8 ≤ d → d ≤ 24 → wrap 64 ((frameWord mem frame 20 - d : ℕ) + 8) =
      frameWord mem frame 20 - (d - 8) := by
    intro d hd hd'
    exact wrap_of_lt (by omega) (by omega)
  have h1 := hup 24 (by decide) (by decide)
  have h2 := hup 16 (by decide) (by decide)
  have h3 := hup 8 (by decide) (by decide)
  simp only [signalReturn, hret.rsp]
  rw [h1, h2, h3]
  refine ⟨?_, ?_, ?_⟩
  · rw [Function.update_of_ne (by decide), Function.update_of_ne (by decide), Function.update_self,
      hword 24 (by decide) (by decide), hrip]
  · rw [Function.update_of_ne (by decide), Function.update_self, hword 16 (by decide) (by decide), hrflags]
  · rw [Function.update_self]
    rfl

theorem signalReturn_general (mem : ℕ → UInt8) (regs : Frame) {j : Fin 22} (hj : j ≤ 14) :
    signalReturn mem regs j = regs j := by
  simp only [signalReturn]
  rw [Function.update_of_ne (by omega), Function.update_of_ne (by omega), Function.update_of_ne (by omega)]

/-- The handler is transparent if and only if it has put back all general registers; `rax` holds the number of
the call, so that the program must have been interrupted with this value. -/
theorem HandlerReturns.transparent_iff {mem' : ℕ → UInt8} {regs : Frame} (h : UserStack U mem frame)
    (hret : HandlerReturns U (enterHandler mem frame sig handler) (frameWord mem frame 20 - 24) mem' regs) :
    Transparent U mem frame mem' (signalReturn mem' regs) ↔
      frameWord mem frame 14 = 7 ∧ ∀ j : Fin 22, j < 14 → regs j = frameWord mem frame j := by
  obtain ⟨hrip, hrflags, hrsp⟩ := hret.restored h
  constructor
  · intro ht
    have hreg : ∀ j : Fin 22, j ≤ 14 → regs j = frameWord mem frame j := by
      intro j hj
      rw [← ht.general j hj, signalReturn_general _ _ hj]
    exact ⟨(hreg 14 (le_refl _)).symm.trans hret.call, fun j hj => hreg j hj.le⟩
  · rintro ⟨hrax, hregs⟩
    refine ⟨fun j hj => ?_, hrip, hrflags, hrsp, fun a hU ha => ?_⟩
    · rw [signalReturn_general _ _ hj]
      obtain rfl | hlt := hj.eq_or_lt
      · rw [hret.call, hrax]
      · exact hregs j hlt
    · rw [hret.keeps a hU (by omega), h.above hU ha]

end

/-- A handler is transparent exactly if it restores the general registers itself, and the program was
interrupted with the number of `SYS_SIGRETURN` in `rax`. `rip`, `rflags`, the stack pointer and the memory
above it are restored in any case. -/
theorem handler_transparent_iff {s : TaskSys} {i : Slot} {sig : ℕ} {U : ℕ → Prop}
    (hsig : EntersHandler (s.tasks i) sig) (hstack : UserStack U s.mem (s.tasks i).rsp) :
    ∃ s', signalDeliver s i = some s' ∧
      frameWord s'.mem (s'.tasks i).rsp 17 = (s.tasks i).handler sig % 2 ^ 64 ∧
      ∀ mem' regs, HandlerReturns U s'.mem (frameWord s'.mem (s'.tasks i).rsp 20) mem' regs →
        (Transparent U s.mem (s.tasks i).rsp mem' (signalReturn mem' regs) ↔
          frameWord s.mem (s.tasks i).rsp 14 = 7 ∧
            ∀ j : Fin 22, j < 14 → regs j = frameWord s.mem (s.tasks i).rsp j) := by
  refine ⟨_, signalDeliver_enters hsig, ?_, fun mem' regs hret => ?_⟩
  · simp only [tasks_modify_self]
    rw [frameWord_enterHandler hstack.stackApart, if_neg (by decide), if_neg (by decide), if_pos rfl]
  · have hsp : frameWord (enterHandler s.mem (s.tasks i).rsp sig ((s.tasks i).handler sig))
        (s.tasks i).rsp 20 = frameWord s.mem (s.tasks i).rsp 20 - 24 := by
      rw [frameWord_enterHandler hstack.stackApart, if_neg (by decide), if_pos rfl]
      exact hstack.wrap_sub (d := 24) (by decide)
    simp only [tasks_modify_self, hsp] at hret
    exact hret.transparent_iff hstack

/-! ## Two programs

A process registers a handler for SIGUSR1, is interrupted with the registers `f` and gets the signal. Its
memory is the last page below 8 MB.
-/

def signalRun (f : Frame) : List MachineOp :=
  [.call (.createUser 0x400000 0x9000 0x8000 0x50000), .timer 0x7000 (kernelFrame 0x70B0 0x201000 0 0) 0,
    .call (.register 3 0x401000), .timer 0x50F50 f 0, .call (.signal 2 3)]

def stackPage (a : ℕ) : Prop := 0x7FF000 ≤ a ∧ a < 0x800000

/-- The registers with which a handler that has changed nothing but `rax` returns. -/
def unchangedRegs (mem : ℕ → UInt8) (frame : ℕ) : Frame := fun j =>
  if (j : ℕ) = 14 then 7 else frameWord mem frame j

theorem userStack_page {mem : ℕ → UInt8} {frame : ℕ} (hframe : frame = 0x50F50)
    (hrsp : frameWord mem frame 20 = 0x7FFF00) : UserStack stackPage mem frame where
  room := by rw [hrsp]; decide
  words a hlt hle := by
    rw [hrsp] at hlt hle
    exact ⟨by omega, by omega⟩
  apart a ha := .inr (by have := ha.1; omega)

/-- The handler puts the registers back, and the program was interrupted with 7 in `rax`. -/
theorem handler_transparent_iff_restored :
    ∃ s s', Run.runM (machineStep 4096) (schedInit 4096 0x200000 0x70000)
        (signalRun (Function.update (userFrame 0x400010 0x7FFF00 5 6) 14 7)) = some s ∧
      signalDeliver s 2 = some s' ∧ Transparent stackPage s.mem (s.tasks 2).rsp s'.mem
        (signalReturn s'.mem (Function.update (unchangedRegs s'.mem (s'.tasks 2).rsp) 9 5)) := by
  have heval : (Run.runM (machineStep 4096) (schedInit 4096 0x200000 0x70000)
      (signalRun (Function.update (userFrame 0x400010 0x7FFF00 5 6) 14 7))).map (fun s =>
      (decide (EntersHandler (s.tasks 2) 3), (s.tasks 2).rsp, frameWord s.mem (s.tasks 2).rsp 20,
        frameWord s.mem (s.tasks 2).rsp 14, frameWord s.mem (s.tasks 2).rsp 9)) =
      some (true, 0x50F50, 0x7FFF00, 7, 5) := by decide +kernel
  obtain ⟨s, hrun, heq⟩ := Option.map_eq_some_iff.1 heval
  simp only [Prod.mk.injEq, decide_eq_true_eq] at heq
  obtain ⟨hsig, hframe, hrsp, hrax, hrdi⟩ := heq
  have hstack := userStack_page hframe hrsp
  obtain ⟨s', hs', -, hiff⟩ := handler_transparent_iff hsig hstack
  refine ⟨s, s', hrun, hs', (hiff _ _ ⟨?_, ?_, fun _ _ _ => rfl⟩).2 ⟨hrax, fun j hj => ?_⟩⟩
  · rfl
  · rfl
  · obtain rfl := Option.some.inj ((signalDeliver_enters hsig).symm.trans hs')
    by_cases h9 : j = 9
    · subst h9
      rw [Function.update_self, hrdi]
    · simp only [tasks_modify_self]
      rw [Function.update_of_ne h9, unchangedRegs, if_neg (by omega), frameWord_enterHandler hstack.stackApart,
        if_neg h9, if_neg (by omega), if_neg (by omega)]

/-- A handler that changes no register but `rax`, for the call: the program resumes with the number of the
signal in `rdi` and the number of the call in `rax`. -/
theorem handler_changes_registers :
    ∃ s s', Run.runM (machineStep 4096) (schedInit 4096 0x200000 0x70000)
        (signalRun (userFrame 0x400010 0x7FFF00 5 6)) = some s ∧
      signalDeliver s 2 = some s' ∧ UserStack stackPage s.mem (s.tasks 2).rsp ∧
      HandlerReturns stackPage s'.mem (frameWord s'.mem (s'.tasks 2).rsp 20) s'.mem
        (unchangedRegs s'.mem (s'.tasks 2).rsp) ∧
      frameWord s.mem (s.tasks 2).rsp 9 = 5 ∧
      signalReturn s'.mem (unchangedRegs s'.mem (s'.tasks 2).rsp) 9 = 3 ∧
      ¬Transparent stackPage s.mem (s.tasks 2).rsp s'.mem
        (signalReturn s'.mem (unchangedRegs s'.mem (s'.tasks 2).rsp)) := by
  have heval : (Run.runM (machineStep 4096) (schedInit 4096 0x200000 0x70000)
      (signalRun (userFrame 0x400010 0x7FFF00 5 6))).map (fun s =>
      (decide (EntersHandler (s.tasks 2) 3), (s.tasks 2).rsp, frameWord s.mem (s.tasks 2).rsp 20,
        frameWord s.mem (s.tasks 2).rsp 9)) = some (true, 0x50F50, 0x7FFF00, 5) := by decide +kernel
  obtain ⟨s, hrun, heq⟩ := Option.map_eq_some_iff.1 heval
  simp only [Prod.mk.injEq, decide_eq_true_eq] at heq
  obtain ⟨hsig, hframe, hrsp, hrdi⟩ := heq
  have hstack := userStack_page hframe hrsp
  refine ⟨s, _, hrun, signalDeliver_enters hsig, hstack, ⟨rfl, rfl, fun _ _ _ => rfl⟩, hrdi, ?_⟩
  simp only [tasks_modify_self]
  have hback : signalReturn (enterHandler s.mem (s.tasks 2).rsp 3 ((s.tasks 2).handler 3)) (unchangedRegs
      (enterHandler s.mem (s.tasks 2).rsp 3 ((s.tasks 2).handler 3)) (s.tasks 2).rsp) 9 = 3 := by
    rw [signalReturn_general _ _ (by decide), unchangedRegs, if_neg (by decide),
      frameWord_enterHandler hstack.stackApart, if_pos rfl]
    exact Nat.mod_eq_of_lt (by decide)
  refine ⟨hback, fun ht => ?_⟩
  have h9 := ht.general 9 (by decide)
  rw [hback, hrdi] at h9
  exact absurd h9 (by decide)

end PlantOS.Task
