import PlantOS.Net.TcpChange

/-!
# Which slots come back

The calls of the socket layer give up a slot in two ways: they free it, or they find that the connection is
over and leave it. A reset ends a connection without freeing its slot: `tcp_rx` sets the state to `CLOSED` and
keeps `used`. `tcp_close` and the waiting loop of `tcp_connect` take that for the end, and nothing frees the
slot afterwards. The other endings free it, so a used slot is in `CLOSED` exactly if its connection has been
reset (`ResetInv`).

Reference: `net/tcp.c`.
-/

namespace PlantOS.Net

/-- The step delivers a reset to the connection that slot `i` holds for the `gen`-th time. -/
def ResetOf (i : Fin 16) (gen : ℕ) (s : TcpSys) (op : TcpOp) : Prop :=
  (∃ seg, s.delivers i op = some seg ∧ seg.has tcpRst) ∧ (s.conns i).gen = gen

/-- The slot that a call gives up in this step: `tcp_close` returns, or `tcp_connect` or `tcp_accept` returns
-1 after it has taken a slot. -/
def TcpSys.givesUp (net : TcpNet) (s : TcpSys) : TcpOp → Option (Fin 16)
  | .close t conn => if (s.calls t).ready then (tcpIndex conn).filter fun i => !(s.conns i).used else none
  | .resume t arp =>
    match s.calls t with
    | .closeWait i _ => if (tcpStep net s (.resume t arp)).calls t = .returned 0 [] then some i else none
    | .connectArp i _ | .connectWait i _ | .acceptChild i _ =>
      if (tcpStep net s (.resume t arp)).calls t = .returned (-1) [] then some i else none
    | _ => none
  | _ => none

/-- The step is an iteration of a loop that leaves a closed connection to itself. -/
def TcpSys.leavesClosed (s : TcpSys) : TcpOp → Bool
  | .resume t _ =>
    match s.calls t with
    | .closeWait _ _ | .connectWait _ _ => true
    | _ => false
  | _ => false

/-! ## One connection -/

/-- A change of a connection that is still in use: it is closed if it was, or if it is reset now. -/
structure Marks (rst : Prop) (c c' : TcpConn) : Prop where
  gen : c'.gen = c.gen
  used : c'.used → c.used
  state : c'.used → (c'.state = .closed ↔ c.state = .closed ∨ rst)
  flag : c'.used → (c'.closed ↔ c.closed ∨ rst)

namespace Marks

variable {rst : Prop} {c d d' : TcpConn} {env : TcpEnv} {seg : TcpIn}

theorem refl (c : TcpConn) : Marks False c c := ⟨rfl, id, by simp, by simp⟩

theorem of_iff {rst' : Prop} (h : Marks rst c d) (hrst : rst ↔ rst') : Marks rst' c d := by
  rwa [propext hrst] at h

/-- The slot is freed. -/
theorem free (h : d.gen = c.gen) : Marks rst c (freeConn d) := ⟨h, nofun, nofun, nofun⟩

/-- A change between states other than `CLOSED`. -/
theorem moved (hsame : d = { d with used := c.used, closed := c.closed, gen := c.gen })
    (hst : c.state ≠ .closed) (hst' : d.state ≠ .closed) : Marks False c d := by
  refine ⟨?_, ?_, fun _ => ?_, fun _ => ?_⟩
  · rw [hsame]
  · rw [hsame]
    exact id
  · simp [hst, hst']
  · rw [hsame]
    simp

/-- A change that leaves the state alone. -/
theorem kept (hsame : d = { d with used := c.used, closed := c.closed, gen := c.gen, state := c.state }) :
    Marks False c d := by
  rw [hsame]
  exact ⟨rfl, id, fun _ => by simp, fun _ => by simp⟩

theorem trans (h : Marks False c d) (h' : Marks False d d') : Marks False c d' where
  gen := h'.gen.trans h.gen
  used hu := h.used (h'.used hu)
  state hu := by
    rw [h'.state hu, h.state (h'.used hu)]
    simp
  flag hu := by
    rw [h'.flag hu, h.flag (h'.used hu)]
    simp

theorem acceptData (seg : TcpIn) (c : TcpConn) : Marks False c (tcpAcceptData seg c) :=
  kept (by rw [tcpAcceptData_same])

theorem rxFinWaitData (seg : TcpIn) (c : TcpConn) : Marks False c (rxFinWaitData seg c) := by
  unfold Net.rxFinWaitData
  split
  · exact acceptData seg c
  · exact refl c

theorem rxEstablished (hst : c.state = .established) : Marks False c (rxEstablished env seg c) := by
  have hack : Marks False c (rxEstablishedAck seg c) := kept (by rw [rxEstablishedAck_same])
  have hdata : Marks False (rxEstablishedAck seg c) (rxEstablishedData env seg (rxEstablishedAck seg c)) ∧
      (rxEstablishedData env seg (rxEstablishedAck seg c)).state = .established := by
    have hstate : (rxEstablishedAck seg c).state = .established := by
      rw [rxEstablishedAck_same]
      exact hst
    unfold rxEstablishedData
    split
    · refine ⟨(acceptData seg _).trans (kept rfl), ?_⟩
      show (tcpAcceptData seg (rxEstablishedAck seg c)).state = .established
      rw [tcpAcceptData_same]
      exact hstate
    · exact ⟨refl _, hstate⟩
  unfold Net.rxEstablished rxEstablishedFin
  split
  · exact (hack.trans hdata.1).trans (moved rfl (by rw [hdata.2]; nofun) nofun)
  · exact hack.trans hdata.1

theorem rxFinWait1 (hst : c.state = .finWait1) : Marks False c (rxFinWait1 env seg c) := by
  have hack : Marks False c (rxFinWait1Ack env seg c) := by
    unfold rxFinWait1Ack
    split
    · simp only
      split
      · exact moved rfl (by rw [hst]; nofun) nofun
      · exact moved rfl (by rw [hst]; nofun) nofun
    · exact refl c
  have hfin : Marks False (rxFinWait1Ack env seg c) (rxFinWait1Fin env seg (rxFinWait1Ack env seg c)) := by
    unfold rxFinWait1Fin
    split
    · rename_i hst'
      exact moved rfl (by rw [hst'.1]; nofun) nofun
    · exact refl _
  exact (hack.trans hfin).trans (rxFinWaitData seg _)

theorem rxFinWait2 (hst : c.state = .finWait2) : Marks False c (rxFinWait2 env seg c) := by
  have hdata := rxFinWaitData seg c
  have hstate : (Net.rxFinWaitData seg c).state = .finWait2 := by
    unfold Net.rxFinWaitData
    split
    · rw [tcpAcceptData_same]
      exact hst
    · exact hst
  unfold Net.rxFinWait2 rxFinWait2Fin
  split
  · exact hdata.trans (moved rfl (by rw [hstate]; nofun) nofun)
  · exact hdata

theorem rxConn : Marks (seg.has tcpRst) c (tcpRxConn env seg c) := by
  unfold tcpRxConn
  by_cases hrst : seg.has tcpRst
  · -- a reset sets the state and the flag
    rw [if_pos hrst]
    exact ⟨rfl, id, fun _ => by simp [hrst], fun _ => by simp [hrst]⟩
  · rw [if_neg hrst, show (seg.has tcpRst = true) = False from eq_false hrst]
    split
    case h_1 hst =>
      unfold rxSynSent
      split
      · split
        · exact moved rfl (by rw [hst]; nofun) nofun
        · exact refl c
      · split
        · exact moved rfl (by rw [hst]; nofun) nofun
        · exact refl c
    case h_2 hst =>
      unfold rxSynReceived
      split
      · exact moved rfl (by rw [hst]; nofun) nofun
      · exact refl c
    case h_3 hst => exact rxEstablished hst
    case h_4 hst => exact rxFinWait1 hst
    case h_5 hst => exact rxFinWait2 hst
    case h_6 hst =>
      unfold rxClosing
      split
      · exact moved rfl (by rw [hst]; nofun) nofun
      · exact refl c
    case h_7 hst =>
      unfold rxLastAck
      split
      · exact free rfl
      · exact refl c
    case h_8 hst =>
      unfold rxCloseWait
      split
      · exact kept rfl
      · exact refl c
    case h_9 hst =>
      unfold rxTimeWait
      split
      · exact kept rfl
      · exact refl c
    case h_10 => exact refl c
    case h_11 => exact refl c

theorem timer : Marks False c (tcpTimerConn env c) := by
  unfold tcpTimerConn
  split
  · exact refl c
  split
  · exact free rfl
  split
  · unfold tcpTimerSyn
    split
    · split
      · exact free rfl
      · simp only
        split <;> exact kept rfl
    · exact refl c
  split
  · unfold tcpTimerData
    split
    · split
      · exact free rfl
      · exact kept rfl
    · exact refl c
  · exact refl c

theorem recv (len : ℕ) : Marks False c (tcpRecvRead env len c).2 := by
  have hread : Marks False c { (rxbufRead c len).2 with
      recvd := (rxbufRead c len).2.recvd ++ (rxbufRead c len).1 } := kept (by rw [rxbufRead_same])
  unfold tcpRecvRead
  simp only
  split
  · exact hread.trans (kept rfl)
  · exact hread

theorem close : Marks False c (tcpCloseSwitch env c) := by
  unfold tcpCloseSwitch
  split
  case h_1 hst => exact moved rfl (by rw [hst]; nofun) nofun
  case h_2 hst => exact moved rfl (by rw [hst]; nofun) nofun
  case h_3 => exact free rfl
  case h_4 => exact free rfl
  case h_5 => exact refl c

end Marks

section

variable {net : TcpNet} {s : TcpSys} {op : TcpOp} {i : Fin 16}

/-- A segment that opens a connection is delivered to none. -/
theorem delivers_of_allocates {nb : Netbuf} {srcIp dstIp : BitVec 32} {idx : Fin 16}
    (h : s.allocates (.rx nb srcIp dstIp) = some idx) (i : Fin 16) :
    s.delivers i (.rx nb srcIp dstIp) = none := by
  simp only [TcpSys.allocates] at h
  split at h
  · rename_i hopen
    rw [TcpSys.delivers, hopen.2.1, if_neg (fun h => by cases h.2)]
  · cases h

theorem delivers_of_not_opens (h : op.opens = false) (i : Fin 16) : s.delivers i op = none := by
  cases op with
  | rx => cases h
  | _ => rfl

/-- A step that does not allocate the slot closes its connection only by a reset. -/
theorem marks_tcpStep (h : s.allocates op ≠ some i) :
    Marks (∃ seg, s.delivers i op = some seg ∧ seg.has tcpRst) (s.conns i) ((tcpStep net s op).conns i) := by
  cases hop : op.opens with
  | false =>
    refine Marks.of_iff ?_ (by simp [delivers_of_not_opens hop] : False ↔ _)
    rcases TcpSys.moves_tcpStep net s op i with hsame | ⟨a, ha, heq⟩
    · rw [hsame]
      exact .refl _
    rw [heq]
    cases ha with
    | rx | rxSyn | connect | listen => cases hop
    | timer => exact .timer
    | ready => exact .kept rfl
    | syn => exact .kept rfl
    | free => exact .free rfl
    | chunk => exact .kept rfl
    | recv => exact .recv _
    | close => exact .close
  | true =>
    cases op with
    | rx nb srcIp dstIp =>
      cases halloc : s.allocates (.rx nb srcIp dstIp) with
      | none =>
        rw [tcpStep, tcpRx_of_not_allocates halloc]
        cases hseg : s.delivers i (.rx nb srcIp dstIp) with
        | none => exact (Marks.refl _).of_iff (by simp)
        | some seg => exact Marks.rxConn.of_iff (by simp)
      | some idx =>
        obtain ⟨li, -, hne, heq⟩ := @tcpRx_of_allocates net _ _ _ _ _ halloc
        have hidx : i ≠ idx := fun h' => h (h' ▸ halloc)
        refine Marks.of_iff ?_ (by simp [delivers_of_allocates halloc] : False ↔ _)
        rw [tcpStep, heq]
        -- The listener gets a child; all others are left alone.
        by_cases hli : i = li
        · subst hli
          rw [TcpSys.upd_conns, Function.update_self]
          exact .kept rfl
        · rw [TcpSys.upd_conns, Function.update_of_ne hli, TcpSys.upd_conns, Function.update_of_ne hidx]
          exact .refl _
    | connect t dstIp dstPort arp =>
      rw [tcpStep_connect_of_not_allocates net h]
      exact (Marks.refl _).of_iff (by simp [TcpSys.delivers])
    | listen t port =>
      rw [tcpStep_listen_of_not_allocates net h]
      exact (Marks.refl _).of_iff (by simp [TcpSys.delivers])
    | _ => cases hop

/-- A connection starts open. -/
theorem not_closed_of_allocates (h : s.allocates op = some i) :
    ((tcpStep net s op).conns i).state ≠ .closed ∧ ((tcpStep net s op).conns i).closed = false := by
  obtain ⟨a, ha, heq⟩ := tcpStep_opens net h
  rw [heq]
  cases a with
  | rxSyn | listen => exact ⟨nofun, rfl⟩
  | connect localIp dstIp localPort dstPort arp => cases arp <;> exact ⟨nofun, rfl⟩
  | _ => cases ha

end

/-! ## Runs -/

/-- A used slot is in `CLOSED`, and its flag is set, exactly if the connection has been reset. -/
structure ResetInv (net : TcpNet) (s₀ : TcpSys) (i : Fin 16) (ops : List TcpOp) (c : TcpConn) : Prop where
  recent : ∀ gen, Run.Past (tcpStep net) (ResetOf i gen) s₀ ops → gen ≤ c.gen
  state : c.used → (c.state = .closed ↔ Run.Past (tcpStep net) (ResetOf i c.gen) s₀ ops)
  flag : c.used → (c.closed ↔ Run.Past (tcpStep net) (ResetOf i c.gen) s₀ ops)

section

variable {net : TcpNet} {s₀ : TcpSys} {i : Fin 16} {ops : List TcpOp}

/-- Step: a used slot comes to `CLOSED`, and its flag is set, in the step that resets its connection. -/
theorem ResetInv.step (h : ResetInv net s₀ i ops ((Run.run (tcpStep net) s₀ ops).conns i)) (op : TcpOp) :
    ResetInv net s₀ i (ops ++ [op]) ((tcpStep net (Run.run (tcpStep net) s₀ ops) op).conns i) := by
  generalize hs : Run.run (tcpStep net) s₀ ops = s at *
  have hpast : ∀ gen, Run.Past (tcpStep net) (ResetOf i gen) s₀ (ops ++ [op]) ↔
      Run.Past (tcpStep net) (ResetOf i gen) s₀ ops ∨ ResetOf i gen s op := by
    intro gen
    rw [Run.past_snoc, hs]
  by_cases halloc : s.allocates op = some i
  · -- a new connection: the resets are of earlier ones
    obtain ⟨hstate, hflag⟩ := @not_closed_of_allocates net _ _ _ halloc
    have hgen := (tcpStep_allocates net halloc).1
    have hnever : ¬Run.Past (tcpStep net) (ResetOf i ((s.conns i).gen + 1)) s₀ (ops ++ [op]) := by
      rw [hpast]
      rintro (hold | hnow)
      · have := h.recent _ hold
        omega
      · have := hnow.2
        omega
    refine ⟨fun gen hgen' => ?_, fun _ => ?_, fun _ => ?_⟩
    · rw [hgen]
      rcases (hpast gen).1 hgen' with hold | hnow
      · exact Nat.le_succ_of_le (h.recent _ hold)
      · exact hnow.2 ▸ Nat.le_succ _
    · rw [hgen]
      exact iff_of_false hstate hnever
    · rw [hgen, hflag]
      exact iff_of_false nofun hnever
  · obtain ⟨hgen, hused, hstate, hflag⟩ := @marks_tcpStep net _ _ _ halloc
    have hnow : ResetOf i (s.conns i).gen s op ↔ ∃ seg, s.delivers i op = some seg ∧ seg.has tcpRst :=
      and_iff_left rfl
    refine ⟨fun gen hgen' => ?_, fun hu => ?_, fun hu => ?_⟩
    · rw [hgen]
      rcases (hpast gen).1 hgen' with hold | hnow
      · exact h.recent _ hold
      · exact Nat.le_of_eq hnow.2.symm
    · rw [hstate hu, h.state (hused hu), hgen, hpast, hnow]
    · rw [hflag hu, h.flag (hused hu), hgen, hpast, hnow]

/-- Run: the history tells whether the connection in a slot has been reset. -/
theorem resetInv_run (net : TcpNet) (ticks : BitVec 64) (ops : List TcpOp) (i : Fin 16) :
    ResetInv net (tcpInit ticks) i ops ((Run.run (tcpStep net) (tcpInit ticks) ops).conns i) := by
  let Inv (ops : List TcpOp) (s : TcpSys) : Prop := ResetInv net (tcpInit ticks) i ops (s.conns i)
  have hinit : Inv [] (tcpInit ticks) := by
    refine ⟨fun gen hpast => ?_, nofun, nofun⟩
    obtain ⟨pre, op, post, heq, -⟩ := hpast
    simp at heq
  have hstep : ∀ ops op, Inv ops (Run.run (tcpStep net) (tcpInit ticks) ops) →
      Inv (ops ++ [op]) (tcpStep net (Run.run (tcpStep net) (tcpInit ticks) ops) op) :=
    fun _ op h => h.step op
  exact Run.run_history hinit hstep ops

end

/-! ## The returns -/

section

variable {net : TcpNet} {s : TcpSys} {t : ℕ} {i : Fin 16} {start : BitVec 32} {reset : Prop}

/-- The slot is free, or will be freed by the timer. -/
def TcpConn.Released (c : TcpConn) : Prop := c.used = false ∨ c.state = .timeWait

instance (c : TcpConn) : Decidable c.Released := inferInstanceAs (Decidable (_ ∨ _))

theorem released_free (s : TcpSys) (t : ℕ) (i : Fin 16) (r : ℤ) :
    (((s.upd i (freeConn (s.conns i))).ret t r).conns i).Released := by
  rw [TcpSys.ret_conns, TcpSys.upd_conns, Function.update_self]
  exact .inl rfl

/-- When `tcp_close` returns, the slot is released unless its connection was reset. -/
theorem released_tcpCloseIter (hstate : (s.conns i).used → ((s.conns i).state = .closed ↔ reset))
    (hcall : s.calls t = .closeWait i start) (hret : (tcpCloseIter s t i start).calls t = .returned 0 []) :
    ((tcpCloseIter s t i start).conns i).Released ↔ ¬((s.conns i).used ∧ reset) := by
  by_cases hloop : (s.conns i).used ∧ (s.conns i).state ≠ .closed ∧ (s.conns i).state ≠ .timeWait
  · rw [tcpCloseIter, if_pos hloop] at hret ⊢
    have hnot : ¬((s.conns i).used ∧ reset) := fun h => hloop.2.1 ((hstate h.1).2 h.2)
    split at hret
    · rename_i helapsed
      rw [if_pos helapsed]
      exact iff_of_true (released_free s t i 0) hnot
    · rw [hcall] at hret
      cases hret
  · rw [tcpCloseIter, if_neg hloop, TcpSys.ret_conns, TcpConn.Released]
    by_cases hused : (s.conns i).used
    · rw [← hstate hused]
      simp only [hused, true_and, not_and, not_not, Bool.true_eq_false, false_or] at hloop ⊢
      refine ⟨fun hwait hend => ?_, hloop⟩
      rw [hwait] at hend
      cases hend
    · simp [hused]

/-- When `tcp_connect` gives up on the handshake, likewise. -/
theorem released_tcpConnectWait (hflag : (s.conns i).used → ((s.conns i).closed ↔ reset))
    (hstate : (s.conns i).used → ((s.conns i).state = .closed ↔ reset))
    (hcall : s.calls t = .connectWait i start)
    (hret : (tcpConnectWait s t i start).calls t = .returned (-1) []) :
    ((tcpConnectWait s t i start).conns i).Released ↔ ¬((s.conns i).used ∧ reset) := by
  by_cases hloop : ¬(s.conns i).established ∧ ¬(s.conns i).closed
  · rw [tcpConnectWait, if_pos hloop] at hret ⊢
    have hnot : ¬((s.conns i).used ∧ reset) := fun h => hloop.2 ((hflag h.1).2 h.2)
    split at hret
    · rename_i helapsed
      rw [if_pos helapsed]
      exact iff_of_true (released_free s t i (-1)) hnot
    · rw [hcall] at hret
      cases hret
  · rw [tcpConnectWait, if_neg hloop] at hret ⊢
    split at hret
    · rename_i hclosed
      rw [if_pos hclosed, TcpSys.ret_conns, TcpConn.Released]
      by_cases hused : (s.conns i).used
      · have hreset := (hflag hused).1 hclosed
        have hend := (hstate hused).2 hreset
        simp [hused, hreset, hend]
      · simp [hused]
    · simp only [TcpSys.ret, TcpSys.setCall, Function.update_self, TcpCall.returned.injEq] at hret
      omega

/-- When `tcp_connect` gives up waiting for an ARP reply, the slot is released. -/
theorem released_tcpConnectArp {arp : Bool} (hcall : s.calls t = .connectArp i start)
    (hret : (tcpConnectArp net s t i start arp).calls t = .returned (-1) []) :
    ((tcpConnectArp net s t i start arp).conns i).Released := by
  unfold tcpConnectArp at hret ⊢
  split at hret
  · simp only [tcpConnectResolved, TcpSys.setCall, Function.update_self] at hret
    cases hret
  rename_i harp
  split at hret
  · rename_i helapsed
    rw [if_neg harp, if_pos helapsed]
    exact released_free s t i (-1)
  · rw [hcall] at hret
    cases hret

/-- When `tcp_accept` gives up on a child, the child's slot is released. -/
theorem released_tcpAcceptChild (hcall : s.calls t = .acceptChild i start)
    (hret : (tcpAcceptChild s t i start).calls t = .returned (-1) []) :
    ((tcpAcceptChild s t i start).conns i).Released := by
  unfold tcpAcceptChild at hret ⊢
  split at hret
  · rename_i hsyn
    rw [if_pos hsyn]
    split at hret
    · rename_i helapsed
      rw [if_pos helapsed]
      exact released_free s t i (-1)
    · rw [hcall] at hret
      cases hret
  · rename_i hsyn
    rw [if_neg hsyn]
    split at hret
    · rename_i hest
      rw [if_pos hest]
      exact released_free s t i (-1)
    · simp only [TcpSys.ret, TcpSys.setCall, Function.update_self, TcpCall.returned.injEq] at hret
      omega

end

/-- Closed connections give their slot back: after a call has given up slot `i`, the slot is unused or in
`TIME_WAIT`, exactly if it is not one that `tcp_close` or the waiting loop of `tcp_connect` finds in use by a
connection that has been reset. -/
theorem tcp_gives_slot_back (net : TcpNet) (ticks : BitVec 64) (ops : List TcpOp) (op : TcpOp) (i : Fin 16) :
    let s := Run.run (tcpStep net) (tcpInit ticks) ops
    s.givesUp net op = some i →
      (((tcpStep net s op).conns i).Released ↔
        ¬((s.conns i).used ∧ Run.Past (tcpStep net) (ResetOf i (s.conns i).gen) (tcpInit ticks) ops ∧
          s.leavesClosed op)) := by
  intro s hgive
  obtain ⟨-, hstate, hflag⟩ : ResetInv net (tcpInit ticks) i ops (s.conns i) := resetInv_run net ticks ops i
  -- Only the history of resets is used from here on.
  generalize Run.Past (tcpStep net) (ResetOf i (s.conns i).gen) (tcpInit ticks) ops = reset at hstate hflag
  generalize s = s at *
  cases op with
  | close t conn =>
    simp only [TcpSys.givesUp] at hgive
    split at hgive
    swap
    · cases hgive
    rename_i hready
    obtain ⟨hconn, hunused⟩ := Option.filter_eq_some_iff.1 hgive
    have hunused : (s.conns i).used = false := by simpa using hunused
    refine iff_of_true ?_ (by simp [hunused])
    simp only [tcpStep, if_pos hready, tcpClose, hconn, hunused, Bool.false_eq_true, not_false_eq_true,
      if_true]
    exact .inl hunused
  | resume t arp =>
    simp only [TcpSys.givesUp, TcpSys.leavesClosed] at hgive ⊢
    rw [tcpStep, tcpResume] at hgive ⊢
    -- A call can give up at four of the places where it waits.
    cases hcall : s.calls t with
    | closeWait j start =>
      simp only [hcall] at hgive ⊢
      split at hgive
      · rename_i hret
        obtain rfl := Option.some.inj hgive
        rw [released_tcpCloseIter hstate hcall hret, and_true]
      · cases hgive
    | connectWait j start =>
      simp only [hcall] at hgive ⊢
      split at hgive
      · rename_i hret
        obtain rfl := Option.some.inj hgive
        rw [released_tcpConnectWait hflag hstate hcall hret, and_true]
      · cases hgive
    | connectArp j start =>
      simp only [hcall] at hgive ⊢
      split at hgive
      · rename_i hret
        obtain rfl := Option.some.inj hgive
        exact iff_of_true (released_tcpConnectArp hcall hret) (by simp)
      · cases hgive
    | acceptChild j start =>
      simp only [hcall] at hgive ⊢
      split at hgive
      · rename_i hret
        obtain rfl := Option.some.inj hgive
        exact iff_of_true (released_tcpAcceptChild hcall hret) (by simp)
      · cases hgive
    | _ =>
      simp only [hcall] at hgive
      cases hgive
  | _ => cases hgive

/-- Another thread closes the connection that `tcp_connect` is waiting for. -/
theorem tcp_gives_slot_back_unanswered :
    let s := Run.run (tcpStep ⟨9, fun _ _ => true⟩) (tcpInit 40000) [.connect 0 7 80 true, .close 1 0]
    s.givesUp ⟨9, fun _ _ => true⟩ (.resume 1 true) = some 0 ∧
      ((tcpStep ⟨9, fun _ _ => true⟩ s (.resume 1 true)).conns 0).Released := by
  intro s
  have hgive : s.givesUp ⟨9, fun _ _ => true⟩ (.resume 1 true) = some 0 := by decide +kernel
  have hunused : (s.conns 0).used = false := by decide +kernel
  refine ⟨hgive, (tcp_gives_slot_back ⟨9, fun _ _ => true⟩ 40000 _ _ 0 hgive).2 fun h => ?_⟩
  exact Bool.false_ne_true (hunused.symm.trans h.1)

/-- The peer answers the SYN of `tcp_connect` with a reset. -/
theorem tcp_reset_keeps_slot :
    ¬∀ (ops : List TcpOp) (op : TcpOp) (i : Fin 16),
      let s := Run.run (tcpStep ⟨9, fun _ _ => true⟩) (tcpInit 40000) ops
      s.givesUp ⟨9, fun _ _ => true⟩ op = some i →
        ((tcpStep ⟨9, fun _ _ => true⟩ s op).conns i).Released := by
  intro h
  have hkept := h [.connect 0 7 80 true,
    .rx (plainSegment 0x0050C000 500 2560692346 (tcpRst ||| tcpAck) []) 7 9] (.resume 0 true) 0
  revert hkept
  decide +kernel

/-- In every run a slot in use is in `CLOSED`, and its flag is set, exactly if its connection was reset. -/
theorem tcp_closed_iff_reset (net : TcpNet) (ticks : BitVec 64) (ops : List TcpOp) (i : Fin 16) :
    let c := (Run.run (tcpStep net) (tcpInit ticks) ops).conns i
    let reset := Run.Past (tcpStep net) (ResetOf i c.gen) (tcpInit ticks) ops
    (c.used ∧ c.state = .closed ↔ c.used ∧ reset) ∧ (c.used ∧ c.closed ↔ c.used ∧ reset) := by
  intro c reset
  obtain ⟨-, hstate, hflag⟩ := resetInv_run net ticks ops i
  exact ⟨and_congr_right hstate, and_congr_right hflag⟩

end PlantOS.Net
