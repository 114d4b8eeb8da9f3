import PlantOS.Net.TcpSystem

/-!
# Connections are told apart by their peers

`find_conn` looks a connection up by local port, remote address and remote port. The invariant says that of
two used connections with the same three the later one in the table listens; so the connections outside
`LISTEN` differ, and `find_conn` finds each of them.

`tcp_rx` opens a connection only after a lookup has failed. `tcp_connect` takes the next ephemeral port
without a lookup, and `tcp_listen` takes any port; a listener leaves `LISTEN` when a reset arrives for its
own three values. The condition `FreshIdentity` is the lookup these two calls leave out.

Reference: `net/tcp.c`.
-/

namespace PlantOS.Net

/-- What `find_conn` compares. -/
def TcpConn.triple (c : TcpConn) : BitVec 16 × BitVec 32 × BitVec 16 :=
  (c.localPort, c.remoteIp, c.remotePort)

/-- `tcp_connect` opens a connection that no used one is mistaken for, and `tcp_listen` one that is
mistaken for other listeners at most. -/
def FreshIdentity (s : TcpSys) : TcpOp → Prop
  | .connect _ dstIp dstPort _ =>
    ∀ i, (s.conns i).used → (s.conns i).triple ≠ (s.nextEphemeral, dstIp, dstPort)
  | .listen _ port =>
    ∀ i, (s.conns i).used → (s.conns i).state ≠ .listen → (s.conns i).triple ≠ (port, 0, 0)
  | _ => True

instance (s : TcpSys) : DecidablePred (FreshIdentity s)
  | .connect _ dstIp dstPort _ => inferInstanceAs (Decidable (∀ i, (s.conns i).used →
      (s.conns i).triple ≠ (s.nextEphemeral, dstIp, dstPort)))
  | .listen _ port => inferInstanceAs (Decidable (∀ i, (s.conns i).used →
      (s.conns i).state ≠ .listen → (s.conns i).triple ≠ (port, 0, 0)))
  | .rx _ _ _ | .timer | .tick | .accept _ _ | .send _ _ _ | .recv _ _ _ | .close _ _ | .resume _ _ =>
    isTrue trivial

/-- Of two used connections that `find_conn` cannot tell apart, the later one listens. -/
def IdentityInv (conns : Fin 16 → TcpConn) : Prop :=
  ∀ i j, i < j → (conns i).used → (conns j).used → (conns i).triple = (conns j).triple →
    (conns j).state = .listen

/-! ## Changes of a connection -/

/-- The connection keeps its identity, and does not stop listening unless it is freed. -/
structure TcpConn.Tame (c c' : TcpConn) : Prop where
  used : c'.used → c.used
  triple : c'.triple = c.triple
  listen : c'.used → c.state = .listen → c'.state = .listen

section

variable {env : TcpEnv} {seg : TcpIn} {c c' : TcpConn}

theorem TcpConn.Tame.same (hused : c'.used = c.used) (htriple : c'.triple = c.triple)
    (hstate : c'.state = c.state) : c.Tame c' :=
  ⟨fun h => hused ▸ h, htriple, fun _ h => hstate.trans h⟩

theorem TcpConn.Tame.free : c.Tame (freeConn c) := ⟨fun h => (by cases h), rfl, fun h => (by cases h)⟩

theorem TcpConn.Tame.timer : c.Tame (tcpTimerConn env c) := by
  unfold tcpTimerConn
  split
  · exact .same rfl rfl rfl
  split
  · exact .free
  split
  · unfold tcpTimerSyn
    split
    · split
      · exact .free
      · simp only
        split <;> exact .same rfl rfl rfl
    · exact .same rfl rfl rfl
  split
  · unfold tcpTimerData
    split
    · split
      · exact .free
      · exact .same rfl rfl rfl
    · exact .same rfl rfl rfl
  · exact .same rfl rfl rfl

theorem TcpConn.Tame.recv (len : ℕ) : c.Tame (tcpRecvRead env len c).2 := by
  have hread : c.Tame (rxbufRead c len).2 := by
    rw [rxbufRead_same]
    exact .same rfl rfl rfl
  unfold tcpRecvRead
  simp only
  split
  · exact ⟨hread.used, hread.triple, hread.listen⟩
  · exact ⟨hread.used, hread.triple, hread.listen⟩

theorem TcpConn.Tame.close : c.Tame (tcpCloseSwitch env c) := by
  unfold tcpCloseSwitch
  split
  case h_1 hst => exact ⟨id, rfl, fun _ h => by rw [hst] at h; cases h⟩
  case h_2 hst => exact ⟨id, rfl, fun _ h => by rw [hst] at h; cases h⟩
  case h_3 => exact .free
  case h_4 => exact .free
  case h_5 => exact .same rfl rfl rfl

theorem rxFinWaitData_tame : c.Tame (rxFinWaitData seg c) := by
  unfold rxFinWaitData
  split
  · rw [tcpAcceptData_same]
    exact .same rfl rfl rfl
  · exact .same rfl rfl rfl

/-- A segment changes neither the identity of its connection nor brings it into use. -/
theorem tcpRxConn_triple : (tcpRxConn env seg c).triple = c.triple ∧
    ((tcpRxConn env seg c).used → c.used) := by
  have hkept : c.triple = c.triple ∧ (c.used → c.used) := ⟨rfl, id⟩
  -- One case for each state. Only `LAST_ACK` gives the slot up.
  unfold tcpRxConn
  split
  · exact hkept
  split
  case h_1 =>
    unfold rxSynSent
    split
    · split <;> exact hkept
    · split <;> exact hkept
  case h_2 =>
    unfold rxSynReceived
    split <;> exact hkept
  case h_3 =>
    have hack : (rxEstablishedAck seg c).triple = c.triple ∧
        ((rxEstablishedAck seg c).used → c.used) := by
      rw [rxEstablishedAck_same]
      exact hkept
    have hdata : (rxEstablishedData env seg (rxEstablishedAck seg c)).triple = c.triple ∧
        ((rxEstablishedData env seg (rxEstablishedAck seg c)).used → c.used) := by
      unfold rxEstablishedData
      split
      · show (tcpAcceptData seg (rxEstablishedAck seg c)).triple = c.triple ∧
          ((tcpAcceptData seg (rxEstablishedAck seg c)).used → c.used)
        rw [tcpAcceptData_same]
        exact hack
      · exact hack
    unfold rxEstablished rxEstablishedFin
    split
    · exact hdata
    · exact hdata
  case h_4 =>
    have hack : (rxFinWait1Ack env seg c).triple = c.triple ∧
        ((rxFinWait1Ack env seg c).used → c.used) := by
      unfold rxFinWait1Ack
      split
      · simp only
        split <;> exact hkept
      · exact hkept
    have hfin : (rxFinWait1Fin env seg (rxFinWait1Ack env seg c)).triple = c.triple ∧
        ((rxFinWait1Fin env seg (rxFinWait1Ack env seg c)).used → c.used) := by
      unfold rxFinWait1Fin
      split <;> exact hack
    exact ⟨rxFinWaitData_tame.triple.trans hfin.1, fun h => hfin.2 (rxFinWaitData_tame.used h)⟩
  case h_5 =>
    unfold rxFinWait2 rxFinWait2Fin
    split
    · exact ⟨rxFinWaitData_tame.triple, rxFinWaitData_tame.used⟩
    · exact ⟨rxFinWaitData_tame.triple, rxFinWaitData_tame.used⟩
  case h_6 =>
    unfold rxClosing
    split <;> exact hkept
  case h_7 =>
    unfold rxLastAck
    split
    · exact ⟨rfl, fun h => by cases h⟩
    · exact hkept
  case h_8 =>
    unfold rxCloseWait
    split <;> exact hkept
  case h_9 =>
    unfold rxTimeWait
    split <;> exact hkept
  case h_10 => exact hkept
  case h_11 => exact hkept

end

/-! ## The table -/

section

variable {net : TcpNet} {s : TcpSys} {conns' : Fin 16 → TcpConn} {i : Fin 16}

/-- A step that changes no identity. -/
theorem IdentityInv.tame (h : IdentityInv s.conns) (htame : ∀ i, (s.conns i).Tame (conns' i)) :
    IdentityInv conns' := by
  intro i j hij hi hj heq
  rw [(htame i).triple, (htame j).triple] at heq
  exact (htame j).listen hj (h i j hij ((htame i).used hi) ((htame j).used hj) heq)

/-- A new connection. -/
theorem IdentityInv.alloc (h : IdentityInv s.conns) {c : TcpConn}
    (hnew : ∀ j, j ≠ i → (s.conns j).used → (s.conns j).triple = c.triple →
      (s.conns j).state = .listen ∧ c.state = .listen) :
    IdentityInv (Function.update s.conns i c) := by
  intro j k hjk hj hk heq
  by_cases hji : j = i
  · have hki : k ≠ i := fun h => absurd hjk (by rw [hji, h]; exact lt_irrefl i)
    rw [hji, Function.update_self] at heq
    rw [Function.update_of_ne hki] at hk heq ⊢
    exact (hnew k hki hk heq.symm).1
  · rw [Function.update_of_ne hji] at hj heq
    by_cases hki : k = i
    · rw [hki, Function.update_self] at heq ⊢
      exact (hnew j hji hj heq).2
    · rw [Function.update_of_ne hki] at hk heq ⊢
      exact h j k hjk hj hk heq

/-- `find_conn` returns the first match. -/
theorem TcpSys.findConn_eq_some {port : BitVec 16} {ip : BitVec 32} {rport : BitVec 16}
    (h : s.findConn port ip rport = some i) :
    (s.conns i).triple = (port, ip, rport) ∧
      ∀ j < i, (s.conns j).used → (s.conns j).triple ≠ (port, ip, rport) := by
  obtain ⟨hmatch, as, bs, hsplit, hbefore⟩ := List.find?_eq_some_iff_append.mp h
  simp only [Bool.and_eq_true, beq_iff_eq] at hmatch
  refine ⟨?_, fun j hj hused heq => ?_⟩
  · rw [TcpConn.triple, hmatch.2.1, hmatch.2.2.1, hmatch.2.2.2]
  · have hmem : j ∈ as := by
      have hsorted := List.pairwise_lt_finRange 16
      rw [hsplit, List.pairwise_append] at hsorted
      have hj' : j ∈ as ++ i :: bs := hsplit ▸ List.mem_finRange j
      rcases List.mem_append.mp hj' with hmem | hmem
      · exact hmem
      · rcases List.mem_cons.mp hmem with rfl | hmem
        · exact absurd hj (lt_irrefl j)
        · have := (List.pairwise_cons.mp hsorted.2.1).1 j hmem
          exact absurd (hj.trans this) (lt_irrefl j)
    have := hbefore j hmem
    simp only [TcpConn.triple, Prod.mk.injEq] at heq
    simp [hused, heq.1, heq.2.1, heq.2.2] at this

/-- If the search fails, no slot in use has these ports and this address. -/
theorem TcpSys.findConn_eq_none {port : BitVec 16} {ip : BitVec 32} {rport : BitVec 16}
    (h : s.findConn port ip rport = none) (j : Fin 16) (hused : (s.conns j).used) :
    (s.conns j).triple ≠ (port, ip, rport) := by
  intro heq
  have := List.find?_eq_none.mp h j (List.mem_finRange j)
  simp only [TcpConn.triple, Prod.mk.injEq] at heq
  simp [hused, heq.1, heq.2.1, heq.2.2] at this

/-- Step: a segment makes a connection only if none has its identity. -/
theorem IdentityInv.rx (h : IdentityInv s.conns) (nb : Netbuf) (srcIp dstIp : BitVec 32) :
    IdentityInv (tcpRx net s nb srcIp dstIp).conns := by
  rcases TcpSys.tcpRx_conns net s nb srcIp dstIp with hsame | ⟨idx, -, hfind, heq⟩ |
    ⟨li, idx, -, hnone, -, -, hfree, hne, heq⟩
  · rw [hsame]
    exact h
  · -- a segment for a connection: no earlier one matches, so it may stop listening
    obtain ⟨htriple, hfirst⟩ := TcpSys.findConn_eq_some hfind
    rw [heq]
    have hrx := @tcpRxConn_triple (s.env net idx) (tcpParse nb) (s.conns idx)
    generalize tcpRxConn (s.env net idx) (tcpParse nb) (s.conns idx) = c at hrx
    intro i j hij hi hj hsame
    by_cases hji : j = idx
    · have hii : i ≠ idx := fun h => absurd hij (by rw [h, hji]; exact lt_irrefl idx)
      rw [Function.update_of_ne hii] at hi hsame
      rw [hji, Function.update_self, hrx.1, htriple] at hsame
      exact absurd hsame (hfirst i (hji ▸ hij) hi)
    · rw [Function.update_of_ne hji] at hj hsame ⊢
      by_cases hii : i = idx
      · rw [hii, Function.update_self] at hi hsame
        rw [hrx.1] at hsame
        exact h idx j (hii ▸ hij) (hrx.2 hi) hj hsame
      · rw [Function.update_of_ne hii] at hi hsame
        exact h i j hij hi hj hsame
  · rw [heq]
    let s' := s.upd idx (tcpRxSyn (s.env net idx) (tcpParse nb) srcIp dstIp (s.conns idx))
    have hchild : IdentityInv s'.conns := h.alloc fun j hj hused hsame =>
      absurd hsame (TcpSys.findConn_eq_none hnone j hused)
    refine @IdentityInv.tame s' _ hchild fun i => ?_
    by_cases hi : i = li
    · rw [hi, Function.update_self]
      exact .same (by simp [s', hne]) (by simp [s', hne, TcpConn.triple]) (by simp [s', hne])
    · rw [Function.update_of_ne hi]
      exact .same rfl rfl rfl

/-- Step: a new active connection, with an identity that no other has. -/
theorem IdentityInv.connect (h : IdentityInv s.conns) {t : ℕ} {dstIp : BitVec 32}
    {dstPort : BitVec 16} {arp : Bool} (hop : FreshIdentity s (.connect t dstIp dstPort arp)) :
    IdentityInv (tcpConnect net s t dstIp dstPort arp).conns := by
  unfold tcpConnect
  split
  · exact h
  rename_i idx hslot
  have hopen : IdentityInv (Function.update s.conns idx
      (tcpConnectOpen (s.env net idx) net.ip dstIp s.nextEphemeral dstPort (s.conns idx))) :=
    h.alloc fun j _ hused hsame => absurd hsame (hop j hused)
  cases arp with
  | false => exact hopen
  | true =>
    let s' := { s.upd idx (tcpConnectOpen (s.env net idx) net.ip dstIp s.nextEphemeral dstPort
      (s.conns idx)) with nextEphemeral := s.nextEphemeral + 1 }
    refine @IdentityInv.tame s' _ hopen fun i => ?_
    by_cases hi : i = idx
    · subst hi
      exact .same (by simp [s', tcpConnectResolved, tcpConnectSyn, tcpSendSegment])
        (by simp [s', tcpConnectResolved, tcpConnectSyn, tcpSendSegment, TcpConn.triple])
        (by simp [s', tcpConnectResolved, tcpConnectSyn, tcpSendSegment])
    · simp only [if_true, tcpConnectResolved, TcpSys.setCall_conns, TcpSys.upd_conns,
        Function.update_of_ne hi]
      exact .same (by simp [s', hi]) (by simp [s', hi]) (by simp [s', hi])

/-- Step: a new listener. -/
theorem IdentityInv.listen (h : IdentityInv s.conns) {t : ℕ} {port : BitVec 16}
    (hop : FreshIdentity s (.listen t port)) : IdentityInv (tcpListen net s t port).conns := by
  unfold tcpListen
  split
  · exact h
  · refine h.alloc fun j _ hused hsame => ⟨?_, rfl⟩
    by_contra hst
    exact hop j hused hst hsame

/-- The steps that can open a connection. -/
def TcpOp.opens : TcpOp → Bool
  | .rx _ _ _ | .connect _ _ _ _ | .listen _ _ => true
  | _ => false

/-- No other step allocates a slot or stops a listener. -/
theorem tcpStep_tame {op : TcpOp} (hop : op.opens = false) (i : Fin 16) :
    (s.conns i).Tame ((tcpStep net s op).conns i) := by
  rcases TcpSys.moves_tcpStep net s op i with hsame | ⟨a, ha, heq⟩
  · rw [hsame]
    exact .same rfl rfl rfl
  rw [heq]
  cases ha with
  | rx | rxSyn | connect | listen => cases hop
  | timer => exact .timer
  | ready => exact .same rfl rfl rfl
  | syn => exact .same rfl rfl rfl
  | free => exact .free
  | chunk => exact .same rfl rfl rfl
  | recv => exact .recv _
  | close => exact .close

/-- One step. -/
theorem IdentityInv.step (h : IdentityInv s.conns) {op : TcpOp} (hop : FreshIdentity s op) :
    IdentityInv (tcpStep net s op).conns := by
  cases op with
  | rx nb srcIp dstIp => exact h.rx nb srcIp dstIp
  | connect t dstIp dstPort arp =>
    simp only [tcpStep]
    split
    · exact h.connect hop
    · exact h
  | listen t port =>
    simp only [tcpStep]
    split
    · exact h.listen hop
    · exact h
  | _ => exact h.tame (tcpStep_tame rfl)

end

/-- In every run in which `tcp_connect` and `tcp_listen` take identities that are not in use, the used
connections outside `LISTEN` have different ones, and `find_conn` finds each of them by its own. -/
theorem tcp_identity_unique {net : TcpNet} {ticks : BitVec 64} {ops : List TcpOp}
    (hops : Run.Admits (tcpStep net) FreshIdentity (tcpInit ticks) ops) :
    let s := Run.run (tcpStep net) (tcpInit ticks) ops
    (∀ i j, i ≠ j → (s.conns i).used → (s.conns j).used → (s.conns i).state ≠ .listen →
      (s.conns j).state ≠ .listen → (s.conns i).triple ≠ (s.conns j).triple) ∧
    ∀ i, (s.conns i).used → (s.conns i).state ≠ .listen →
      s.findConn (s.conns i).localPort (s.conns i).remoteIp (s.conns i).remotePort = some i := by
  have hinit : IdentityInv (tcpInit ticks).conns := fun _ _ _ hi => (by cases hi)
  let Inv (s : TcpSys) : Prop := IdentityInv s.conns
  have hstep : ∀ s op, Inv s → FreshIdentity s op → Inv (tcpStep net s op) :=
    fun _ _ hs hop => IdentityInv.step hs hop
  have h : Inv (Run.run (tcpStep net) (tcpInit ticks) ops) :=
    Run.run_invariant_of_admits hstep hinit hops
  generalize Run.run (tcpStep net) (tcpInit ticks) ops = s at h
  refine ⟨fun i j hij hi hj hsti hstj heq => ?_, fun i hi hst => ?_⟩
  · rcases lt_or_gt_of_ne hij with hlt | hlt
    · exact hstj (h i j hlt hi hj heq)
    · exact hsti (h j i hlt hj hi heq.symm)
  · cases hfind : s.findConn (s.conns i).localPort (s.conns i).remoteIp (s.conns i).remotePort with
    | none => exact absurd rfl (TcpSys.findConn_eq_none hfind i hi)
    | some k =>
      obtain ⟨hk, hfirst⟩ := TcpSys.findConn_eq_some hfind
      have hkused : (s.conns k).used := by
        have := List.find?_some hfind
        simp only [Bool.and_eq_true] at this
        exact this.1
      rcases lt_trichotomy i k with hlt | heq | hlt
      · exact absurd rfl (hfirst i hlt hi)
      · rw [heq]
      · exact absurd (h k i hlt hkused hi hk) hst

/-- A connection to port 80 of host 7, and one from host 8 to the listener on port 90. -/
theorem tcp_identity_unique_two :
    let s := Run.run (tcpStep ⟨9, fun _ _ => true⟩) (tcpInit 40000) [.connect 0 7 80 true,
      .listen 1 90, .rx (plainSegment 0x0050005A 500 0 tcpSyn []) 8 9]
    ((s.conns 0).used ∧ (s.conns 2).used ∧ (s.conns 2).state = .synReceived) ∧
    (s.conns 0).triple ≠ (s.conns 2).triple ∧
    s.findConn (s.conns 2).localPort (s.conns 2).remoteIp (s.conns 2).remotePort = some 2 := by
  have h := @tcp_identity_unique ⟨9, fun _ _ => true⟩ 40000 [.connect 0 7 80 true,
    .listen 1 90, .rx (plainSegment 0x0050005A 500 0 tcpSyn []) 8 9] (by decide +kernel)
  exact ⟨by decide +kernel, h.1 0 2 (by decide) (by decide +kernel) (by decide +kernel)
    (by decide +kernel) (by decide +kernel), h.2 2 (by decide +kernel) (by decide +kernel)⟩

/-- A client with the source port 80 has connected to a listener on port 49152. `tcp_connect` to port 80 of
the same host takes the local port 49152 too. -/
theorem tcp_connect_reuses_identity :
    ¬∀ ops : List TcpOp,
      let s := Run.run (tcpStep ⟨9, fun _ _ => true⟩) (tcpInit 40000) ops
      ∀ i j, i ≠ j → (s.conns i).used → (s.conns j).used → (s.conns i).state ≠ .listen →
        (s.conns j).state ≠ .listen → (s.conns i).triple ≠ (s.conns j).triple := by
  intro h
  have := h [.listen 0 49152, .rx (plainSegment 0x0050C000 500 0 tcpSyn []) 7 9,
    .connect 1 7 80 true] 1 2
  revert this
  decide +kernel

end PlantOS.Net
