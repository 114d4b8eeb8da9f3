import PlantOS.Net.TcpReceive
import PlantOS.Net.TcpIdentity

/-!
# What a step leaves of a connection

Whatever a step does to a connection, unless it allocates the slot anew, is a sequence of four elementary
changes: control fields are set, a segment is sent, data is taken from the incoming segment, or data is
read from the ring (`TcpConn.Reaches`). A property of connections that survives these four survives every
step, and the state machine need not be taken apart again.

`TcpConn.Serves` is such a property: the slot keeps its peer, everything sent goes to the peer, and what
has been received only grows, by bytes of the incoming segment.
-/

namespace PlantOS.Net

open Word

/-- A peer: its address and port. -/
abbrev TcpPeer := BitVec 32 × BitVec 16

/-- The peer of a connection. -/
def TcpConn.peer (c : TcpConn) : TcpPeer := (c.remoteIp, c.remotePort)

/-- The peer a segment is sent to. -/
def TcpOut.peer (o : TcpOut) : TcpPeer := (o.remoteIp, o.dstPort)

/-- The states of a connection that is being closed, or is closed. -/
def TcpState.ends : TcpState → Bool
  | .finWait1 | .finWait2 | .closeWait | .closing | .lastAck | .timeWait | .closed => true
  | .listen | .synSent | .synReceived | .established => false

/-- A connection can come from one state to the other without being allocated anew. -/
def TcpState.leads (st st' : TcpState) : Bool :=
  st = st' ∨ st'.ends ∨ st = .synSent ∧ (st' = .synReceived ∨ st' = .established) ∨
    st = .synReceived ∧ st' = .established

@[simp] theorem TcpState.leads_self (st : TcpState) : st.leads st := by simp [TcpState.leads]

theorem TcpState.leads_of_ends {st st' : TcpState} (h : st'.ends) : st.leads st' := by
  simp [TcpState.leads, h]

theorem TcpState.leads_trans {st st' st'' : TcpState} (h : st.leads st') (h' : st'.leads st'') :
    st.leads st'' := by
  simp only [TcpState.leads, decide_eq_true_eq] at h h' ⊢
  rcases h with rfl | hends | ⟨rfl, hst⟩ | ⟨rfl, rfl⟩
  · exact h'
  · -- from a closing state only closing states follow
    rcases h' with rfl | h' | ⟨rfl, -⟩ | ⟨rfl, -⟩
    · exact .inr (.inl hends)
    · exact .inr (.inl h')
    · cases hends
    · cases hends
  · rcases h' with rfl | h' | ⟨rfl, -⟩ | ⟨rfl, rfl⟩
    · exact .inr (.inr (.inl ⟨rfl, hst⟩))
    · exact .inr (.inl h')
    · rcases hst with hst | hst <;> cases hst
    · exact .inr (.inr (.inl ⟨rfl, .inr rfl⟩))
  · rcases h' with rfl | h' | ⟨h', -⟩ | ⟨h', -⟩
    · exact .inr (.inr (.inr ⟨rfl, rfl⟩))
    · exact .inr (.inl h')
    · cases h'
    · cases h'

/-- `c'` is `c` up to control fields: the identity of the connection, the receive ring, and what was read
and sent are the same. The slot is not taken into use, and the state changes as `leads` allows. -/
structure TcpConn.Controls (c c' : TcpConn) : Prop where
  kept : c' = { c' with localIp := c.localIp, localPort := c.localPort, remoteIp := c.remoteIp,
                        remotePort := c.remotePort, rxbuf := c.rxbuf, rxHead := c.rxHead,
                        rxTail := c.rxTail, rxCount := c.rxCount, recvd := c.recvd, gen := c.gen,
                        out := c.out }
  used : c'.used → c.used
  state : c.state.leads c'.state

/-- The connection after elementary changes. Data is taken from the segment `seg`, if there is one. -/
inductive TcpConn.Reaches (env : TcpEnv) (seg : Option TcpIn) (c : TcpConn) : TcpConn → Prop
  | refl : Reaches env seg c c
  | control {d d' : TcpConn} (h : Reaches env seg c d) (hd : d.Controls d') : Reaches env seg c d'
  | send {d : TcpConn} (h : Reaches env seg c d) (flags : BitVec 8) (seq : BitVec 32)
      (data : List UInt8) : Reaches env seg c (tcpSendSegment env flags seq data d)
  | accept {d : TcpConn} {sg : TcpIn} (h : Reaches env seg c d) (hseg : seg = some sg) :
      Reaches env seg c (tcpAcceptData sg d)
  | read {d : TcpConn} (h : Reaches env seg c d) (len : ℕ) :
      Reaches env seg c { (rxbufRead d len).2 with
        recvd := (rxbufRead d len).2.recvd ++ (rxbufRead d len).1 }

namespace TcpConn.Reaches

variable {env : TcpEnv} {seg : TcpIn} {o : Option TcpIn} {c d : TcpConn}

/-! ## Incoming segments -/

theorem acceptInOrder (h : Reaches env (some seg) c d) :
    Reaches env (some seg) c (if seg.inOrder d then tcpAcceptData seg d else d) := by
  split
  · exact h.accept rfl
  · exact h

theorem rxSynSent (hst : c.state = .synSent) : Reaches env (some seg) c (rxSynSent env seg c) := by
  unfold Net.rxSynSent
  split
  · split
    · exact send (refl.control (by exact ⟨rfl, id, by rw [hst]; rfl⟩)) ..
    · exact refl
  · split
    · exact send (refl.control (by exact ⟨rfl, id, by rw [hst]; rfl⟩)) ..
    · exact refl

theorem rxSynReceived (hst : c.state = .synReceived) :
    Reaches env (some seg) c (rxSynReceived seg c) := by
  unfold Net.rxSynReceived
  split
  · exact refl.control ⟨rfl, id, by rw [hst]; rfl⟩
  · exact refl

/-- A change that closes the connection. -/
theorem closing {d' : TcpConn} (h : Reaches env o c d) (hst : d'.state.ends)
    (hkept : d' = { d' with localIp := d.localIp, localPort := d.localPort, remoteIp := d.remoteIp,
                            remotePort := d.remotePort, rxbuf := d.rxbuf, rxHead := d.rxHead,
                            rxTail := d.rxTail, rxCount := d.rxCount, recvd := d.recvd, gen := d.gen,
                            out := d.out })
    (hused : d'.used → d.used) : Reaches env o c d' :=
  h.control ⟨hkept, hused, TcpState.leads_of_ends hst⟩

theorem free (h : Reaches env o c d) : Reaches env o c (freeConn d) :=
  h.closing rfl rfl fun h => (by cases h)

theorem rxEstablished : Reaches env (some seg) c (rxEstablished env seg c) := by
  have hsame := rxEstablishedAck_same seg c
  have hack : Reaches env (some seg) c (rxEstablishedAck seg c) :=
    refl.control ⟨by rw [hsame], by rw [hsame]; exact id, by rw [hsame]; exact TcpState.leads_self _⟩
  have hdata : Reaches env (some seg) c (rxEstablishedData env seg (rxEstablishedAck seg c)) := by
    unfold rxEstablishedData
    split
    · exact (hack.accept rfl).send ..
    · exact hack
  unfold Net.rxEstablished rxEstablishedFin
  split
  · exact send (hdata.closing (by exact rfl) (by exact rfl) (by exact id)) ..
  · exact hdata

theorem rxFinWait1 : Reaches env (some seg) c (rxFinWait1 env seg c) := by
  have hack : Reaches env (some seg) c (rxFinWait1Ack env seg c) := by
    unfold rxFinWait1Ack
    split
    · simp only
      split
      · exact send (refl.closing (by exact rfl) (by exact rfl) (by exact id)) ..
      · exact refl.closing rfl rfl id
    · exact refl
  have hfin : Reaches env (some seg) c (rxFinWait1Fin env seg (rxFinWait1Ack env seg c)) := by
    unfold rxFinWait1Fin
    split
    · exact send (hack.closing (by exact rfl) (by exact rfl) (by exact id)) ..
    · exact hack
  exact hfin.acceptInOrder

theorem rxFinWait2 : Reaches env (some seg) c (rxFinWait2 env seg c) := by
  have hdata : Reaches env (some seg) c (rxFinWaitData seg c) := refl.acceptInOrder
  unfold Net.rxFinWait2 rxFinWait2Fin
  split
  · exact send (hdata.closing (by exact rfl) (by exact rfl) (by exact id)) ..
  · exact hdata

theorem rxConn : Reaches env (some seg) c (tcpRxConn env seg c) := by
  unfold tcpRxConn
  split
  · exact refl.closing rfl rfl id
  split
  case h_1 hst => exact rxSynSent hst
  case h_2 hst => exact rxSynReceived hst
  case h_3 => exact rxEstablished
  case h_4 => exact rxFinWait1
  case h_5 => exact rxFinWait2
  case h_6 =>
    unfold rxClosing
    split
    · exact refl.closing rfl rfl id
    · exact refl
  case h_7 =>
    unfold rxLastAck
    split
    · exact refl.free
    · exact refl
  case h_8 =>
    unfold rxCloseWait
    split
    · exact refl.control ⟨rfl, id, TcpState.leads_self _⟩
    · exact refl
  case h_9 =>
    unfold rxTimeWait
    split
    · exact (refl.send ..).control ⟨rfl, id, TcpState.leads_self _⟩
    · exact refl
  case h_10 => exact refl
  case h_11 => exact refl

/-! ## The timer and the calls -/

theorem timer : Reaches env o c (tcpTimerConn env c) := by
  have hback : Reaches env o c (tcpBackoff c) := refl.control ⟨rfl, id, TcpState.leads_self _⟩
  unfold tcpTimerConn
  split
  · exact refl
  split
  · exact refl.free
  split
  · unfold tcpTimerSyn
    split
    · split
      · exact refl.free
      · simp only
        split <;> exact hback.send ..
    · exact refl
  split
  · unfold tcpTimerData
    split
    · split
      · exact refl.free
      · exact hback.send ..
    · exact refl
  · exact refl

theorem chunk (rest : List UInt8) : Reaches env o c (tcpSendChunk env rest c) := by
  let chunk := tcpSendChunkLen c rest.length
  let d := { c with txbuf := fun i => if c.txLen ≤ i ∧ i < c.txLen + chunk then rest.getD (i - c.txLen) 0
                                      else c.txbuf i
                    txLen := wrap 16 (c.txLen + chunk), stream := c.stream ++ rest.take chunk }
  have hcopy : Reaches env o c d := refl.control ⟨rfl, id, TcpState.leads_self _⟩
  exact (hcopy.send ..).control ⟨rfl, id, TcpState.leads_self _⟩

theorem recv (len : ℕ) : Reaches env o c (tcpRecvRead env len c).2 := by
  simp only [tcpRecvRead]
  split
  · exact (refl.read len).send ..
  · exact refl.read len

theorem close : Reaches env o c (tcpCloseSwitch env c) := by
  have hfin (state : TcpState) (hst : state.ends) : Reaches env o c (tcpCloseFin env state c) := by
    have hstate : Reaches env o c { c with state := state } := refl.closing hst rfl id
    exact (hstate.send ..).control ⟨rfl, id, TcpState.leads_self _⟩
  unfold tcpCloseSwitch
  split
  · exact hfin _ rfl
  · exact hfin _ rfl
  · exact refl.free
  · exact refl.free
  · exact refl

/-- The slot stays the same connection, in a state that its state leads to. -/
theorem follows {c' : TcpConn} (h : Reaches env o c c') :
    c'.gen = c.gen ∧ c'.triple = c.triple ∧ (c'.used → c.used) ∧ c.state.leads c'.state := by
  induction h with
  | refl => exact ⟨rfl, rfl, id, TcpState.leads_self _⟩
  | control _ hd ih =>
    obtain ⟨hgen, htriple, hused, hstate⟩ := ih
    refine ⟨?_, ?_, fun hu => hused (hd.used hu), TcpState.leads_trans hstate hd.state⟩
    · rw [hd.kept]
      exact hgen
    · rw [hd.kept]
      exact htriple
  | send _ flags seq data ih => exact ih
  | @accept d sg _ hseg ih =>
    rw [tcpAcceptData_same]
    exact ih
  | @read d _ len ih =>
    rw [rxbufRead_same]
    exact ih

end TcpConn.Reaches

/-! ## The slot a step allocates -/

/-- The slot the step allocates: for a SYN to a listener, in `tcp_connect` and in `tcp_listen`. -/
def TcpSys.allocates (s : TcpSys) : TcpOp → Option (Fin 16)
  | .rx nb srcIp _ =>
    let seg := tcpParse nb
    if 20 ≤ nb.len ∧ s.findConn seg.dstPort srcIp seg.srcPort = none ∧ seg.has tcpSyn ∧ ¬seg.has tcpAck ∧
      (s.findListener seg.dstPort).isSome then s.freeSlot else none
  | .connect t _ _ _ | .listen t _ => if (s.calls t).ready then s.freeSlot else none
  | _ => none

/-- The segment the step delivers to connection `i`. -/
def TcpSys.delivers (s : TcpSys) (i : Fin 16) : TcpOp → Option TcpIn
  | .rx nb srcIp _ =>
    if 20 ≤ nb.len ∧ s.findConn (tcpParse nb).dstPort srcIp (tcpParse nb).srcPort = some i then
      some (tcpParse nb)
    else none
  | _ => none

section

variable {net : TcpNet} {s : TcpSys} {op : TcpOp} {i : Fin 16}

theorem TcpSys.allocates_free (h : s.allocates op = some i) : s.freeSlot = some i := by
  cases op with
  | rx nb srcIp dstIp =>
    simp only [TcpSys.allocates] at h
    split at h
    · exact h
    · cases h
  | connect t dstIp dstPort arp =>
    simp only [TcpSys.allocates] at h
    split at h
    · exact h
    · cases h
  | listen t port =>
    simp only [TcpSys.allocates] at h
    split at h
    · exact h
    · cases h
  | _ => cases h

theorem TcpSys.opens_of_allocates (h : s.allocates op = some i) : op.opens := by
  cases op with
  | rx | connect | listen => rfl
  | _ => cases h

/-- `tcp_rx` for a SYN that opens a connection. -/
theorem tcpRx_of_allocates {nb : Netbuf} {srcIp dstIp : BitVec 32}
    (h : s.allocates (.rx nb srcIp dstIp) = some i) :
    ∃ li, s.findListener (tcpParse nb).dstPort = some li ∧ li ≠ i ∧
      tcpRx net s nb srcIp dstIp =
        (s.upd i (tcpRxSyn (s.env net i) (tcpParse nb) srcIp dstIp (s.conns i))).upd li
          { s.conns li with dataReady := true } := by
  have hslot := TcpSys.allocates_free h
  simp only [TcpSys.allocates] at h
  split at h
  swap
  · cases h
  rename_i hopen
  obtain ⟨hlen, hfind, hsyn, hack, hlisten⟩ := hopen
  obtain ⟨li, hli⟩ := Option.isSome_iff_exists.mp hlisten
  have hne : li ≠ i := by
    rintro rfl
    have hfree := TcpSys.freeSlot_unused hslot
    simp [TcpSys.findListener_used hli] at hfree
  refine ⟨li, hli, hne, ?_⟩
  have hkeep : (s.upd i (tcpRxSyn (s.env net i) (tcpParse nb) srcIp dstIp (s.conns i))).conns li =
      s.conns li := Function.update_of_ne hne ..
  simp only [tcpRx]
  rw [if_neg (by omega), hfind, if_pos ⟨hsyn, hack⟩, hli, hslot]
  simp only [hkeep]

/-- `tcp_rx` for any other segment. -/
theorem tcpRx_of_not_allocates {nb : Netbuf} {srcIp dstIp : BitVec 32}
    (h : s.allocates (.rx nb srcIp dstIp) = none) (i : Fin 16) :
    (tcpRx net s nb srcIp dstIp).conns i =
      match s.delivers i (.rx nb srcIp dstIp) with
      | some seg => tcpRxConn (s.env net i) seg (s.conns i)
      | none => s.conns i := by
  by_cases hlen : 20 ≤ nb.len
  swap
  · rw [tcpRx, if_pos (by omega), TcpSys.delivers, if_neg (fun h => hlen h.1)]
  have hlen' : ¬nb.len < 20 := by omega
  cases hfind : s.findConn (tcpParse nb).dstPort srcIp (tcpParse nb).srcPort with
  | some idx =>
    simp only [tcpRx, TcpSys.delivers, hfind, if_neg hlen', TcpSys.upd_conns]
    by_cases hi : idx = i
    · subst hi
      rw [if_pos ⟨hlen, rfl⟩, Function.update_self]
    · rw [if_neg (fun h => hi (Option.some.inj h.2)), Function.update_of_ne (Ne.symm hi)]
  | none =>
    have hdrop : s.delivers i (.rx nb srcIp dstIp) = none := by
      rw [TcpSys.delivers, hfind, if_neg (fun h => by cases h.2)]
    simp only [tcpRx, hdrop, hfind, if_neg hlen']
    by_cases hsyn : (tcpParse nb).has tcpSyn ∧ ¬(tcpParse nb).has tcpAck
    swap
    · rw [if_neg hsyn]
      simp only
      split <;> rfl
    rw [if_pos hsyn]
    cases hli : s.findListener (tcpParse nb).dstPort with
    | none =>
      simp only
      split <;> rfl
    | some li =>
      have hfull : s.freeSlot = none := by
        rw [TcpSys.allocates, if_pos ⟨hlen, hfind, hsyn.1, hsyn.2, by rw [hli]; rfl⟩] at h
        exact h
      rw [hfull]

theorem tcpRx_calls (net : TcpNet) (s : TcpSys) (nb : Netbuf) (srcIp dstIp : BitVec 32) :
    (tcpRx net s nb srcIp dstIp).calls = s.calls := by
  unfold tcpRx
  simp only
  split
  · rfl
  split
  · rfl
  split
  · split <;> rfl
  · split <;> rfl

/-- `tcp_connect` leaves the slots alone that it does not allocate. -/
theorem tcpStep_connect_of_not_allocates (net : TcpNet) {t : ℕ} {dstIp : BitVec 32} {dstPort : BitVec 16}
    {arp : Bool} (h : s.allocates (.connect t dstIp dstPort arp) ≠ some i) :
    (tcpStep net s (.connect t dstIp dstPort arp)).conns i = s.conns i := by
  simp only [TcpSys.allocates] at h
  simp only [tcpStep, tcpConnect]
  split
  swap
  · rfl
  rename_i hready
  rw [if_pos hready] at h
  split
  · rfl
  rename_i idx hslot
  have hidx : i ≠ idx := fun h' => h (h' ▸ hslot)
  split <;> simp only [tcpConnectResolved, TcpSys.setCall_conns, TcpSys.upd_conns, Function.update_of_ne hidx]

theorem tcpStep_listen_of_not_allocates (net : TcpNet) {t : ℕ} {port : BitVec 16}
    (h : s.allocates (.listen t port) ≠ some i) : (tcpStep net s (.listen t port)).conns i = s.conns i := by
  simp only [TcpSys.allocates] at h
  simp only [tcpStep, tcpListen]
  split
  swap
  · rfl
  rename_i hready
  rw [if_pos hready] at h
  split
  · rfl
  rename_i idx hslot
  have hidx : i ≠ idx := fun h' => h (h' ▸ hslot)
  rw [TcpSys.ret_conns, TcpSys.upd_conns, Function.update_of_ne hidx]

/-- A step that does not allocate the slot makes elementary changes. -/
theorem tcpStep_reaches (net : TcpNet) (h : s.allocates op ≠ some i) :
    (s.conns i).Reaches (s.env net i) (s.delivers i op) ((tcpStep net s op).conns i) := by
  cases hop : op.opens with
  | false =>
    rcases TcpSys.moves_tcpStep net s op i with hsame | ⟨a, ha, heq⟩
    · rw [hsame]
      exact .refl
    rw [heq]
    cases ha with
    | rx | rxSyn | connect | listen => cases hop
    | timer => exact .timer
    | ready => exact .control .refl ⟨rfl, id, TcpState.leads_self _⟩
    | syn => exact .send .refl ..
    | free => exact .free .refl
    | chunk => exact .chunk _
    | recv => exact .recv _
    | close => exact .close
  | true =>
    cases op with
    | rx nb srcIp dstIp =>
      cases halloc : s.allocates (.rx nb srcIp dstIp) with
      | none =>
        rw [tcpStep, tcpRx_of_not_allocates halloc]
        split
        · rename_i seg hseg
          rw [hseg]
          exact .rxConn
        · exact .refl
      | some idx =>
        obtain ⟨li, -, hne, heq⟩ := @tcpRx_of_allocates net _ _ _ _ _ halloc
        have hidx : i ≠ idx := fun h' => h (h' ▸ halloc)
        rw [tcpStep, heq]
        -- The listener gets a child; all others are left alone.
        by_cases hli : i = li
        · subst hli
          rw [TcpSys.upd_conns, Function.update_self]
          exact .control .refl ⟨rfl, id, TcpState.leads_self _⟩
        · rw [TcpSys.upd_conns, Function.update_of_ne hli, TcpSys.upd_conns, Function.update_of_ne hidx]
          exact .refl
    | connect t dstIp dstPort arp =>
      rw [tcpStep_connect_of_not_allocates net h]
      exact .refl
    | listen t port =>
      rw [tcpStep_listen_of_not_allocates net h]
      exact .refl
    | _ => cases hop

/-- The changes that start a connection. -/
def TcpAct.opens : TcpAct → Bool
  | .rxSyn _ _ _ | .connect _ _ _ _ _ | .listen _ _ => true
  | _ => false

/-- A step that allocates the slot makes one of the changes that start a connection. -/
theorem tcpStep_opens (net : TcpNet) (h : s.allocates op = some i) :
    ∃ a : TcpAct, a.opens ∧ (tcpStep net s op).conns i = a.run (s.env net i) (s.conns i) := by
  have hslot := TcpSys.allocates_free h
  cases op with
  | rx nb srcIp dstIp =>
    obtain ⟨li, -, hne, heq⟩ := @tcpRx_of_allocates net _ _ _ _ _ h
    refine ⟨.rxSyn (tcpParse nb) srcIp dstIp, rfl, ?_⟩
    rw [tcpStep, heq, TcpSys.upd_conns, Function.update_of_ne (Ne.symm hne), TcpSys.upd_conns,
      Function.update_self]
    rfl
  | connect t dstIp dstPort arp =>
    simp only [TcpSys.allocates] at h
    split at h
    swap
    · cases h
    rename_i hready
    refine ⟨.connect net.ip dstIp s.nextEphemeral dstPort arp, rfl, ?_⟩
    simp only [tcpStep, if_pos hready, tcpConnect, hslot]
    cases arp with
    | false =>
      simp only [Bool.false_eq_true, if_false, TcpSys.setCall_conns, TcpSys.upd_conns, Function.update_self]
      rfl
    | true =>
      simp only [if_true, tcpConnectResolved, TcpSys.setCall_conns, TcpSys.upd_conns, Function.update_self]
      rfl
  | listen t port =>
    simp only [TcpSys.allocates] at h
    split at h
    swap
    · cases h
    rename_i hready
    refine ⟨.listen net.ip port, rfl, ?_⟩
    simp only [tcpStep, if_pos hready, tcpListen, hslot, TcpSys.ret_conns, TcpSys.upd_conns,
      Function.update_self]
    rfl
  | _ => cases h

/-- A step that allocates the slot starts the connection afresh. -/
theorem tcpStep_allocates (net : TcpNet) (h : s.allocates op = some i) :
    ((tcpStep net s op).conns i).gen = (s.conns i).gen + 1 ∧
      ((tcpStep net s op).conns i).rxHead = 0 ∧ ((tcpStep net s op).conns i).rxTail = 0 ∧
      ((tcpStep net s op).conns i).rxCount = 0 ∧ ((tcpStep net s op).conns i).recvd = [] := by
  obtain ⟨a, ha, heq⟩ := tcpStep_opens net h
  rw [heq]
  cases a with
  | rxSyn | listen => exact ⟨rfl, rfl, rfl, rfl, rfl⟩
  | connect localIp dstIp localPort dstPort arp => cases arp <;> exact ⟨rfl, rfl, rfl, rfl, rfl⟩
  | _ => cases ha

end

/-! ## The peer and the streams -/

/-- What is taken from a segment comes after what was received before. -/
theorem acceptData_received {c : TcpConn} (hring : Ring.Wf tcpRxbufSize c.rxHead c.rxTail c.rxCount)
    (seg : TcpIn) : ∃ bytes,
      Ring.Wf tcpRxbufSize (tcpAcceptData seg c).rxHead (tcpAcceptData seg c).rxTail
        (tcpAcceptData seg c).rxCount ∧
      (tcpAcceptData seg c).received = c.received ++ bytes := by
  have hle := (tcpAcceptLen_le seg c).2
  rw [rxbufFree_eq hring] at hle
  have hcount := hring.count_le
  by_cases hpos : 0 < tcpAcceptLen seg c
  swap
  · rw [tcpAcceptData, if_neg hpos]
    exact ⟨[], hring, (List.append_nil _).symm⟩
  rw [tcpAcceptData, if_pos hpos]
  have hbytes : (seg.bytes (tcpAcceptLen seg c)).length = tcpAcceptLen seg c := by simp [TcpIn.bytes]
  obtain ⟨hwf, hview⟩ := @rxbufWrite_spec c (seg.bytes (tcpAcceptLen seg c)) hring (by omega)
  have hsame := rxbufWrite_same c (seg.bytes (tcpAcceptLen seg c))
  generalize rxbufWrite c (seg.bytes (tcpAcceptLen seg c)) = d at hwf hview hsame
  have htail : d.rxTail = c.rxTail := by rw [hsame]
  have hrecvd : d.recvd = c.recvd := by rw [hsame]
  refine ⟨seg.bytes (tcpAcceptLen seg c), ?_, ?_⟩
  · simp only [htail]
    exact hwf
  · show d.recvd ++ d.unread = _
    rw [hview, hrecvd, ← List.append_assoc]
    rfl

/-- From `c` to `c'` the slot holds the same connection: it has received `new` since, and has sent to its
peer only. -/
structure TcpConn.Serves (c c' : TcpConn) (new : List UInt8) : Prop where
  gen : c'.gen = c.gen
  peer : c'.peer = c.peer
  ring : Ring.Wf tcpRxbufSize c'.rxHead c'.rxTail c'.rxCount
  received : c'.received = c.received ++ new
  sent : ∃ os, c'.out = c.out ++ os ∧ ∀ o ∈ os, o.peer = c.peer

/-- Elementary changes keep the connection. -/
theorem TcpConn.Reaches.serves {env : TcpEnv} {o : Option TcpIn} {c c' : TcpConn}
    (hring : Ring.Wf tcpRxbufSize c.rxHead c.rxTail c.rxCount) (h : c.Reaches env o c') :
    ∃ new, c.Serves c' new ∧ (o = none → new = []) := by
  induction h with
  | refl =>
    exact ⟨[], ⟨rfl, rfl, hring, (List.append_nil _).symm, [], (List.append_nil _).symm,
      fun o ho => absurd ho List.not_mem_nil⟩, fun _ => rfl⟩
  | control _ hd ih =>
    obtain ⟨new, hserves, hnew⟩ := ih
    refine ⟨new, ?_, hnew⟩
    rw [hd.kept]
    exact ⟨hserves.gen, hserves.peer, hserves.ring, hserves.received, hserves.sent⟩
  | send _ flags seq data ih =>
    obtain ⟨new, hserves, hnew⟩ := ih
    refine ⟨new, ⟨hserves.gen, hserves.peer, hserves.ring, hserves.received, ?_⟩, hnew⟩
    obtain ⟨os, hout, hos⟩ := hserves.sent
    simp only [tcpSendSegment, hout, List.append_assoc]
    refine ⟨_, rfl, fun o ho => ?_⟩
    rcases List.mem_append.mp ho with ho | ho
    · exact hos o ho
    · rw [List.mem_singleton.mp ho]
      exact hserves.peer
  -- New data goes behind what has been received.
  | @accept d sg _ hseg ih =>
    obtain ⟨new, hserves, hnew⟩ := ih
    obtain ⟨bytes, hwf, hreceived⟩ := acceptData_received hserves.ring sg
    have hsame := tcpAcceptData_same sg d
    generalize tcpAcceptData sg d = d' at hwf hreceived hsame
    refine ⟨new ++ bytes, ⟨?_, ?_, hwf, ?_, ?_⟩, fun hnone => absurd (hseg.symm.trans hnone) (by simp)⟩
    · rw [hsame]
      exact hserves.gen
    · rw [hsame]
      exact hserves.peer
    · rw [hreceived, hserves.received, List.append_assoc]
    · rw [hsame]
      exact hserves.sent
  | @read d _ len ih =>
    obtain ⟨new, hserves, hnew⟩ := ih
    obtain ⟨hwf, hview⟩ := rxbufRead_spec hserves.ring len
    have hsame := rxbufRead_same d len
    generalize rxbufRead d len = r at hwf hview hsame
    -- Reading moves bytes from the ring to what was read; together they stay the same.
    have hreceived : (r.2.recvd ++ r.1) ++ r.2.unread = d.received := by
      rw [List.append_assoc, hview, hsame]
      rfl
    refine ⟨new, ⟨?_, ?_, ?_, ?_, ?_⟩, hnew⟩
    · rw [hsame]
      exact hserves.gen
    · rw [hsame]
      exact hserves.peer
    · rw [hsame]
      exact hwf
    · exact hreceived.trans hserves.received
    · rw [hsame]
      exact hserves.sent

end PlantOS.Net
