import PlantOS.Net.TcpSystem
import PlantOS.Common.Ring

/-!
# What a TCP connection delivers

If the peer's segments carry a byte stream, then what `tcp_recv` has returned, followed by what is still
in the receive ring, is a prefix of that stream. The invariant `RxInv` ties `rcv_nxt` to the length of
that prefix in the states that take data; the three copies of the accepting code keep it because a
segment is only taken if its sequence number is `rcv_nxt`, and no state that follows a FIN takes data.
-/

namespace PlantOS.Net

open Word

/-- The bytes in the receive ring. -/
def TcpConn.unread (c : TcpConn) : List UInt8 := Ring.view tcpRxbufSize c.rxbuf c.rxTail c.rxCount

/-- The bytes received on the connection: those returned by `tcp_recv` and those in the ring. -/
def TcpConn.received (c : TcpConn) : List UInt8 := c.recvd ++ c.unread

/-- The states in which a segment's payload can still be taken. -/
def TcpState.receives : TcpState → Bool
  | .synReceived | .established | .finWait1 | .finWait2 => true
  | _ => false

/-- The states in which the peer's initial sequence number is known. -/
def TcpState.synchronized : TcpState → Bool
  | .closed | .listen | .synSent => false
  | _ => true

/-- The segment is well formed, and its payload is what the stream `S` has at its sequence number. -/
def Netbuf.Carries (nb : Netbuf) (S : List UInt8) (irs : BitVec 32) : Prop :=
  20 ≤ (tcpParse nb).hdrLen ∧ (tcpParse nb).hdrLen ≤ nb.len ∧
    ∀ i < (tcpParse nb).payloadLen,
      S[((tcpParse nb).seq - (irs + 1)).toNat + i]? = some ((tcpParse nb).payload i)

/-- Every segment for a synchronized connection carries the stream of its peer. -/
def CarriesStream (S : Fin 16 → ℕ → List UInt8) (s : TcpSys) : TcpOp → Prop
  | .rx nb srcIp _ => ∀ i, s.findConn (tcpParse nb).dstPort srcIp (tcpParse nb).srcPort = some i →
      (s.conns i).state.synchronized → nb.Carries (S i (s.conns i).gen) (s.conns i).irs
  | _ => True

instance (nb : Netbuf) (S : List UInt8) (irs : BitVec 32) : Decidable (nb.Carries S irs) :=
  inferInstanceAs (Decidable (_ ∧ _ ∧ ∀ i < (tcpParse nb).payloadLen, _))

instance (S : Fin 16 → ℕ → List UInt8) (s : TcpSys) : DecidablePred (CarriesStream S s)
  | .rx nb srcIp _ => inferInstanceAs (Decidable (∀ i,
      s.findConn (tcpParse nb).dstPort srcIp (tcpParse nb).srcPort = some i →
      (s.conns i).state.synchronized → nb.Carries (S i (s.conns i).gen) (s.conns i).irs))
  | .timer | .tick | .connect _ _ _ _ | .listen _ _ | .accept _ _ | .send _ _ _ | .recv _ _ _
  | .close _ _ | .resume _ _ => isTrue trivial

/-- The ring is well formed and holds the next bytes of the stream. -/
structure RxInv (S : ℕ → List UInt8) (c : TcpConn) : Prop where
  ring : Ring.Wf tcpRxbufSize c.rxHead c.rxTail c.rxCount
  stream : c.received <+: S c.gen
  next : c.state.receives → c.rcvNxt = c.irs + 1 + BitVec.ofNat 32 c.received.length
  fresh : c.state = .synSent → c.received = []

/-! ## The receive ring -/

theorem rxbufWrite_spec {c : TcpConn} {bs : List UInt8}
    (hring : Ring.Wf tcpRxbufSize c.rxHead c.rxTail c.rxCount)
    (hfit : c.rxCount + bs.length ≤ tcpRxbufSize) :
    Ring.Wf tcpRxbufSize (rxbufWrite c bs).rxHead c.rxTail (rxbufWrite c bs).rxCount ∧
      (rxbufWrite c bs).unread = c.unread ++ bs := by
  induction bs generalizing c with
  | nil => exact ⟨hring, by simp [rxbufWrite]⟩
  | cons b bs ih =>
    rw [List.length_cons] at hfit
    have hspace : c.rxCount < tcpRxbufSize := by omega
    simp only [rxbufWrite, if_pos hspace]
    obtain ⟨hwf, hview⟩ := @ih
      { c with rxbuf := Function.update c.rxbuf c.rxHead b,
               rxHead := (c.rxHead + 1) % tcpRxbufSize, rxCount := c.rxCount + 1 }
      (hring.push hspace) (by simp only; omega)
    refine ⟨hwf, ?_⟩
    rw [hview]
    simp only [TcpConn.unread, Ring.view_push hring hspace, List.append_assoc, List.singleton_append]

/-- A read takes the oldest bytes. -/
theorem rxbufRead_spec {c : TcpConn} (hring : Ring.Wf tcpRxbufSize c.rxHead c.rxTail c.rxCount)
    (len : ℕ) :
    Ring.Wf tcpRxbufSize c.rxHead (rxbufRead c len).2.rxTail (rxbufRead c len).2.rxCount ∧
      (rxbufRead c len).1 ++ (rxbufRead c len).2.unread = c.unread := by
  induction len generalizing c with
  | zero => exact ⟨hring, rfl⟩
  | succ len ih =>
    by_cases hc : 0 < c.rxCount
    · simp only [rxbufRead, if_pos hc]
      obtain ⟨hwf, hview⟩ := @ih
        { c with rxTail := (c.rxTail + 1) % tcpRxbufSize, rxCount := c.rxCount - 1 } (hring.pop hc)
      refine ⟨hwf, ?_⟩
      rw [List.cons_append, hview]
      exact (Ring.view_pop hring hc c.rxbuf).symm
    · have hnone : rxbufRead c (len + 1) = ([], c) := by rw [rxbufRead, if_neg hc]
      rw [hnone]
      exact ⟨hring, rfl⟩

/-! ## Segments -/

/-- The payload is what the connection's stream has at the segment's sequence number. -/
def TcpIn.Fits (S : ℕ → List UInt8) (c : TcpConn) (seg : TcpIn) : Prop :=
  ∀ i < seg.payloadLen, (S c.gen)[(seg.seq - (c.irs + 1)).toNat + i]? = some (seg.payload i)

section

variable {S : ℕ → List UInt8} {c : TcpConn} {env : TcpEnv} {seg : TcpIn}

theorem rxbufFree_eq (hring : Ring.Wf tcpRxbufSize c.rxHead c.rxTail c.rxCount) :
    rxbufFree c = tcpRxbufSize - c.rxCount := by
  have hcount := hring.count_le
  exact wrap_of_lt (by omega) (by simp only [tcpRxbufSize] at *; omega)

theorem RxInv.send (h : RxInv S c) (flags : BitVec 8) (seq : BitVec 32) (data : List UInt8) :
    RxInv S (tcpSendSegment env flags seq data c) :=
  ⟨h.ring, h.stream, h.next, h.fresh⟩

/-- Leaving the receiving states for one that takes no data. -/
theorem RxInv.leave (h : RxInv S c) {c' : TcpConn} (hrx : c'.state.receives = false)
    (hsyn : c'.state ≠ .synSent)
    (hsame : c' = { c' with rxbuf := c.rxbuf, rxHead := c.rxHead, rxTail := c.rxTail,
                            rxCount := c.rxCount, recvd := c.recvd, gen := c.gen }) :
    RxInv S c' := by
  have hrecv : c'.received = c.received := by rw [hsame]; rfl
  refine ⟨?_, ?_, fun hr => ?_, fun hs => absurd hs hsyn⟩
  · rw [hsame]
    exact h.ring
  · rw [hrecv, show c'.gen = c.gen by rw [hsame]]
    exact h.stream
  · rw [hrx] at hr
    cases hr

/-- A list that continues as the stream does stays a prefix of it. -/
theorem prefix_append {α : Type*} {xs ys zs : List α} (h : xs <+: zs)
    (hys : ∀ i < ys.length, zs[xs.length + i]? = ys[i]?) : xs ++ ys <+: zs := by
  obtain ⟨rest, rfl⟩ := h
  refine (List.prefix_append_right_inj xs).mpr (List.prefix_iff_getElem?.mpr fun i hi => ?_)
  have := hys i hi
  rwa [List.getElem?_append_right (by omega), Nat.add_sub_cancel_left,
    List.getElem?_eq_getElem hi] at this

/-- Taking an in-order payload extends the received bytes by a part of it. -/
theorem RxInv.acceptData (h : RxInv S c) (hS : (S c.gen).length < 2 ^ 32)
    (hstate : c.state.receives) (hseq : seg.inOrder c)
    (hfits : seg.Fits S c) : RxInv S (tcpAcceptData seg c) := by
  have hcount := h.ring.count_le
  have hfree : rxbufFree c = tcpRxbufSize - c.rxCount :=
    wrap_of_lt (by omega) (by simp only [tcpRxbufSize] at *; omega)
  have hlen : c.received.length < 2 ^ 32 := Nat.lt_of_le_of_lt h.stream.length_le hS
  -- the payload's place in the stream is the number of bytes received so far
  have hoff : (seg.seq - (c.irs + 1)).toNat = c.received.length := by
    have : seg.seq = c.irs + 1 + BitVec.ofNat 32 c.received.length := by
      rw [← h.next hstate]
      simp only [TcpIn.inOrder, decide_eq_true_eq] at hseq
      exact hseq.2
    rw [this, BitVec.add_comm, BitVec.add_sub_cancel, BitVec.toNat_ofNat, Nat.mod_eq_of_lt hlen]
  have hle : tcpAcceptLen seg c ≤ seg.payloadLen ∧
      tcpAcceptLen seg c ≤ tcpRxbufSize - c.rxCount := by
    rw [← hfree]
    exact tcpAcceptLen_le seg c
  unfold tcpAcceptData
  generalize tcpAcceptLen seg c = accept at hle
  simp only
  split
  · have hbytes : (seg.bytes accept).length = accept := by simp [TcpIn.bytes]
    obtain ⟨hwf, hview⟩ := @rxbufWrite_spec c (seg.bytes accept) h.ring (by omega)
    have hsame := rxbufWrite_same c (seg.bytes accept)
    set d := rxbufWrite c (seg.bytes accept)
    have hrecvd : d.recvd = c.recvd := by rw [hsame]
    have hgen : d.gen = c.gen := by rw [hsame]
    have hreceived : d.received = c.received ++ seg.bytes accept := by
      rw [TcpConn.received, hview, hrecvd, ← List.append_assoc]
      rfl
    refine ⟨?_, ?_, fun _ => ?_, fun hs => ?_⟩
    · have htail : d.rxTail = c.rxTail := by rw [hsame]
      show Ring.Wf tcpRxbufSize d.rxHead d.rxTail d.rxCount
      rw [htail]
      exact hwf
    · show d.received <+: S d.gen
      rw [hreceived, hgen]
      refine prefix_append h.stream fun i hi => ?_
      rw [hbytes] at hi
      rw [← hoff, hfits i (by omega), TcpIn.bytes, List.getElem?_map, List.getElem?_range hi]
      rfl
    · show d.rcvNxt + _ = d.irs + 1 + BitVec.ofNat 32 d.received.length
      rw [hreceived, List.length_append, hbytes, BitVec.ofNat_add, ← BitVec.add_assoc,
        show d.rcvNxt = c.rcvNxt by rw [hsame], show d.irs = c.irs by rw [hsame], h.next hstate]
    · have : c.state = .synSent := by rw [← hs]; show c.state = d.state; rw [hsame]
      rw [this] at hstate
      cases hstate
  · exact h

/-- A payload carried by a segment that also carries a FIN is not taken again. -/
theorem not_inOrder_afterFin (hlen : seg.payloadLen < 2 ^ 16) (hc : c.rcvNxt = seg.afterFin) :
    seg.inOrder c = false := by
  simp only [TcpIn.inOrder, hc, TcpIn.afterFin, decide_eq_false_iff_not, not_and]
  intro hpos heq
  bv_omega

/-- The SYN of the peer sets the first number; nothing has been received before. -/
theorem RxInv.rxSynSent (h : RxInv S c) (hst : c.state = .synSent) :
    RxInv S (rxSynSent env seg c) := by
  -- nothing has been received, and the peer's first byte is `irs + 1`
  have hnext : seg.seq + 1 = seg.seq + 1 + BitVec.ofNat 32 c.received.length := by
    simp [h.fresh hst]
  unfold Net.rxSynSent
  split
  · split
    · apply RxInv.send
      exact ⟨h.ring, h.stream, fun _ => hnext, fun hs => by cases hs⟩
    · exact h
  · split
    · apply RxInv.send
      exact ⟨h.ring, h.stream, fun _ => hnext, fun hs => by cases hs⟩
    · exact h

/-- Step in `SYN_RECEIVED`: no data is taken. -/
theorem RxInv.rxSynReceived (h : RxInv S c) (hst : c.state = .synReceived) :
    RxInv S (rxSynReceived seg c) := by
  unfold Net.rxSynReceived
  split
  · exact ⟨h.ring, h.stream, fun _ => h.next (by rw [hst]; rfl), fun hs => by cases hs⟩
  · exact h

/-- Step in `ESTABLISHED`: data is taken only in order. -/
theorem RxInv.rxEstablished (h : RxInv S c) (hst : c.state = .established)
    (hS : (S c.gen).length < 2 ^ 32) (hfits : seg.Fits S c) : RxInv S (rxEstablished env seg c) := by
  have hack : RxInv S (rxEstablishedAck seg c) := by
    rw [rxEstablishedAck_same]
    exact ⟨h.ring, h.stream, h.next, h.fresh⟩
  have hdata : RxInv S (rxEstablishedData env seg (rxEstablishedAck seg c)) := by
    unfold rxEstablishedData
    split
    · rename_i hin
      apply RxInv.send
      rw [rxEstablishedAck_same] at hack hin ⊢
      exact hack.acceptData hS (by rw [hst]; rfl) hin hfits
    · exact hack
  unfold Net.rxEstablished rxEstablishedFin
  split
  · apply RxInv.send
    exact hdata.leave rfl (by simp) rfl
  · exact hdata

/-- Step in `FIN_WAIT_1`: the segment may acknowledge our FIN and close the other side before its data is
looked at. -/
theorem RxInv.rxFinWait1 (h : RxInv S c) (hst : c.state = .finWait1)
    (hS : (S c.gen).length < 2 ^ 32) (hlen : seg.payloadLen < 2 ^ 16) (hfits : seg.Fits S c) :
    RxInv S (rxFinWait1 env seg c) := by
  -- the connection stays in a receiving state or has moved `rcv_nxt` behind the FIN
  have hack : RxInv S (rxFinWait1Ack env seg c) ∧ (rxFinWait1Ack env seg c).gen = c.gen ∧
      (rxFinWait1Ack env seg c).irs = c.irs ∧ ((rxFinWait1Ack env seg c).state.receives ∨
        (rxFinWait1Ack env seg c).rcvNxt = seg.afterFin) := by
    unfold rxFinWait1Ack
    split
    · simp only
      split
      · refine ⟨?_, rfl, rfl, .inr rfl⟩
        apply RxInv.send
        exact h.leave rfl (by simp) rfl
      · exact ⟨⟨h.ring, h.stream, fun _ => h.next (by rw [hst]; rfl), fun hs => by cases hs⟩,
          rfl, rfl, .inl rfl⟩
    · exact ⟨h, rfl, rfl, .inl (by rw [hst]; rfl)⟩
  unfold Net.rxFinWait1
  generalize rxFinWait1Ack env seg c = d at hack
  obtain ⟨hd, hgen, hirs, hnext⟩ := hack
  have hfin : RxInv S (rxFinWait1Fin env seg d) ∧ (rxFinWait1Fin env seg d).gen = c.gen ∧
      (rxFinWait1Fin env seg d).irs = c.irs ∧ ((rxFinWait1Fin env seg d).state.receives ∨
        (rxFinWait1Fin env seg d).rcvNxt = seg.afterFin) := by
    unfold rxFinWait1Fin
    split
    · refine ⟨?_, hgen, hirs, .inr rfl⟩
      apply RxInv.send
      exact hd.leave rfl (by simp) rfl
    · exact ⟨hd, hgen, hirs, hnext⟩
  generalize rxFinWait1Fin env seg d = e at hfin
  obtain ⟨he, hgen, hirs, hnext⟩ := hfin
  unfold rxFinWaitData
  split
  · rename_i hin
    rcases hnext with hrecv | hafter
    · refine he.acceptData (by rw [hgen]; exact hS) hrecv hin ?_
      rw [TcpIn.Fits, hgen, hirs]
      exact hfits
    · rw [not_inOrder_afterFin hlen hafter] at hin
      cases hin
  · exact he

/-- Step in `FIN_WAIT_2`: data in order, and a FIN, which takes one number. -/
theorem RxInv.rxFinWait2 (h : RxInv S c) (hst : c.state = .finWait2)
    (hS : (S c.gen).length < 2 ^ 32) (hfits : seg.Fits S c) : RxInv S (rxFinWait2 env seg c) := by
  have hdata : RxInv S (rxFinWaitData seg c) := by
    unfold rxFinWaitData
    split
    · rename_i hin
      exact h.acceptData hS (by rw [hst]; rfl) hin hfits
    · exact h
  unfold Net.rxFinWait2 rxFinWait2Fin
  split
  · apply RxInv.send
    exact hdata.leave rfl (by simp) rfl
  · exact hdata

theorem RxInv.free (h : RxInv S c) : RxInv S (freeConn c) := h.leave rfl (by simp [freeConn]) rfl

/-- Step: a segment for the connection, by its state. -/
theorem RxInv.rxConn (h : RxInv S c) (hS : (S c.gen).length < 2 ^ 32)
    (hlen : seg.payloadLen < 2 ^ 16) (hfits : c.state.synchronized → seg.Fits S c) :
    RxInv S (tcpRxConn env seg c) := by
  unfold tcpRxConn
  split
  · exact h.leave rfl (by simp) rfl
  split
  case h_1 hst => exact h.rxSynSent hst
  case h_2 hst => exact h.rxSynReceived hst
  case h_3 hst => exact h.rxEstablished hst hS (hfits (by rw [hst]; rfl))
  case h_4 hst => exact h.rxFinWait1 hst hS hlen (hfits (by rw [hst]; rfl))
  case h_5 hst => exact h.rxFinWait2 hst hS (hfits (by rw [hst]; rfl))
  case h_6 hst =>
    unfold rxClosing
    split
    · exact h.leave rfl (by simp) rfl
    · exact h
  case h_7 hst =>
    unfold rxLastAck
    split
    · exact h.free
    · exact h
  case h_8 hst =>
    unfold rxCloseWait
    split
    · exact ⟨h.ring, h.stream, h.next, h.fresh⟩
    · exact h
  case h_9 hst =>
    unfold rxTimeWait
    split
    · exact ⟨h.ring, h.stream, h.next, h.fresh⟩
    · exact h
  case h_10 => exact h
  case h_11 => exact h

/-! ## The timer and the socket layer -/

/-- Step: the timer takes no data. -/
theorem RxInv.timer (h : RxInv S c) : RxInv S (tcpTimerConn env c) := by
  unfold tcpTimerConn
  split
  · exact h
  split
  · exact h.free
  split
  · unfold tcpTimerSyn
    split
    · split
      · exact h.free
      · simp only
        split <;> exact ⟨h.ring, h.stream, h.next, h.fresh⟩
    · exact h
  split
  · unfold tcpTimerData
    split
    · split
      · exact h.free
      · exact ⟨h.ring, h.stream, h.next, h.fresh⟩
    · exact h
  · exact h

/-- Step: the application reads. -/
theorem RxInv.recv (h : RxInv S c) (len : ℕ) : RxInv S (tcpRecvRead env len c).2 := by
  obtain ⟨hwf, hview⟩ := rxbufRead_spec h.ring len
  have hsame := rxbufRead_same c len
  unfold tcpRecvRead
  generalize rxbufRead c len = r at hwf hview hsame
  have hreceived : (r.2.recvd ++ r.1) ++ r.2.unread = c.received := by
    rw [List.append_assoc, hview, hsame]
    rfl
  have hread : RxInv S { r.2 with recvd := r.2.recvd ++ r.1 } := by
    refine ⟨?_, ?_, ?_, ?_⟩
    · rw [hsame]
      exact hwf
    · show (r.2.recvd ++ r.1) ++ r.2.unread <+: S r.2.gen
      rw [hreceived, hsame]
      exact h.stream
    · show r.2.state.receives → r.2.rcvNxt = r.2.irs + 1
        + BitVec.ofNat 32 ((r.2.recvd ++ r.1) ++ r.2.unread).length
      rw [hreceived, hsame]
      exact h.next
    · show r.2.state = .synSent → (r.2.recvd ++ r.1) ++ r.2.unread = []
      rw [hreceived, hsame]
      exact h.fresh
  simp only
  split
  · exact hread.send _ _ _
  · exact hread

/-- Step: the application closes. -/
theorem RxInv.close (h : RxInv S c) : RxInv S (tcpCloseSwitch env c) := by
  unfold tcpCloseSwitch
  split
  case h_1 hst =>
    exact ⟨h.ring, h.stream, fun _ => h.next (by rw [hst]; rfl), fun hs => by cases hs⟩
  case h_2 hst => exact ⟨h.ring, h.stream, fun hr => (by cases hr), fun hs => by cases hs⟩
  case h_3 => exact h.free
  case h_4 => exact h.free
  case h_5 => exact h

theorem rxInv_alloc (S : ℕ → List UInt8) (c : TcpConn) : RxInv S (allocConn c) :=
  ⟨Ring.wf_empty (by decide), List.nil_prefix, fun hr => (by cases hr), fun _ => rfl⟩

end

/-- Every change of a connection keeps the invariant, if its segments carry the stream. -/
theorem RxInv.act {S : Fin 16 → ℕ → List UInt8} (hS : ∀ i g, (S i g).length < 2 ^ 32) {s : TcpSys}
    {op : TcpOp} {i : Fin 16} {a : TcpAct} (hok : CarriesStream S s op) (ha : TcpAct.Of s op i a)
    {env : TcpEnv} (h : RxInv (S i) (s.conns i)) : RxInv (S i) (a.run env (s.conns i)) := by
  cases ha with
  | rx hlen hfind =>
    exact h.rxConn (hS _ _) (wrap_lt _ _) fun hsync => (hok i hfind hsync).2.2
  | rxSyn hfree =>
    have h' := rxInv_alloc (S i) (s.conns i)
    exact ⟨h'.ring, h'.stream, fun _ => by simp [TcpAct.run, tcpRxSyn, tcpSendSegment,
      TcpConn.received, TcpConn.unread, allocConn, TcpConn.cleared], fun hs => by cases hs⟩
  | timer => exact h.timer
  | ready => exact ⟨h.ring, h.stream, h.next, h.fresh⟩
  | @connect t dstIp dstPort arp i localIp localPort hfree =>
    have h' := rxInv_alloc (S i) (s.conns i)
    cases arp <;> exact ⟨h'.ring, h'.stream, fun hr => (by cases hr), fun _ => rfl⟩
  | syn => exact ⟨h.ring, h.stream, h.next, h.fresh⟩
  | listen =>
    have h' := rxInv_alloc (S i) (s.conns i)
    exact ⟨h'.ring, h'.stream, fun hr => (by cases hr), fun hs => by cases hs⟩
  | free => exact h.free
  | chunk => exact ⟨h.ring, h.stream, h.next, h.fresh⟩
  | recv => exact h.recv _
  | close => exact h.close

/-- What a connection has received is a prefix of the stream its peer's segments carry: in any order of
segments, with any losses and duplicates, and interleaved with the timer and all calls. -/
theorem tcp_receives_stream {net : TcpNet} {ticks : BitVec 64} {S : Fin 16 → ℕ → List UInt8}
    {ops : List TcpOp} (hS : ∀ i g, (S i g).length < 2 ^ 32)
    (hops : Run.Admits (tcpStep net) (CarriesStream S) (tcpInit ticks) ops) (i : Fin 16) :
    let c := (Run.run (tcpStep net) (tcpInit ticks) ops).conns i
    c.recvd ++ c.unread <+: S i c.gen ∧ c.rxCount ≤ tcpRxbufSize ∧
      c.rxHead = (c.rxTail + c.rxCount) % tcpRxbufSize := by
  have hinit : ∀ i, RxInv (S i) ((tcpInit ticks).conns i) := fun i =>
    ⟨Ring.wf_empty (by decide), List.nil_prefix, fun hr => (by cases hr), fun hs => by cases hs⟩
  have hact : ∀ s op i a, CarriesStream S s op → TcpAct.Of s op i a → RxInv (S i) (s.conns i) →
      RxInv (S i) (a.run (s.env net i) (s.conns i)) := fun _ _ _ _ hok ha h => RxInv.act hS hok ha h
  have h := tcp_invariant hact hinit hops i
  exact ⟨h.stream, h.ring.count_le, h.ring.head_eq⟩

/-- A client connects to port 80, sends "hi" twice, and the server reads. -/
theorem tcp_receives_stream_hi :
    let c := (Run.run (tcpStep ⟨0, fun _ _ => true⟩) (tcpInit 0)
      [.listen 0 80, .rx (plainSegment 0x04000050 100 0 tcpSyn []) 7 9,
        .rx (plainSegment 0x04000050 101 12346 tcpAck []) 7 9,
        .rx (plainSegment 0x04000050 101 12346 tcpAck [104, 105]) 7 9,
        .rx (plainSegment 0x04000050 101 12346 tcpAck [104, 105]) 7 9,
        .recv 0 1 10, .resume 0 false]).conns 1
    c.recvd = [104, 105] ∧ c.recvd ++ c.unread <+: [104, 105] ∧ c.rxCount ≤ tcpRxbufSize ∧
      c.rxHead = (c.rxTail + c.rxCount) % tcpRxbufSize :=
  ⟨by decide +kernel,
    tcp_receives_stream (S := fun _ _ => [104, 105]) (fun _ _ => by decide) (by decide +kernel) 1⟩

end PlantOS.Net
