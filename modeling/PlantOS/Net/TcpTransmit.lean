import PlantOS.Net.TcpSystem

/-!
# What a TCP connection transmits

The bytes `tcp_send` copies into `txbuf` form the stream of a connection. A segment is faithful if its
payload is what the stream has at its sequence number. `TxInv` says that `txbuf` holds the stream from
`snd_una` on in the states in which `tcp_timer` retransmits, and that `snd_nxt` is the end of the stream
in the states in which `tcp_send` starts.

Two things the code does not exclude break this. `tcp_send` checks the state of the connection only on
entry, so a later chunk can follow a FIN or go to another connection in the same slot. And with nothing
outstanding, an acknowledgement of exactly `snd_nxt + 2^31` passes both comparisons of `tcp_rx`.
-/

namespace PlantOS.Net

open Word

/-- The payload is what the connection's stream has at the segment's sequence number. -/
def TcpOut.Faithful (o : TcpOut) : Prop :=
  ∀ k (h : k < o.payload.length), o.stream[(o.seq - (o.iss + 1)).toNat + k]? = some o.payload[k]

/-- The acknowledgement takes `snd_una` half the sequence space beyond `snd_nxt`. -/
def TcpIn.halfwayAck (seg : TcpIn) (c : TcpConn) : Prop :=
  c.state = .established ∧ ¬seg.has tcpRst ∧ seg.has tcpAck ∧ c.sndUna = c.sndNxt ∧
    seg.ack = c.sndNxt + 0x80000000

/-- An iteration of `tcp_send` that copies data does so in a state that `tcp_send` accepts on entry, and with
it at most 2^32 bytes have been sent on the connection. -/
def TcpCall.OpenSend (s : TcpSys) : TcpCall → Prop
  | .send i data sent => sent < data.length → (s.conns i).txLen < tcpTxbufSize →
    ((s.conns i).state = .established ∨ (s.conns i).state = .closeWait) ∧
      (s.conns i).stream.length + tcpSendChunkLen (s.conns i) (data.length - sent) ≤ 2 ^ 32
  | _ => True

/-- The steps under which a connection transmits its stream: no halfway acknowledgement arrives, and
`tcp_send` copies data only while its connection is open. -/
def SendsOpen (s : TcpSys) : TcpOp → Prop
  | .rx nb srcIp _ => ∀ i, s.findConn (tcpParse nb).dstPort srcIp (tcpParse nb).srcPort = some i →
      ¬(tcpParse nb).halfwayAck (s.conns i)
  | .resume t _ => (s.calls t).OpenSend s
  | _ => True

instance (o : TcpOut) : Decidable o.Faithful :=
  inferInstanceAs (Decidable (∀ k (_ : k < o.payload.length), _))

instance (seg : TcpIn) (c : TcpConn) : Decidable (seg.halfwayAck c) :=
  inferInstanceAs (Decidable (_ ∧ _ ∧ _ ∧ _ ∧ _))

instance (s : TcpSys) : DecidablePred (TcpCall.OpenSend s)
  | .send _ _ _ => inferInstanceAs (Decidable (_ → _ → _ ∧ _))
  | .idle | .connectArp _ _ | .connectWait _ _ | .acceptWait _ | .acceptChild _ _ | .recv _ _
  | .closeWait _ _ | .returned _ _ => isTrue trivial

instance (s : TcpSys) : DecidablePred (SendsOpen s)
  | .rx nb srcIp _ => inferInstanceAs (Decidable (∀ i,
      s.findConn (tcpParse nb).dstPort srcIp (tcpParse nb).srcPort = some i →
      ¬(tcpParse nb).halfwayAck (s.conns i)))
  | .resume t _ => inferInstanceAs (Decidable ((s.calls t).OpenSend s))
  | .timer | .tick | .connect _ _ _ _ | .listen _ _ | .accept _ _ | .send _ _ _ | .recv _ _ _
  | .close _ _ => isTrue trivial

/-- The states before the connection is established. -/
def TcpState.opening : TcpState → Bool
  | .synSent | .synReceived => true
  | _ => false

/-- The states in which `snd_nxt` is the end of the stream. -/
def TcpState.sending : TcpState → Bool
  | .synSent | .synReceived | .established | .closeWait => true
  | _ => false

/-- The states in which `tcp_timer` retransmits data. -/
def TcpState.resending : TcpState → Bool
  | .established | .finWait1 => true
  | _ => false

/-- `txbuf` holds the stream from its byte `una` on, which has the sequence number `snd_una`. -/
structure TxWindow (c : TcpConn) (una : ℕ) : Prop where
  seq : c.sndUna = c.iss + 1 + BitVec.ofNat 32 una
  len : una + c.txLen = c.stream.length
  buf : ∀ i < c.txLen, c.stream[una + i]? = some (c.txbuf i)

/-- The transmitting side of a connection. -/
structure TxInv (c : TcpConn) : Prop where
  txLen_le : c.txLen ≤ tcpTxbufSize
  bound : c.stream.length ≤ 2 ^ 32
  out : ∀ o ∈ c.out, o.Faithful
  opening : c.state.opening → c.stream = [] ∧ c.txLen = 0
  next : c.state.sending → c.sndNxt = c.iss + 1 + BitVec.ofNat 32 c.stream.length
  window : c.state.resending → ∃ una, TxWindow c una

/-! ## Sequence numbers -/

theorem seqLt_iff (a b : BitVec 32) : seqLt a b ↔ 2 ^ 31 ≤ (a - b).toNat := by
  have := (a - b).isLt
  simp only [seqLt, decide_eq_true_eq, BitVec.toInt_eq_toNat_cond]
  split <;> omega

theorem seqLe_iff (a b : BitVec 32) : seqLe a b ↔ a = b ∨ 2 ^ 31 ≤ (a - b).toNat := by
  have := (a - b).isLt
  have hzero : a = b ↔ (a - b).toNat = 0 := by bv_omega
  rw [hzero]
  simp only [seqLe, decide_eq_true_eq, BitVec.toInt_eq_toNat_cond]
  split <;> omega

/-- An acceptable acknowledgement lies in the window, or half the sequence space beyond it. -/
theorem acked_le {una ack : BitVec 32} {n : ℕ} (hn : n ≤ tcpTxbufSize) (hlt : seqLt una ack)
    (hle : seqLe ack (una + BitVec.ofNat 32 n)) (hhalf : ¬(n = 0 ∧ ack = una + 0x80000000)) :
    0 < ack - una ∧ (ack - una).toNat ≤ n := by
  rw [seqLt_iff] at hlt
  rw [seqLe_iff] at hle
  simp only [tcpTxbufSize] at hn
  bv_omega

/-- The sequence number of the byte `k` of the stream gives its place. -/
theorem toNat_seq_sub (iss : BitVec 32) {k : ℕ} (hk : k < 2 ^ 32) :
    (iss + 1 + BitVec.ofNat 32 k - (iss + 1)).toNat = k := by
  rw [BitVec.add_comm, BitVec.add_sub_cancel, BitVec.toNat_ofNat, Nat.mod_eq_of_lt hk]

/-! ## Segments -/

section

variable {c : TcpConn} {env : TcpEnv} {seg : TcpIn}

/-- Sending a faithful segment. -/
theorem TxInv.sendData (h : TxInv c) {flags : BitVec 8} {seq : BitVec 32} {data : List UInt8}
    (hdata : ∀ k (_ : k < data.length), c.stream[(seq - (c.iss + 1)).toNat + k]? = some data[k]) :
    TxInv (tcpSendSegment env flags seq data c) := by
  refine ⟨h.txLen_le, h.bound, fun o ho => ?_, h.opening, h.next,
    fun hr => let ⟨una, hw⟩ := h.window hr; ⟨una, hw.seq, hw.len, hw.buf⟩⟩
  rcases List.mem_append.mp ho with ho | ho
  · exact h.out o ho
  · rw [List.mem_singleton.mp ho]
    exact hdata

/-- A segment without payload is faithful. -/
theorem TxInv.send (h : TxInv c) (flags : BitVec 8) (seq : BitVec 32) :
    TxInv (tcpSendSegment env flags seq [] c) :=
  h.sendData fun _ hk => absurd hk (Nat.not_lt_zero _)

/-- A change that leaves the transmitting side alone and enters no further sending state. -/
theorem TxInv.keep (h : TxInv c) {c' : TcpConn}
    (hopen : c'.state.opening → c.state.opening) (hsend : c'.state.sending → c.state.sending)
    (hres : c'.state.resending → c.state.resending)
    (hsame : c' = { c' with txLen := c.txLen, stream := c.stream, out := c.out, sndNxt := c.sndNxt,
                            iss := c.iss, txbuf := c.txbuf })
    (huna : c'.state.resending → c'.sndUna = c.sndUna) : TxInv c' := by
  refine ⟨?_, ?_, ?_, fun ho => ?_, fun hs => ?_, fun hr => ?_⟩
  · rw [hsame]; exact h.txLen_le
  · rw [hsame]; exact h.bound
  · rw [hsame]; exact h.out
  · have := h.opening (hopen ho)
    rw [hsame]; exact this
  · have := h.next (hsend hs)
    rw [hsame]; exact this
  · obtain ⟨una, hw⟩ := h.window (hres hr)
    refine ⟨una, ?_, ?_, ?_⟩
    · rw [huna hr, hw.seq, hsame]
    · rw [hsame]; exact hw.len
    · rw [hsame]; exact hw.buf

/-- A connection becomes established with nothing sent. -/
theorem TxInv.establish (h : TxInv c) (hst : c.state.opening) {c' : TcpConn}
    (hstate : c'.state = .established) (huna : c'.sndUna = c.sndNxt)
    (hsame : c' = { c' with txLen := c.txLen, stream := c.stream, out := c.out, sndNxt := c.sndNxt,
                            iss := c.iss }) : TxInv c' := by
  obtain ⟨hstream, hlen⟩ := h.opening hst
  have hsending : c.state.sending := by
    revert hst
    cases c.state <;> simp [TcpState.opening, TcpState.sending]
  have hnext := h.next hsending
  refine ⟨?_, ?_, ?_, fun ho => ?_, fun _ => ?_, fun _ => ⟨0, ?_, ?_, ?_⟩⟩
  · rw [hsame]; exact h.txLen_le
  · rw [hsame]; exact h.bound
  · rw [hsame]; exact h.out
  · rw [hstate] at ho
    cases ho
  · rw [hsame]; exact hnext
  · rw [huna, hnext, hstream, hsame]; rfl
  · rw [hsame]; simp [hstream, hlen]
  · rw [hsame]; simp [hlen]

theorem TxInv.free (h : TxInv c) : TxInv (freeConn c) :=
  h.keep (fun ho => by cases ho) (fun hs => by cases hs) (fun hr => by cases hr) rfl
    (fun hr => by cases hr)

/-- Step in `SYN_SENT`: the stream starts behind our SYN. -/
theorem TxInv.rxSynSent (h : TxInv c) (hst : c.state = .synSent) : TxInv (rxSynSent env seg c) := by
  have hopen : c.state.opening := by rw [hst]; rfl
  unfold Net.rxSynSent
  split
  · split
    · rename_i hack
      apply TxInv.send
      exact h.establish hopen rfl hack rfl
    · exact h
  · split
    · apply TxInv.send
      exact h.keep (fun _ => hopen) (fun _ => by rw [hst]; rfl) (fun hr => by cases hr) rfl
        (fun hr => by cases hr)
    · exact h

/-- Step in `SYN_RECEIVED`, likewise. -/
theorem TxInv.rxSynReceived (h : TxInv c) (hst : c.state = .synReceived) :
    TxInv (rxSynReceived seg c) := by
  unfold Net.rxSynReceived
  split
  · rename_i hack
    exact h.establish (by rw [hst]; rfl) rfl hack.2 rfl
  · exact h

/-- Acknowledged bytes leave `txbuf`. -/
theorem TxInv.rxEstablishedAck (h : TxInv c) (hst : c.state = .established) (hrst : ¬seg.has tcpRst)
    (hhalf : ¬seg.halfwayAck c) : TxInv (rxEstablishedAck seg c) := by
  unfold Net.rxEstablishedAck
  split
  swap
  · exact h
  rename_i hack
  obtain ⟨hflag, hlt, hle⟩ := hack
  obtain ⟨una, hw⟩ := h.window (by rw [hst]; rfl)
  have hlen := h.txLen_le
  have hnext : c.sndNxt = c.sndUna + BitVec.ofNat 32 c.txLen := by
    rw [h.next (by rw [hst]; rfl), hw.seq, ← hw.len, BitVec.ofNat_add, ← BitVec.add_assoc]
  obtain ⟨hpos, hacked⟩ := acked_le hlen hlt (hnext ▸ hle) (by
    rintro ⟨h0, hack⟩
    have : c.sndNxt = c.sndUna := by rw [hnext, h0]; simp
    exact hhalf ⟨hst, hrst, hflag, this.symm, by rw [hack, this]⟩)
  simp only [if_pos (And.intro hpos hacked)]
  generalize hn : (seg.ack - c.sndUna).toNat = n at hacked
  have hack : seg.ack = c.sndUna + BitVec.ofNat 32 n := by
    rw [← hn, BitVec.ofNat_toNat, BitVec.setWidth_eq]
    bv_omega
  have hwrap : wrap 16 ((c.txLen : ℤ) - wrap 16 n) = c.txLen - n := by
    simp only [tcpTxbufSize] at hlen
    rw [wrap_of_lt rfl (by omega : n < 2 ^ 16)]
    exact wrap_of_lt (by omega) (by omega)
  refine ⟨?_, h.bound, h.out, fun ho => ?_, h.next, fun _ => ⟨una + n, ?_, ?_, ?_⟩⟩
  · simp only [hwrap]
    omega
  · simp only [hst] at ho
    cases ho
  · simp only [hack, hw.seq, BitVec.ofNat_add, BitVec.add_assoc]
  · simp only [hwrap]
    have := hw.len
    omega
  · intro i hi
    simp only [hwrap] at hi ⊢
    rw [if_pos hi, Nat.add_assoc, hw.buf (n + i) (by omega), Nat.add_comm n i]

theorem TxInv.acceptData (h : TxInv c) : TxInv (tcpAcceptData seg c) := by
  rw [tcpAcceptData_same]
  exact h.keep id id id rfl fun _ => rfl

/-- Step in `ESTABLISHED`: an acknowledgement moves the window along the stream. -/
theorem TxInv.rxEstablished (h : TxInv c) (hst : c.state = .established) (hrst : ¬seg.has tcpRst)
    (hhalf : ¬seg.halfwayAck c) : TxInv (rxEstablished env seg c) := by
  have hack := h.rxEstablishedAck hst hrst hhalf
  have hstate : (Net.rxEstablishedAck seg c).state = .established := by
    rw [rxEstablishedAck_same]
    exact hst
  have hdata : TxInv (rxEstablishedData env seg (Net.rxEstablishedAck seg c)) ∧
      (rxEstablishedData env seg (Net.rxEstablishedAck seg c)).state = .established := by
    unfold rxEstablishedData
    split
    · refine ⟨hack.acceptData.send _ _, ?_⟩
      show (tcpAcceptData seg (Net.rxEstablishedAck seg c)).state = .established
      rw [tcpAcceptData_same]
      exact hstate
    · exact ⟨hack, hstate⟩
  unfold Net.rxEstablished rxEstablishedFin
  split
  · apply TxInv.send
    exact hdata.1.keep (fun ho => by cases ho) (fun _ => by rw [hdata.2]; rfl)
      (fun hr => by cases hr) rfl (fun hr => by cases hr)
  · exact hdata.1

theorem TxInv.rxFinWaitData (h : TxInv c) : TxInv (rxFinWaitData seg c) := by
  unfold Net.rxFinWaitData
  split
  · exact h.acceptData
  · exact h

/-- A state in which nothing is sent or retransmitted any more. -/
theorem TxInv.leave (h : TxInv c) {c' : TcpConn} (hst : c'.state.sending = false)
    (hres : c'.state.resending = false)
    (hsame : c' = { c' with txLen := c.txLen, stream := c.stream, out := c.out, sndNxt := c.sndNxt,
                            iss := c.iss, txbuf := c.txbuf }) : TxInv c' := by
  refine h.keep (fun ho => ?_) (fun hs => ?_) (fun hr => ?_) hsame (fun hr => ?_)
  · revert hst ho
    cases c'.state <;> simp [TcpState.opening, TcpState.sending]
  · rw [hst] at hs
    cases hs
  · rw [hres] at hr
    cases hr
  · rw [hres] at hr
    cases hr

/-- Step in `FIN_WAIT_1`: only acknowledgements without data are sent. -/
theorem TxInv.rxFinWait1 (h : TxInv c) : TxInv (rxFinWait1 env seg c) := by
  have hack : TxInv (rxFinWait1Ack env seg c) := by
    unfold rxFinWait1Ack
    split
    · simp only
      split
      · apply TxInv.send
        exact h.leave rfl rfl rfl
      · exact h.leave rfl rfl rfl
    · exact h
  have hfin : TxInv (rxFinWait1Fin env seg (rxFinWait1Ack env seg c)) := by
    unfold rxFinWait1Fin
    split
    · apply TxInv.send
      exact hack.leave rfl rfl rfl
    · exact hack
  exact hfin.rxFinWaitData

/-- Step in `FIN_WAIT_2`, likewise. -/
theorem TxInv.rxFinWait2 (h : TxInv c) : TxInv (rxFinWait2 env seg c) := by
  unfold Net.rxFinWait2 rxFinWait2Fin
  split
  · apply TxInv.send
    exact h.rxFinWaitData.leave rfl rfl rfl
  · exact h.rxFinWaitData

/-- Step: a segment for the connection, by its state. -/
theorem TxInv.rxConn (h : TxInv c) (hhalf : ¬seg.halfwayAck c) : TxInv (tcpRxConn env seg c) := by
  unfold tcpRxConn
  split
  · exact h.leave rfl rfl rfl
  rename_i hrst
  split
  case h_1 hst => exact h.rxSynSent hst
  case h_2 hst => exact h.rxSynReceived hst
  case h_3 hst => exact h.rxEstablished hst hrst hhalf
  case h_4 hst => exact h.rxFinWait1
  case h_5 hst => exact h.rxFinWait2
  case h_6 hst =>
    unfold rxClosing
    split
    · exact h.leave rfl rfl rfl
    · exact h
  case h_7 hst =>
    unfold rxLastAck
    split
    · exact h.free
    · exact h
  case h_8 hst =>
    unfold rxCloseWait
    split
    · -- `snd_una` moves, but nothing is retransmitted from it
      exact h.keep id id id rfl fun hr => by simp [hst, TcpState.resending] at hr
    · exact h
  case h_9 hst =>
    unfold rxTimeWait
    split
    · exact (h.send _ _).keep id id id rfl fun _ => rfl
    · exact h
  case h_10 => exact h
  case h_11 => exact h

/-! ## The timer and the socket layer -/

/-- The timer sends the unacknowledged bytes again, with their numbers. -/
theorem TxInv.timerData (h : TxInv c) (hst : c.state.resending) (hlen : 0 < c.txLen) :
    TxInv (tcpTimerData env c) := by
  unfold tcpTimerData
  split
  swap
  · exact h
  split
  · exact h.free
  · obtain ⟨una, hw⟩ := h.window hst
    have hbound := h.bound
    have hwlen := hw.len
    have hback : TxInv (tcpBackoff c) := h.keep id id id rfl fun _ => rfl
    refine hback.sendData fun k hk => ?_
    simp only [List.length_map, List.length_range] at hk
    have hk' : k < c.txLen := by
      revert hk
      show k < (if tcpMss < c.txLen then tcpMss else c.txLen) → _
      split <;> omega
    show c.stream[(c.sndUna - (c.iss + 1)).toNat + k]? = some _
    rw [hw.seq, toNat_seq_sub _ (by omega), hw.buf k hk', List.getElem_map, List.getElem_range]
    rfl

/-- Step: the timer. -/
theorem TxInv.timer (h : TxInv c) : TxInv (tcpTimerConn env c) := by
  unfold tcpTimerConn
  split
  · exact h
  split
  · exact h.free
  split
  · unfold tcpTimerSyn
    split
    · split
      · exact h.free
      · have hback : TxInv (tcpBackoff c) := h.keep id id id rfl fun _ => rfl
        simp only
        split <;> exact hback.send _ _
    · exact h
  split
  · rename_i hdata
    refine h.timerData ?_ hdata.2.1
    rcases hdata.1 with hst | hst <;> rw [hst] <;> rfl
  · exact h

theorem tcpSendChunkLen_le (c : TcpConn) (left : ℕ) (hlen : c.txLen ≤ tcpTxbufSize) :
    tcpSendChunkLen c left ≤ left ∧ c.txLen + tcpSendChunkLen c left ≤ tcpTxbufSize := by
  have hspace : wrap 16 ((tcpTxbufSize : ℤ) - c.txLen) = tcpTxbufSize - c.txLen :=
    wrap_of_lt (by omega) (by simp only [tcpTxbufSize] at *; omega)
  simp only [tcpSendChunkLen, hspace]
  split <;> split <;> omega

/-- A chunk copied while the connection is open is the next part of the stream. -/
theorem TxInv.chunk (h : TxInv c) {rest : List UInt8}
    (hst : c.state = .established ∨ c.state = .closeWait)
    (hbound : c.stream.length + tcpSendChunkLen c rest.length ≤ 2 ^ 32)
    (hpos : 0 < tcpSendChunkLen c rest.length) : TxInv (tcpSendChunk env rest c) := by
  obtain ⟨hle, hfit⟩ := tcpSendChunkLen_le c rest.length h.txLen_le
  have hnext := h.next (by rcases hst with hst | hst <;> rw [hst] <;> rfl)
  unfold tcpSendChunk
  generalize tcpSendChunkLen c rest.length = n at hle hfit hbound hpos
  have hlen : wrap 16 ((c.txLen : ℤ) + n) = c.txLen + n :=
    wrap_of_lt (by omega) (by simp only [tcpTxbufSize] at hfit; omega)
  have htake : (rest.take n).length = n := by simp [hle]
  -- The chunk goes to the end of the buffer and of the stream alike.
  have hrest : ∀ k < n, (rest.take n)[k]? = some (rest.getD k 0) := fun k hk => by
    rw [List.getElem?_take_of_lt hk, List.getD_eq_getElem?_getD,
      List.getElem?_eq_getElem (Nat.lt_of_lt_of_le hk hle), Option.getD_some]
  simp only [hlen, Nat.add_sub_cancel]
  refine ⟨hfit, ?_, fun o ho => ?_, fun ho => ?_, fun _ => ?_, fun hr => ?_⟩
  · show (c.stream ++ rest.take n).length ≤ 2 ^ 32
    rw [List.length_append, htake]
    exact hbound
  · rcases List.mem_append.mp ho with ho | ho
    · exact h.out o ho
    · rw [List.mem_singleton.mp ho]
      intro k hk
      simp only [List.length_map, List.length_range] at hk
      simp only [hnext, toNat_seq_sub c.iss (by omega : c.stream.length < 2 ^ 32), List.getElem_map,
        List.getElem_range]
      rw [List.getElem?_append_right (by omega), Nat.add_sub_cancel_left, hrest k hk,
        if_pos ⟨by omega, by omega⟩, Nat.add_sub_cancel_left]
  · rcases hst with hst | hst <;> simp [tcpSendSegment, hst, TcpState.opening] at ho
  · show c.sndNxt + _ = c.iss + 1 + BitVec.ofNat 32 (c.stream ++ rest.take n).length
    rw [List.length_append, htake, hnext, BitVec.ofNat_add, BitVec.add_assoc _ _ (BitVec.ofNat 32 n)]
  · obtain ⟨una, hw⟩ := h.window hr
    have hwlen := hw.len
    refine ⟨una, hw.seq, ?_, fun i hi => ?_⟩
    · show una + (c.txLen + n) = (c.stream ++ rest.take n).length
      rw [List.length_append, htake]
      omega
    · show (c.stream ++ rest.take n)[una + i]? = some (if _ then _ else _)
      have hi : i < c.txLen + n := hi
      -- The bytes that were in the buffer stay; those behind them are the chunk.
      by_cases hold : i < c.txLen
      · rw [List.getElem?_append_left (by omega), if_neg (by omega), hw.buf i hold]
      · rw [List.getElem?_append_right (by omega), if_pos ⟨by omega, hi⟩,
          show una + i - c.stream.length = i - c.txLen by omega, hrest _ (by omega)]

/-- Step: reading sends an acknowledgement without data. -/
theorem TxInv.recv (h : TxInv c) (len : ℕ) : TxInv (tcpRecvRead env len c).2 := by
  have hread : TxInv { (rxbufRead c len).2 with
      recvd := (rxbufRead c len).2.recvd ++ (rxbufRead c len).1 } := by
    rw [rxbufRead_same]
    exact h.keep id id id rfl fun _ => rfl
  unfold tcpRecvRead
  simp only
  split
  · exact hread.send _ _
  · exact hread

/-- Step: the FIN of `tcp_close` has no data. -/
theorem TxInv.close (h : TxInv c) : TxInv (tcpCloseSwitch env c) := by
  unfold tcpCloseSwitch
  split
  case h_1 hst =>
    -- `txbuf` is retransmitted in FIN_WAIT_1 too; `snd_nxt` no longer is the end of the stream
    have hout : ∀ o ∈ (tcpSendSegment env (tcpFin ||| tcpAck) c.sndNxt [] c).out, o.Faithful :=
      (h.send _ _).out
    refine ⟨h.txLen_le, h.bound, hout, fun ho => (by cases ho), fun hs => (by cases hs), fun _ => ?_⟩
    obtain ⟨una, hw⟩ := h.window (by rw [hst]; rfl)
    exact ⟨una, hw.seq, hw.len, hw.buf⟩
  case h_2 hst =>
    have hout : ∀ o ∈ (tcpSendSegment env (tcpFin ||| tcpAck) c.sndNxt [] c).out, o.Faithful :=
      (h.send _ _).out
    exact ⟨h.txLen_le, h.bound, hout, fun ho => (by cases ho), fun hs => (by cases hs),
      fun hr => (by cases hr)⟩
  case h_3 => exact h.free
  case h_4 => exact h.free
  case h_5 => exact h

/-- A new connection in state `st` has sent nothing. -/
theorem TxInv.alloc (h : TxInv c) {c' : TcpConn} (hres : c'.state.resending = false)
    (hnext : c'.sndNxt = c'.iss + 1 ∨ c'.state.sending = false)
    (hsame : c' = { c' with txLen := 0, stream := [], out := c.out }) : TxInv c' := by
  refine ⟨?_, ?_, ?_, fun _ => ?_, fun hs => ?_, fun hr => ?_⟩
  · rw [hsame]; exact Nat.zero_le _
  · rw [hsame]; exact Nat.zero_le _
  · rw [hsame]; exact h.out
  · rw [hsame]; exact ⟨rfl, rfl⟩
  · rcases hnext with hnext | hnext
    · rw [hnext, hsame]; simp
    · rw [hnext] at hs
      cases hs
  · rw [hres] at hr
    cases hr

end

/-- Every permitted change of a connection keeps the invariant. -/
theorem TxInv.act {s : TcpSys} {op : TcpOp} {i : Fin 16} {a : TcpAct} (hok : SendsOpen s op)
    (ha : TcpAct.Of s op i a) {env : TcpEnv} (h : TxInv (s.conns i)) :
    TxInv (a.run env (s.conns i)) := by
  cases ha with
  | rx hlen hfind => exact h.rxConn (hok i hfind)
  | rxSyn hfree =>
    apply TxInv.send
    exact h.alloc rfl (.inl rfl) rfl
  | timer => exact h.timer
  | ready => exact h.keep id id id rfl fun _ => rfl
  | @connect t dstIp dstPort arp i localIp localPort hfree =>
    have hopen : TxInv (tcpConnectOpen env localIp dstIp localPort dstPort (s.conns i)) :=
      h.alloc rfl (.inl rfl) rfl
    cases arp with
    | false => exact hopen
    | true => exact hopen.send _ _
  | syn => exact h.send _ _
  | listen => exact h.alloc rfl (.inr rfl) rfl
  | free => exact h.free
  | @chunk t arp i data sent hcall hsent hspace =>
    simp only [SendsOpen, hcall, TcpCall.OpenSend] at hok
    obtain ⟨hst, hbound⟩ := hok hsent hspace
    have hlen : (data.drop sent).length = data.length - sent := List.length_drop
    refine h.chunk hst (by rw [hlen]; exact hbound) ?_
    have : wrap 16 ((tcpTxbufSize : ℤ) - (s.conns i).txLen) = tcpTxbufSize - (s.conns i).txLen :=
      wrap_of_lt (by omega) (by simp only [tcpTxbufSize] at *; omega)
    simp only [tcpSendChunkLen, this, hlen, tcpMss]
    split <;> split <;> omega
  | recv => exact h.recv _
  | close => exact h.close

/-- In every run in which `tcp_send` copies only while its connection is open and no halfway
acknowledgement arrives, each segment transmits the bytes of the stream at its sequence number, and
`txbuf` does not overflow. -/
theorem tcp_transmits_stream {net : TcpNet} {ticks : BitVec 64} {ops : List TcpOp}
    (hops : Run.Admits (tcpStep net) SendsOpen (tcpInit ticks) ops) (i : Fin 16) :
    let c := (Run.run (tcpStep net) (tcpInit ticks) ops).conns i
    (∀ o ∈ c.out, o.Faithful) ∧ c.txLen ≤ tcpTxbufSize := by
  have hinit : ∀ i, TxInv ((tcpInit ticks).conns i) := fun i =>
    ⟨Nat.zero_le _, Nat.zero_le _, fun o ho => (by cases ho), fun ho => (by cases ho),
      fun hs => (by cases hs), fun hr => (by cases hr)⟩
  have hact : ∀ s op (i : Fin 16) a, SendsOpen s op → TcpAct.Of s op i a → TxInv (s.conns i) →
      TxInv (a.run (s.env net i) (s.conns i)) := fun _ _ _ _ hok ha h => h.act hok ha
  have h := @tcp_invariant net _ (fun _ => TxInv) hact _ _ hinit hops i
  exact ⟨h.out, h.txLen_le⟩

/-- A connection to port 80 of host 7, established when the clock shows 40000 ticks. -/
def connectRun : List TcpOp :=
  [.connect 0 7 80 true, .rx (plainSegment 0x0050C000 500 2560692346 (tcpSyn ||| tcpAck) []) 7 9,
    .resume 0 true]

/-- The byte "A" is sent, acknowledged by nobody, and resent after 200 ticks. -/
theorem tcp_transmits_stream_resend :
    let c := (Run.run (tcpStep ⟨9, fun _ _ => true⟩) (tcpInit 40000)
      (connectRun ++ [.send 0 0 [65], .resume 0 true, .resume 0 true] ++ List.replicate 200 .tick
        ++ [.timer])).conns 0
    c.out.length = 4 ∧ (∀ o ∈ c.out, o.Faithful) ∧ c.txLen ≤ tcpTxbufSize :=
  ⟨by decide +kernel, tcp_transmits_stream (by decide +kernel) 0⟩

/-- The peer acknowledges `snd_nxt + 2^31` while nothing is outstanding. The byte sent next is resent
with that sequence number, at which the stream has no byte. -/
theorem tcp_halfway_ack_resends_wrong :
    ¬∀ ops : List TcpOp, ∀ o ∈ ((Run.run (tcpStep ⟨9, fun _ _ => true⟩) (tcpInit 40000) ops).conns
      0).out, o.Faithful := by
  intro h
  have := h (connectRun ++ [.rx (plainSegment 0x0050C000 501 413208698 tcpAck []) 7 9,
    .send 0 0 [65], .resume 0 true] ++ List.replicate 200 .tick ++ [.timer])
  revert this
  decide +kernel

/-- `tcp_send` has passed its check when another thread closes the connection: the chunk follows the
FIN, one sequence number too late. -/
example : ¬∀ o ∈ ((Run.run (tcpStep ⟨9, fun _ _ => true⟩) (tcpInit 40000)
    (connectRun ++ [.send 0 0 [65], .close 1 0, .resume 0 true])).conns 0).out, o.Faithful := by
  decide +kernel

end PlantOS.Net
