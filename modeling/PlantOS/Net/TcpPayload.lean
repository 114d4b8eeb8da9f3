import PlantOS.Net.TcpReceive

/-!
# What `tcp_rx` copies

The payload of a segment starts behind a header whose length is taken from the segment, and its length is the
difference of `nb->len` and that header length in 16 bits. A header that claims to be longer than the segment
makes the difference wrap, and the ring is then filled from the memory behind the segment. The three states
that take data copy in the same way (`ring_tcpRxConn`), so one condition covers them.

Reference: `net/tcp.c`.
-/

namespace PlantOS.Net

open Word TcpSys

/-- The receive ring with its counters. -/
def TcpConn.ring (c : TcpConn) : (ℕ → UInt8) × ℕ × ℕ × ℕ := (c.rxbuf, c.rxHead, c.rxTail, c.rxCount)

/-- A ring after some first bytes of `data[hdr_len .. len)` have been copied to it. -/
def Netbuf.CopiedWithin (nb : Netbuf) (c c' : TcpConn) : Prop :=
  ∃ n ≤ nb.len - (tcpParse nb).hdrLen, c'.ring = (rxbufWrite c ((tcpParse nb).bytes n)).ring

/-- The state of the connection and the flags let it take the payload. -/
def TcpIn.accepted (seg : TcpIn) (c : TcpConn) : Bool :=
  !seg.has tcpRst && (seg.seq == c.rcvNxt && match c.state with
    | .established | .finWait2 => true
    | .finWait1 => !seg.has tcpFin
    | _ => false)

/-! ## The ring -/

section

variable {env : TcpEnv} {seg : TcpIn} {c : TcpConn}

theorem rxCount_rxbufWrite (hroom : c.rxCount ≤ tcpRxbufSize) (bs : List UInt8) :
    (rxbufWrite c bs).rxCount = min (c.rxCount + bs.length) tcpRxbufSize := by
  induction bs generalizing c with
  | nil => exact (Nat.min_eq_left hroom).symm
  | cons b bs ih =>
    rw [rxbufWrite, List.length_cons]
    split
    · rename_i hlt
      rw [ih (by exact hlt)]
      simp only
      omega
    · show c.rxCount = _
      omega

/-- What is written to a ring depends on nothing else of the connection. -/
theorem ring_rxbufWrite {c d : TcpConn} (h : c.ring = d.ring) (bs : List UInt8) :
    (rxbufWrite c bs).ring = (rxbufWrite d bs).ring := by
  induction bs generalizing c d with
  | nil => exact h
  | cons b bs ih =>
    simp only [TcpConn.ring, Prod.mk.injEq] at h
    obtain ⟨hbuf, hhead, htail, hcount⟩ := h
    rw [rxbufWrite, rxbufWrite, hcount]
    split
    · exact ih (by simp only [TcpConn.ring, hbuf, hhead, htail])
    · simp only [TcpConn.ring, hbuf, hhead, htail, hcount]

/-- A full ring takes nothing. -/
theorem rxbufWrite_full (hfull : ¬c.rxCount < tcpRxbufSize) (bs : List UInt8) : rxbufWrite c bs = c := by
  cases bs with
  | nil => rfl
  | cons b bs => rw [rxbufWrite, if_neg hfull]

theorem ring_tcpAcceptData (seg : TcpIn) (c : TcpConn) :
    (tcpAcceptData seg c).ring = (rxbufWrite c (seg.bytes (tcpAcceptLen seg c))).ring := by
  by_cases hn : 0 < tcpAcceptLen seg c
  · rw [tcpAcceptData, if_pos hn]
    rfl
  · rw [tcpAcceptData, if_neg hn, Nat.eq_zero_of_not_pos hn]
    rfl

/-- Nothing is taken of an empty payload. -/
theorem tcpAcceptLen_of_empty (h : ¬0 < seg.payloadLen) (c : TcpConn) : tcpAcceptLen seg c = 0 := by
  have hle := (tcpAcceptLen_le seg c).1
  omega

/-- The copying code of the three states. -/
theorem ring_rxFinWaitData (seg : TcpIn) (c : TcpConn) : (rxFinWaitData seg c).ring =
    if seg.seq = c.rcvNxt then (rxbufWrite c (seg.bytes (tcpAcceptLen seg c))).ring else c.ring := by
  by_cases hseq : seg.seq = c.rcvNxt
  · rw [if_pos hseq, rxFinWaitData]
    by_cases hpos : 0 < seg.payloadLen
    · rw [if_pos (by simp [TcpIn.inOrder, hpos, hseq]), ring_tcpAcceptData]
    · rw [if_neg (by simp [TcpIn.inOrder, hpos]), tcpAcceptLen_of_empty hpos]
      rfl
  · rw [if_neg hseq, rxFinWaitData, if_neg (by simp [TcpIn.inOrder, hseq])]

theorem ring_rxEstablishedData (env : TcpEnv) (seg : TcpIn) (c : TcpConn) :
    (rxEstablishedData env seg c).ring = (rxFinWaitData seg c).ring := by
  rw [rxEstablishedData, rxFinWaitData]
  split <;> rfl

/-- Before it copies, a state may have changed what is not in the ring. -/
theorem ring_rxFinWaitData_of_same {d : TcpConn} (hring : d.ring = c.ring) (hnext : d.rcvNxt = c.rcvNxt) :
    (rxFinWaitData seg d).ring = (rxFinWaitData seg c).ring := by
  have hcount : d.rxCount = c.rxCount := congrArg (·.2.2.2) hring
  have hlen : tcpAcceptLen seg d = tcpAcceptLen seg c := by
    rw [tcpAcceptLen, tcpAcceptLen, rxbufFree, rxbufFree, hcount]
  rw [ring_rxFinWaitData, ring_rxFinWaitData, hnext, hring, hlen, ring_rxbufWrite hring]

theorem ring_rxEstablished (env : TcpEnv) (seg : TcpIn) (c : TcpConn) :
    (rxEstablished env seg c).ring = (rxFinWaitData seg c).ring := by
  have hfin : ∀ d, (rxEstablishedFin env seg d).ring = d.ring := fun d => by
    rw [rxEstablishedFin]
    split <;> rfl
  rw [rxEstablished, hfin, ring_rxEstablishedData]
  refine ring_rxFinWaitData_of_same ?_ ?_
  · rw [rxEstablishedAck_same]
    rfl
  · rw [rxEstablishedAck_same]

theorem ring_rxFinWait2 (env : TcpEnv) (seg : TcpIn) (c : TcpConn) :
    (rxFinWait2 env seg c).ring = (rxFinWaitData seg c).ring := by
  rw [rxFinWait2, rxFinWait2Fin]
  split <;> rfl

/-- A FIN moves `rcv_nxt` past the payload before `FIN_WAIT_1` looks at it. -/
theorem ring_rxFinWait1 (hlen : seg.payloadLen < 2 ^ 16) (hst : c.state = .finWait1) (env : TcpEnv) :
    (rxFinWait1 env seg c).ring = if seg.has tcpFin then c.ring else (rxFinWaitData seg c).ring := by
  rw [rxFinWait1]
  by_cases hfin : seg.has tcpFin
  · have hafter : ∃ d : TcpConn, rxFinWait1Fin env seg (rxFinWait1Ack env seg c) = d ∧ d.ring = c.ring ∧
        d.rcvNxt = seg.afterFin := by
      refine ⟨_, rfl, ?_⟩
      by_cases hack : seg.has tcpAck ∧ seg.ack = c.sndNxt
      · rw [rxFinWait1Ack, if_pos hack, if_pos hfin, rxFinWait1Fin, if_neg (fun h => by cases h.1)]
        exact ⟨rfl, rfl⟩
      · rw [rxFinWait1Ack, if_neg hack, rxFinWait1Fin, if_pos ⟨hst, hfin⟩]
        exact ⟨rfl, rfl⟩
    obtain ⟨d, hd, hring, hnext⟩ := hafter
    rw [hd, if_pos hfin, rxFinWaitData, not_inOrder_afterFin hlen hnext, if_neg Bool.false_ne_true, hring]
  · rw [if_neg hfin, rxFinWait1Fin, if_neg (fun h => hfin h.2)]
    have hsame : (rxFinWait1Ack env seg c).ring = c.ring ∧ (rxFinWait1Ack env seg c).rcvNxt = c.rcvNxt := by
      by_cases hack : seg.has tcpAck ∧ seg.ack = c.sndNxt
      · rw [rxFinWait1Ack, if_pos hack, if_neg hfin]
        exact ⟨rfl, rfl⟩
      · rw [rxFinWait1Ack, if_neg hack]
        exact ⟨rfl, rfl⟩
    exact ring_rxFinWaitData_of_same hsame.1 hsame.2

/-- The ring after `tcp_rx`: a segment that is accepted is copied as far as there is room, and nothing else
touches the ring. -/
theorem ring_tcpRxConn (hlen : seg.payloadLen < 2 ^ 16) (env : TcpEnv) (c : TcpConn) :
    (tcpRxConn env seg c).ring =
      if seg.accepted c then (rxbufWrite c (seg.bytes (tcpAcceptLen seg c))).ring else c.ring := by
  by_cases hrst : seg.has tcpRst
  · rw [tcpRxConn, if_pos hrst, if_neg (by simp [TcpIn.accepted, hrst])]
    rfl
  rw [tcpRxConn, if_neg hrst]
  cases hst : c.state
  case established => simp [TcpIn.accepted, hrst, hst, ring_rxEstablished, ring_rxFinWaitData]
  case finWait2 => simp [TcpIn.accepted, hrst, hst, ring_rxFinWait2, ring_rxFinWaitData]
  case finWait1 =>
    simp only [ring_rxFinWait1 hlen hst, ring_rxFinWaitData]
    by_cases hfin : seg.has tcpFin <;> simp [TcpIn.accepted, hrst, hst, hfin]
  all_goals
    rw [if_neg (by simp [TcpIn.accepted, hst])]
  case synSent =>
    simp only [rxSynSent]
    split
    · split <;> rfl
    · split <;> rfl
  case synReceived =>
    simp only [rxSynReceived]
    split <;> rfl
  case closing =>
    simp only [rxClosing]
    split <;> rfl
  case lastAck =>
    simp only [rxLastAck]
    split <;> rfl
  case closeWait =>
    simp only [rxCloseWait]
    split <;> rfl
  case timeWait =>
    simp only [rxTimeWait]
    split <;> rfl

end

/-! ## Segments -/

/-- The length in 16 bits is that of the rest of the segment, if the header is not longer than it. -/
theorem payloadLen_tcpParse_le {nb : Netbuf} (h : (tcpParse nb).hdrLen ≤ nb.len) :
    (tcpParse nb).payloadLen ≤ nb.len - (tcpParse nb).hdrLen :=
  wrap_le (by simp only [tcpParse] at *; omega)

/-- A header that is longer than the segment makes the length wrap. -/
theorem payloadLen_tcpParse_pos {nb : Netbuf} (hlen : 20 ≤ nb.len) (h : nb.len < (tcpParse nb).hdrLen) :
    0 < (tcpParse nb).payloadLen := by
  have hbyte := (nb.byte 12).toNat_lt
  simp only [tcpParse, wrap] at *
  omega

theorem tcpAcceptLen_pos {seg : TcpIn} {c : TcpConn} (hroom : c.rxCount < tcpRxbufSize)
    (hpos : 0 < seg.payloadLen) : 0 < tcpAcceptLen seg c := by
  have hfree : rxbufFree c = tcpRxbufSize - c.rxCount :=
    wrap_of_lt (by omega) (by simp only [tcpRxbufSize] at *; omega)
  rw [tcpAcceptLen, hfree]
  split <;> omega

/-- A header that is longer than the segment leaves no payload, yet the ring grows. -/
theorem rxCount_lt_tcpRxConn {nb : Netbuf} {c : TcpConn} (hlen : 20 ≤ nb.len)
    (hhdr : nb.len < (tcpParse nb).hdrLen) (hacc : (tcpParse nb).accepted c)
    (hroom : c.rxCount < tcpRxbufSize) (env : TcpEnv) : c.rxCount < (tcpRxConn env (tcpParse nb) c).rxCount := by
  have hring : (tcpRxConn env (tcpParse nb) c).ring =
      (rxbufWrite c ((tcpParse nb).bytes (tcpAcceptLen (tcpParse nb) c))).ring := by
    rw [ring_tcpRxConn (wrap_lt 16 _), if_pos hacc]
  have hcount : (tcpRxConn env (tcpParse nb) c).rxCount =
      (rxbufWrite c ((tcpParse nb).bytes (tcpAcceptLen (tcpParse nb) c))).rxCount := congrArg (·.2.2.2) hring
  have hpos := tcpAcceptLen_pos hroom (payloadLen_tcpParse_pos hlen hhdr)
  rw [hcount, rxCount_rxbufWrite (Nat.le_of_lt hroom), TcpIn.bytes, List.length_map, List.length_range]
  omega

/-- The copy of a connection stays in the segment if the header does, or nothing is copied. -/
theorem copiedWithin_tcpRxConn {nb : Netbuf} {c : TcpConn} (h : (tcpParse nb).hdrLen ≤ nb.len ∨
    ¬(tcpParse nb).accepted c ∨ tcpRxbufSize ≤ c.rxCount) (env : TcpEnv) :
    nb.CopiedWithin c (tcpRxConn env (tcpParse nb) c) := by
  rw [Netbuf.CopiedWithin, ring_tcpRxConn (wrap_lt 16 _)]
  by_cases hacc : (tcpParse nb).accepted c
  · rw [if_pos hacc]
    rcases h with hhdr | hnot | hfull
    · exact ⟨_, (tcpAcceptLen_le _ c).1.trans (payloadLen_tcpParse_le hhdr), rfl⟩
    · exact absurd hacc hnot
    · refine ⟨0, Nat.zero_le _, ?_⟩
      rw [rxbufWrite_full (Nat.not_lt.2 hfull)]
      rfl
  · exact ⟨0, Nat.zero_le _, if_neg hacc⟩

/-- A segment of a known connection changes its slot only. -/
theorem tcpRx_of_find {net : TcpNet} {s : TcpSys} {nb : Netbuf} {srcIp : BitVec 32} {idx : Fin 16}
    (hlen : 20 ≤ nb.len) (hfind : s.findConn (tcpParse nb).dstPort srcIp (tcpParse nb).srcPort = some idx)
    (dstIp : BitVec 32) : tcpRx net s nb srcIp dstIp =
      s.upd idx (tcpRxConn (s.env net idx) (tcpParse nb) (s.conns idx)) := by
  simp only [tcpRx, if_neg (Nat.not_lt.2 hlen), hfind]

/-- A connection that accepts a segment with too long a header copies what is not in the segment. -/
theorem not_copiedWithin_tcpRx {net : TcpNet} {s : TcpSys} {nb : Netbuf} {srcIp : BitVec 32} {idx : Fin 16}
    (hlen : 20 ≤ nb.len) (hfind : s.findConn (tcpParse nb).dstPort srcIp (tcpParse nb).srcPort = some idx)
    (hhdr : nb.len < (tcpParse nb).hdrLen) (hacc : (tcpParse nb).accepted (s.conns idx))
    (hroom : (s.conns idx).rxCount < tcpRxbufSize) (dstIp : BitVec 32) :
    ¬(nb.CopiedWithin (s.conns idx) ((tcpRx net s nb srcIp dstIp).conns idx) ∨
      ((tcpRx net s nb srcIp dstIp).conns idx).ring = (allocConn (s.conns idx)).ring) := by
  have hgrows := rxCount_lt_tcpRxConn hlen hhdr hacc hroom (s.env net idx)
  rw [tcpRx_of_find hlen hfind, upd_conns, Function.update_self]
  rintro (⟨n, hn, hring⟩ | hempty)
  · obtain rfl : n = 0 := by omega
    exact absurd (congrArg (·.2.2.2) hring) (Nat.ne_of_gt hgrows)
  · exact absurd (congrArg (·.2.2.2) hempty) (Nat.ne_of_gt (Nat.zero_lt_of_lt hgrows))

/-- A segment for no connection reaches no ring, and a connection that it opens has an empty one. -/
theorem ring_tcpRx_of_none {s : TcpSys} {nb : Netbuf} {srcIp : BitVec 32}
    (hnone : nb.len < 20 ∨ s.findConn (tcpParse nb).dstPort srcIp (tcpParse nb).srcPort = none)
    (net : TcpNet) (dstIp : BitVec 32) (i : Fin 16) :
    ((tcpRx net s nb srcIp dstIp).conns i).ring = (s.conns i).ring ∨
      ((tcpRx net s nb srcIp dstIp).conns i).ring = (allocConn (s.conns i)).ring := by
  rcases tcpRx_conns net s nb srcIp dstIp with hsame | ⟨idx, hlen, hfind, -⟩ |
    ⟨li, idx, -, -, -, -, -, -, heq⟩
  · exact .inl (by rw [hsame])
  · rcases hnone with hshort | hnone
    · omega
    · rw [hfind] at hnone
      cases hnone
  · rw [heq]
    by_cases hli : i = li
    · subst hli
      exact .inl (by rw [Function.update_self]; rfl)
    · rw [Function.update_of_ne hli]
      by_cases hidx : i = idx
      · subst hidx
        exact .inr (by rw [Function.update_self]; rfl)
      · exact .inl (by rw [Function.update_of_ne hidx])

/-- TCP reads only the segment it was given, exactly if the header is not longer than the segment or no
connection copies from it. A new connection starts with an empty ring. -/
theorem tcpRx_copies_within (net : TcpNet) (s : TcpSys) (nb : Netbuf) (srcIp dstIp : BitVec 32) :
    (∀ i, nb.CopiedWithin (s.conns i) ((tcpRx net s nb srcIp dstIp).conns i) ∨
      ((tcpRx net s nb srcIp dstIp).conns i).ring = (allocConn (s.conns i)).ring) ↔
    nb.len < 20 ∨ (tcpParse nb).hdrLen ≤ nb.len ∨
      ∀ i, s.findConn (tcpParse nb).dstPort srcIp (tcpParse nb).srcPort = some i →
        ¬(tcpParse nb).accepted (s.conns i) ∨ tcpRxbufSize ≤ (s.conns i).rxCount := by
  have hquiet (i) (h : ((tcpRx net s nb srcIp dstIp).conns i).ring = (s.conns i).ring) :
      nb.CopiedWithin (s.conns i) ((tcpRx net s nb srcIp dstIp).conns i) := ⟨0, Nat.zero_le _, h⟩
  by_cases hshort : nb.len < 20
  · exact iff_of_true (fun i => (ring_tcpRx_of_none (.inl hshort) net dstIp i).imp_left (hquiet i))
      (.inl hshort)
  cases hfind : s.findConn (tcpParse nb).dstPort srcIp (tcpParse nb).srcPort with
  | none =>
    exact iff_of_true (fun i => (ring_tcpRx_of_none (.inr hfind) net dstIp i).imp_left (hquiet i))
      (.inr (.inr fun i h => by cases h))
  | some idx =>
    have hlen : 20 ≤ nb.len := Nat.le_of_not_lt hshort
    constructor
    · intro h
      refine .inr (or_iff_not_imp_left.2 fun hhdr i hi => ?_)
      obtain rfl := Option.some.inj hi
      by_contra hnot
      simp only [not_or, not_not, not_le] at hnot
      exact not_copiedWithin_tcpRx hlen hfind (Nat.lt_of_not_le hhdr) hnot.1 hnot.2 dstIp (h idx)
    · intro h i
      rw [tcpRx_of_find hlen hfind]
      refine .inl ?_
      by_cases hi : i = idx
      · subst hi
        rw [upd_conns, Function.update_self]
        exact copiedWithin_tcpRxConn ((h.resolve_left hshort).imp_right fun hnot => hnot i rfl) _
      · rw [upd_conns, Function.update_of_ne hi]
        exact ⟨0, Nat.zero_le _, rfl⟩

/-- An established connection gets a segment of 20 bytes whose header claims to have 24: the memory behind the
segment is taken for its payload. -/
theorem tcpRx_copies_past_segment :
    ¬∀ (ops : List TcpOp) (nb : Netbuf) (srcIp dstIp : BitVec 32) (i : Fin 16),
      let s := Run.run (tcpStep ⟨9, fun _ _ => true⟩) (tcpInit 0) ops
      let s' := tcpRx ⟨9, fun _ _ => true⟩ s nb srcIp dstIp
      nb.CopiedWithin (s.conns i) (s'.conns i) ∨ (s'.conns i).ring = (allocConn (s.conns i)).ring := by
  intro h
  let plain := plainSegment 0x04000050 101 12346 tcpAck []
  refine not_copiedWithin_tcpRx ?_ ?_ ?_ ?_ ?_ 9 (h [.listen 0 80,
    .rx (plainSegment 0x04000050 100 0 tcpSyn []) 7 9, .rx plain 7 9]
    { plain with raw := Function.update plain.raw 12 0x60 } 7 9 1)
  all_goals decide +kernel

end PlantOS.Net
