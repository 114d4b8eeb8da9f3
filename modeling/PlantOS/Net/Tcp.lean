import PlantOS.Net.Netbuf

/-!
# TCP connections

Model of what `net/tcp.c` does to one transmission control block. Sequence numbers are 32-bit words; the
16-bit indices and lengths are naturals, wrapped where the code's arithmetic could wrap.

A connection also carries a history that the code does not have: which bytes `tcp_recv` returned, which
bytes `tcp_send` copied into `txbuf`, and every segment handed to `tcp_send_segment`. No branch reads it.

Reference: `net/tcp.c`, `net/tcp.h`.
-/

namespace PlantOS.Net

open Word

/-- `enum tcp_state`. -/
inductive TcpState where
  | closed | listen | synSent | synReceived | established | finWait1 | finWait2 | closeWait
  | closing | lastAck | timeWait
deriving DecidableEq

/-- `TCP_FIN`. -/
def tcpFin : BitVec 8 := 0x01
/-- `TCP_SYN`. -/
def tcpSyn : BitVec 8 := 0x02
/-- `TCP_RST`. -/
def tcpRst : BitVec 8 := 0x04
/-- `TCP_PSH`. -/
def tcpPsh : BitVec 8 := 0x08
/-- `TCP_ACK`. -/
def tcpAck : BitVec 8 := 0x10

/-- `TCP_RXBUF_SIZE`. -/
def tcpRxbufSize : ℕ := 8192
/-- `TCP_TXBUF_SIZE`. -/
def tcpTxbufSize : ℕ := 8192
/-- `TCP_RTO_INIT`. -/
def tcpRtoInit : BitVec 32 := 200
/-- `TCP_RTO_MAX`. -/
def tcpRtoMax : BitVec 32 := 600
/-- `TCP_MAX_RETRIES`. -/
def tcpMaxRetries : ℕ := 5
/-- The MSS literal of `tcp_send` and `tcp_timer`. -/
def tcpMss : ℕ := 1460

/-- A segment as `tcp_send_segment` builds it, with the connection's `iss` and the bytes `tcp_send` had
copied into `txbuf` by then. -/
structure TcpOut where
  remoteIp : BitVec 32
  srcPort : BitVec 16
  dstPort : BitVec 16
  seq : BitVec 32
  ack : BitVec 32
  flags : BitVec 8
  window : ℕ
  payload : List UInt8
  iss : BitVec 32
  stream : List UInt8
deriving DecidableEq

/-- `struct tcp_conn`, followed by the history. -/
structure TcpConn where
  used : Bool
  state : TcpState
  localIp : BitVec 32
  localPort : BitVec 16
  remoteIp : BitVec 32
  remotePort : BitVec 16
  sndUna : BitVec 32
  sndNxt : BitVec 32
  sndWnd : BitVec 32
  iss : BitVec 32
  rcvNxt : BitVec 32
  rcvWnd : BitVec 32
  irs : BitVec 32
  rxbuf : ℕ → UInt8
  rxHead : ℕ
  rxTail : ℕ
  rxCount : ℕ
  txbuf : ℕ → UInt8
  txLen : ℕ
  txSeq : BitVec 32
  rto : BitVec 32
  retxTime : BitVec 32
  retxCount : ℕ
  established : Bool
  closed : Bool
  dataReady : Bool
  rxFin : Bool
  twExpiry : BitVec 32
  /-- How often the slot has been allocated. -/
  gen : ℕ
  /-- The bytes `tcp_recv` has returned since then. -/
  recvd : List UInt8
  /-- The bytes `tcp_send` has copied into `txbuf` since then. -/
  stream : List UInt8
  /-- All segments handed to `tcp_send_segment` on this slot. -/
  out : List TcpOut

/-- `memset(c, 0, sizeof(struct tcp_conn))`; the history of a new connection starts. -/
def TcpConn.cleared (c : TcpConn) : TcpConn :=
  { used := false, state := .closed, localIp := 0, localPort := 0, remoteIp := 0, remotePort := 0,
    sndUna := 0, sndNxt := 0, sndWnd := 0, iss := 0, rcvNxt := 0, rcvWnd := 0, irs := 0,
    rxbuf := fun _ => 0, rxHead := 0, rxTail := 0, rxCount := 0, txbuf := fun _ => 0, txLen := 0,
    txSeq := 0, rto := 0, retxTime := 0, retxCount := 0, established := false, closed := false,
    dataReady := false, rxFin := false, twExpiry := 0,
    gen := c.gen + 1, recvd := [], stream := [], out := c.out }

/-- What a connection sees of the rest of the kernel: the clock, and which of its segments get a netbuf. -/
structure TcpEnv where
  ticks : BitVec 64
  netbufOk : ℕ → Bool

/-- `(uint32_t)pit_get_ticks()`. -/
def TcpEnv.now (env : TcpEnv) : BitVec 32 := env.ticks.setWidth 32

/-- The fields `tcp_rx` reads from an incoming segment. `payload` is the memory from the end of the
header on. -/
structure TcpIn where
  srcPort : BitVec 16
  dstPort : BitVec 16
  seq : BitVec 32
  ack : BitVec 32
  flags : BitVec 8
  window : BitVec 16
  hdrLen : ℕ
  payloadLen : ℕ
  payload : ℕ → UInt8

/-- The head of `tcp_rx`: read the header. -/
def tcpParse (nb : Netbuf) : TcpIn :=
  let hdrLen := (nb.byte 12).toNat / 16 * 4
  { srcPort := nb.be16 0, dstPort := nb.be16 2, seq := nb.be32 4, ack := nb.be32 8,
    flags := (nb.byte 13).toBitVec, window := nb.be16 14, hdrLen := hdrLen,
    payloadLen := wrap 16 (nb.len - hdrLen), payload := fun i => nb.byte (hdrLen + i) }

/-- The bytes of a word, most significant first. -/
def be32Bytes (x : BitVec 32) : List UInt8 :=
  [24, 16, 8, 0].map fun k => ⟨x.extractLsb' k 8⟩

/-- A received segment without options. -/
def plainSegment (ports seq ack : BitVec 32) (flags : BitVec 8) (payload : List UInt8) : Netbuf :=
  let bytes := be32Bytes ports ++ be32Bytes seq ++ be32Bytes ack ++ [0x50, ⟨flags⟩, 0, 0, 0, 0, 0, 0]
    ++ payload
  { raw := fun i => bytes.getD i 0, data := 0, len := bytes.length }

/-- `flags & mask` as a condition. -/
def TcpIn.has (seg : TcpIn) (mask : BitVec 8) : Bool := seg.flags &&& mask != 0

/-- The first `n` payload bytes. -/
def TcpIn.bytes (seg : TcpIn) (n : ℕ) : List UInt8 := (List.range n).map seg.payload

/-! ## Helpers -/

/-- `tcp_gen_iss`. -/
def tcpGenIss (env : TcpEnv) : BitVec 32 := (env.ticks * 64017 + 12345).setWidth 32

/-- `alloc_conn`, for the slot it has found. -/
def allocConn (c : TcpConn) : TcpConn :=
  { c.cleared with used := true, rto := tcpRtoInit, rcvWnd := 8192 }

/-- `free_conn`. -/
def freeConn (c : TcpConn) : TcpConn := { c with used := false, state := .closed, closed := true }

/-- `seq_lt`. -/
def seqLt (a b : BitVec 32) : Bool := (a - b).toInt < 0

/-- `seq_le`. -/
def seqLe (a b : BitVec 32) : Bool := (a - b).toInt ≤ 0

/-- `rxbuf_free`. -/
def rxbufFree (c : TcpConn) : ℕ := wrap 16 (tcpRxbufSize - c.rxCount)

/-- `rxbuf_write`. -/
def rxbufWrite (c : TcpConn) : List UInt8 → TcpConn
  | [] => c
  | b :: bs =>
    if c.rxCount < tcpRxbufSize then
      rxbufWrite { c with rxbuf := Function.update c.rxbuf c.rxHead b
                          rxHead := (c.rxHead + 1) % tcpRxbufSize
                          rxCount := c.rxCount + 1 } bs
    else c

/-- `rxbuf_read`: the bytes stored in `buf`. -/
def rxbufRead (c : TcpConn) : ℕ → List UInt8 × TcpConn
  | 0 => ([], c)
  | len + 1 =>
    if 0 < c.rxCount then
      let r := rxbufRead { c with rxTail := (c.rxTail + 1) % tcpRxbufSize
                                  rxCount := c.rxCount - 1 } len
      (c.rxbuf c.rxTail :: r.1, r.2)
    else ([], c)

/-- `tcp_send_segment`. The send time is recorded if the netbuf takes header and payload; whether
`ipv4_tx` then succeeds changes nothing here. -/
def tcpSendSegment (env : TcpEnv) (flags : BitVec 8) (seq : BitVec 32) (data : List UInt8)
    (c : TcpConn) : TcpConn :=
  let out : TcpOut :=
    { remoteIp := c.remoteIp, srcPort := c.localPort, dstPort := c.remotePort, seq := seq,
      ack := c.rcvNxt, flags := flags, window := rxbufFree c, payload := data, iss := c.iss,
      stream := c.stream }
  let nb := if env.netbufOk c.out.length then
      (netbufPut netbufAlloc data.length).bind fun nb => netbufPush nb 20
    else none
  { c with out := c.out ++ [out], retxTime := if nb.isSome then env.now else c.retxTime }

/-! The ring operations touch the ring only. -/

theorem rxbufWrite_same (c : TcpConn) (bs : List UInt8) :
    rxbufWrite c bs = { c with rxbuf := (rxbufWrite c bs).rxbuf, rxHead := (rxbufWrite c bs).rxHead,
                               rxCount := (rxbufWrite c bs).rxCount } := by
  induction bs generalizing c with
  | nil => rfl
  | cons b bs ih =>
    simp only [rxbufWrite]
    split
    · exact ih _
    · rfl

theorem rxbufRead_same (c : TcpConn) (len : ℕ) :
    (rxbufRead c len).2 = { c with rxTail := (rxbufRead c len).2.rxTail,
                                   rxCount := (rxbufRead c len).2.rxCount } := by
  induction len generalizing c with
  | zero => rfl
  | succ len ih =>
    simp only [rxbufRead]
    split
    · exact ih _
    · rfl

/-! ## `tcp_rx` on an existing connection -/

/-- The guard `payload_len > 0 && seq == c->rcv_nxt`. -/
def TcpIn.inOrder (seg : TcpIn) (c : TcpConn) : Bool := 0 < seg.payloadLen ∧ seg.seq = c.rcvNxt

/-- How much of a payload is taken: `payload_len < space ? payload_len : space`. -/
def tcpAcceptLen (seg : TcpIn) (c : TcpConn) : ℕ :=
  if seg.payloadLen < rxbufFree c then seg.payloadLen else rxbufFree c

theorem tcpAcceptLen_le (seg : TcpIn) (c : TcpConn) :
    tcpAcceptLen seg c ≤ seg.payloadLen ∧ tcpAcceptLen seg c ≤ rxbufFree c := by
  rw [tcpAcceptLen]
  split <;> omega

/-- Take as much of an in-order payload as fits; the same code in three states. -/
def tcpAcceptData (seg : TcpIn) (c : TcpConn) : TcpConn :=
  let accept := tcpAcceptLen seg c
  if 0 < accept then
    let c := rxbufWrite c (seg.bytes accept)
    { c with rcvNxt := c.rcvNxt + BitVec.ofNat 32 accept, dataReady := true }
  else c

theorem tcpAcceptData_same (seg : TcpIn) (c : TcpConn) :
    tcpAcceptData seg c = { c with
      rxbuf := (tcpAcceptData seg c).rxbuf, rxHead := (tcpAcceptData seg c).rxHead,
      rxCount := (tcpAcceptData seg c).rxCount, rcvNxt := (tcpAcceptData seg c).rcvNxt,
      dataReady := (tcpAcceptData seg c).dataReady } := by
  by_cases hn : 0 < tcpAcceptLen seg c
  · rw [tcpAcceptData, if_pos hn, rxbufWrite_same]
  · rw [tcpAcceptData, if_neg hn]

/-- The sequence number behind a FIN: `seq + payload_len + 1`. -/
def TcpIn.afterFin (seg : TcpIn) : BitVec 32 := seg.seq + BitVec.ofNat 32 seg.payloadLen + 1

def rxSynSent (env : TcpEnv) (seg : TcpIn) (c : TcpConn) : TcpConn :=
  if seg.flags &&& (tcpSyn ||| tcpAck) = tcpSyn ||| tcpAck then
    if seg.ack = c.sndNxt then
      let c := { c with irs := seg.seq, rcvNxt := seg.seq + 1, sndUna := seg.ack,
                        sndWnd := seg.window.setWidth 32, state := .established,
                        established := true, retxCount := 0 }
      tcpSendSegment env tcpAck c.sndNxt [] c
    else c
  else if seg.has tcpSyn then
    -- simultaneous open
    let c := { c with irs := seg.seq, rcvNxt := seg.seq + 1, state := .synReceived }
    tcpSendSegment env (tcpSyn ||| tcpAck) c.iss [] c
  else c

def rxSynReceived (seg : TcpIn) (c : TcpConn) : TcpConn :=
  if seg.has tcpAck ∧ seg.ack = c.sndNxt then
    { c with sndUna := seg.ack, sndWnd := seg.window.setWidth 32, state := .established,
             established := true, retxCount := 0 }
  else c

/-- ACK processing in `ESTABLISHED`. -/
def rxEstablishedAck (seg : TcpIn) (c : TcpConn) : TcpConn :=
  if seg.has tcpAck ∧ seqLt c.sndUna seg.ack ∧ seqLe seg.ack c.sndNxt then
    let acked := seg.ack - c.sndUna
    let c := { c with sndUna := seg.ack, sndWnd := seg.window.setWidth 32, retxCount := 0,
                      rto := tcpRtoInit }
    if 0 < acked ∧ acked.toNat ≤ c.txLen then
      { c with txbuf := fun i => if i < c.txLen - acked.toNat then c.txbuf (i + acked.toNat)
                                 else c.txbuf i
               txLen := wrap 16 (c.txLen - wrap 16 acked.toNat)
               txSeq := c.txSeq + acked }
    else if 0 < acked then { c with txLen := 0 }
    else c
  else c

theorem rxEstablishedAck_same (seg : TcpIn) (c : TcpConn) :
    rxEstablishedAck seg c = { c with
      sndUna := (rxEstablishedAck seg c).sndUna, sndWnd := (rxEstablishedAck seg c).sndWnd,
      retxCount := (rxEstablishedAck seg c).retxCount, rto := (rxEstablishedAck seg c).rto,
      txbuf := (rxEstablishedAck seg c).txbuf, txLen := (rxEstablishedAck seg c).txLen,
      txSeq := (rxEstablishedAck seg c).txSeq } := by
  unfold rxEstablishedAck
  split
  · simp only
    split
    · rfl
    · split <;> rfl
  · rfl

/-- Incoming data in `ESTABLISHED`, acknowledged even if nothing fits. -/
def rxEstablishedData (env : TcpEnv) (seg : TcpIn) (c : TcpConn) : TcpConn :=
  if seg.inOrder c then
    let c := tcpAcceptData seg c
    tcpSendSegment env tcpAck c.sndNxt [] c
  else c

/-- FIN in `ESTABLISHED`. -/
def rxEstablishedFin (env : TcpEnv) (seg : TcpIn) (c : TcpConn) : TcpConn :=
  if seg.has tcpFin then
    let c := { c with rcvNxt := seg.afterFin, state := .closeWait, rxFin := true, dataReady := true }
    tcpSendSegment env tcpAck c.sndNxt [] c
  else c

def rxEstablished (env : TcpEnv) (seg : TcpIn) (c : TcpConn) : TcpConn :=
  rxEstablishedFin env seg (rxEstablishedData env seg (rxEstablishedAck seg c))

/-- Incoming data in `FIN_WAIT_1` and `FIN_WAIT_2`, not acknowledged. -/
def rxFinWaitData (seg : TcpIn) (c : TcpConn) : TcpConn :=
  if seg.inOrder c then tcpAcceptData seg c else c

/-- The ACK of our FIN in `FIN_WAIT_1`, with or without the peer's FIN. -/
def rxFinWait1Ack (env : TcpEnv) (seg : TcpIn) (c : TcpConn) : TcpConn :=
  if seg.has tcpAck ∧ seg.ack = c.sndNxt then
    let c := { c with sndUna := seg.ack }
    if seg.has tcpFin then
      let c := { c with rcvNxt := seg.afterFin, state := .timeWait, twExpiry := env.now + 400 }
      tcpSendSegment env tcpAck c.sndNxt [] c
    else { c with state := .finWait2 }
  else c

/-- Simultaneous close in `FIN_WAIT_1`. -/
def rxFinWait1Fin (env : TcpEnv) (seg : TcpIn) (c : TcpConn) : TcpConn :=
  if c.state = .finWait1 ∧ seg.has tcpFin then
    let c := { c with rcvNxt := seg.afterFin, state := .closing }
    tcpSendSegment env tcpAck c.sndNxt [] c
  else c

def rxFinWait1 (env : TcpEnv) (seg : TcpIn) (c : TcpConn) : TcpConn :=
  rxFinWaitData seg (rxFinWait1Fin env seg (rxFinWait1Ack env seg c))

/-- FIN in `FIN_WAIT_2`. -/
def rxFinWait2Fin (env : TcpEnv) (seg : TcpIn) (c : TcpConn) : TcpConn :=
  if seg.has tcpFin then
    let c := { c with rcvNxt := seg.afterFin, state := .timeWait, twExpiry := env.now + 400,
                      rxFin := true, dataReady := true }
    tcpSendSegment env tcpAck c.sndNxt [] c
  else c

def rxFinWait2 (env : TcpEnv) (seg : TcpIn) (c : TcpConn) : TcpConn :=
  rxFinWait2Fin env seg (rxFinWaitData seg c)

def rxClosing (env : TcpEnv) (seg : TcpIn) (c : TcpConn) : TcpConn :=
  if seg.has tcpAck ∧ seg.ack = c.sndNxt then
    { c with state := .timeWait, twExpiry := env.now + 400 }
  else c

def rxLastAck (seg : TcpIn) (c : TcpConn) : TcpConn :=
  if seg.has tcpAck ∧ seg.ack = c.sndNxt then freeConn c else c

def rxCloseWait (seg : TcpIn) (c : TcpConn) : TcpConn :=
  if seg.has tcpAck ∧ seqLt c.sndUna seg.ack ∧ seqLe seg.ack c.sndNxt then
    { c with sndUna := seg.ack }
  else c

def rxTimeWait (env : TcpEnv) (seg : TcpIn) (c : TcpConn) : TcpConn :=
  if seg.has tcpFin then
    let c := tcpSendSegment env tcpAck c.sndNxt [] c
    { c with twExpiry := env.now + 400 }
  else c

/-- `tcp_rx` from the RST check on. -/
def tcpRxConn (env : TcpEnv) (seg : TcpIn) (c : TcpConn) : TcpConn :=
  if seg.has tcpRst then { c with state := .closed, closed := true, dataReady := true }
  else match c.state with
    | .synSent => rxSynSent env seg c
    | .synReceived => rxSynReceived seg c
    | .established => rxEstablished env seg c
    | .finWait1 => rxFinWait1 env seg c
    | .finWait2 => rxFinWait2 env seg c
    | .closing => rxClosing env seg c
    | .lastAck => rxLastAck seg c
    | .closeWait => rxCloseWait seg c
    | .timeWait => rxTimeWait env seg c
    | .closed => c
    | .listen => c

/-- `tcp_rx` on a new connection for an incoming SYN, and the SYN+ACK. -/
def tcpRxSyn (env : TcpEnv) (seg : TcpIn) (srcIp dstIp : BitVec 32) (c : TcpConn) : TcpConn :=
  let c := allocConn c
  let iss := tcpGenIss env
  let c := { c with localIp := dstIp, localPort := seg.dstPort, remoteIp := srcIp,
                    remotePort := seg.srcPort, irs := seg.seq, rcvNxt := seg.seq + 1, iss := iss,
                    sndUna := iss, sndNxt := iss + 1, sndWnd := seg.window.setWidth 32,
                    state := .synReceived }
  tcpSendSegment env (tcpSyn ||| tcpAck) c.iss [] c

/-! ## `tcp_timer` on one connection -/

/-- `c->rto * 2`, capped at `TCP_RTO_MAX`, and the retry counter. -/
def tcpBackoff (c : TcpConn) : TcpConn :=
  let rto := c.rto * 2
  { c with retxCount := wrap 8 (c.retxCount + 1), rto := if rto > tcpRtoMax then tcpRtoMax else rto }

/-- The SYN or SYN+ACK retransmission of `tcp_timer`. -/
def tcpTimerSyn (env : TcpEnv) (c : TcpConn) : TcpConn :=
  if env.now - c.retxTime ≥ c.rto then
    if tcpMaxRetries ≤ c.retxCount then freeConn c
    else
      let c := tcpBackoff c
      if c.state = .synSent then tcpSendSegment env tcpSyn c.iss [] c
      else tcpSendSegment env (tcpSyn ||| tcpAck) c.iss [] c
  else c

/-- The data retransmission of `tcp_timer`. -/
def tcpTimerData (env : TcpEnv) (c : TcpConn) : TcpConn :=
  if env.now - c.retxTime ≥ c.rto then
    if tcpMaxRetries ≤ c.retxCount then freeConn c
    else
      let c := tcpBackoff c
      let resend := if tcpMss < c.txLen then tcpMss else c.txLen
      tcpSendSegment env (tcpAck ||| tcpPsh) c.sndUna ((List.range resend).map c.txbuf) c
  else c

/-- The body of `tcp_timer`'s loop. -/
def tcpTimerConn (env : TcpEnv) (c : TcpConn) : TcpConn :=
  if ¬c.used then c
  else if c.state = .timeWait ∧ env.now ≥ c.twExpiry then freeConn c
  else if c.state = .synSent ∨ c.state = .synReceived then tcpTimerSyn env c
  else if (c.state = .established ∨ c.state = .finWait1) ∧ 0 < c.txLen ∧ c.sndUna < c.sndNxt then
    tcpTimerData env c
  else c

/-! ## The calls of the socket layer on one connection -/

/-- `tcp_connect` up to the SYN, for the slot it has allocated. -/
def tcpConnectOpen (env : TcpEnv) (localIp dstIp : BitVec 32) (localPort dstPort : BitVec 16)
    (c : TcpConn) : TcpConn :=
  let iss := tcpGenIss env
  { allocConn c with localIp := localIp, localPort := localPort, remoteIp := dstIp,
                     remotePort := dstPort, iss := iss, sndUna := iss, sndNxt := iss + 1,
                     txSeq := iss + 1, state := .synSent }

/-- `tcp_connect`: the SYN, sent once ARP has resolved the next hop. -/
def tcpConnectSyn (env : TcpEnv) (c : TcpConn) : TcpConn := tcpSendSegment env tcpSyn c.iss [] c

/-- `tcp_listen`, for the slot it has allocated. -/
def tcpListenOpen (localIp : BitVec 32) (port : BitVec 16) (c : TcpConn) : TcpConn :=
  { allocConn c with localIp := localIp, localPort := port, state := .listen }

/-- The size of the next chunk `tcp_send` copies. -/
def tcpSendChunkLen (c : TcpConn) (left : ℕ) : ℕ :=
  let space := wrap 16 (tcpTxbufSize - c.txLen)
  let chunk := if space < left then space else left
  if tcpMss < chunk then tcpMss else chunk

/-- One iteration of `tcp_send` that has found buffer space: `rest` is the data not sent yet. -/
def tcpSendChunk (env : TcpEnv) (rest : List UInt8) (c : TcpConn) : TcpConn :=
  let chunk := tcpSendChunkLen c rest.length
  let txLen := c.txLen
  let c := { c with txbuf := fun i => if txLen ≤ i ∧ i < txLen + chunk then rest.getD (i - txLen) 0
                                      else c.txbuf i
                    txLen := wrap 16 (txLen + chunk)
                    stream := c.stream ++ rest.take chunk }
  let data := (List.range chunk).map fun i => c.txbuf (c.txLen - chunk + i)
  let c := tcpSendSegment env (tcpAck ||| tcpPsh) c.sndNxt data c
  { c with sndNxt := c.sndNxt + BitVec.ofNat 32 chunk }

/-- The end of `tcp_recv`: read the ring, and acknowledge if anything was read. -/
def tcpRecvRead (env : TcpEnv) (len : ℕ) (c : TcpConn) : List UInt8 × TcpConn :=
  let r := rxbufRead c len
  let c := { r.2 with recvd := r.2.recvd ++ r.1 }
  (r.1, if 0 < r.1.length then tcpSendSegment env tcpAck c.sndNxt [] c else c)

/-- The FIN of `tcp_close`. -/
def tcpCloseFin (env : TcpEnv) (state : TcpState) (c : TcpConn) : TcpConn :=
  let c := tcpSendSegment env (tcpFin ||| tcpAck) c.sndNxt [] { c with state := state }
  { c with sndNxt := c.sndNxt + 1 }

/-- The `switch` of `tcp_close`. -/
def tcpCloseSwitch (env : TcpEnv) (c : TcpConn) : TcpConn :=
  match c.state with
  | .established => tcpCloseFin env .finWait1 c
  | .closeWait => tcpCloseFin env .lastAck c
  | .listen | .synSent => freeConn c
  | _ => c

end PlantOS.Net
