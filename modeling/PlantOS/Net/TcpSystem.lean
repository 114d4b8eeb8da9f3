import PlantOS.Net.Tcp
import PlantOS.Common.Run

/-!
# The TCP subsystem

The connection table of `net/tcp.c`, driven by incoming segments, the timer and any number of threads in
the calls of the socket layer. A call that blocks is cut at its waiting loops: a step either enters a
call or takes one iteration of the loop a thread is in. `TcpAct` lists what a step can do to one
connection, and `moves_tcpStep` says that it does nothing else.

Reference: `net/tcp.c`.
-/

namespace PlantOS.Net

/-- Where a thread is in a call of the socket layer. -/
inductive TcpCall where
  | idle
  /-- `tcp_connect`, waiting for ARP. -/
  | connectArp (idx : Fin 16) (arpStart : BitVec 32)
  /-- `tcp_connect`, waiting for the connection to be established. -/
  | connectWait (idx : Fin 16) (start : BitVec 32)
  /-- `tcp_accept`, waiting for `data_ready` of the listener. -/
  | acceptWait (listener : Fin 16)
  /-- `tcp_accept`, waiting for the child to leave `SYN_RECEIVED`. -/
  | acceptChild (child : Fin 16) (start : BitVec 32)
  /-- `tcp_send`, at the head of its loop with `sent` bytes done. -/
  | send (idx : Fin 16) (data : List UInt8) (sent : ℕ)
  /-- `tcp_recv`, at the head of its waiting loop. -/
  | recv (idx : Fin 16) (len : ℕ)
  /-- `tcp_close`, waiting for the close to complete. -/
  | closeWait (idx : Fin 16) (start : BitVec 32)
  /-- The call has returned `r`; `buf` is what `tcp_recv` stored. -/
  | returned (r : ℤ) (buf : List UInt8)
deriving DecidableEq

/-- A reset sent by `tcp_send_rst`. -/
structure TcpRstOut where
  dstIp : BitVec 32
  srcPort : BitVec 16
  dstPort : BitVec 16
  seq : BitVec 32
  ack : BitVec 32
  flags : BitVec 8

/-- The state of `tcp.c`, the clock and the threads. -/
structure TcpSys where
  conns : Fin 16 → TcpConn
  nextEphemeral : BitVec 16
  ticks : BitVec 64
  calls : ℕ → TcpCall
  rsts : List TcpRstOut

/-- What does not change in a run: the interface address, and which segments get a netbuf. -/
structure TcpNet where
  ip : BitVec 32
  netbufOk : Fin 16 → ℕ → Bool

/-- The steps. `arp` says whether `arp_resolve` finds the next hop. -/
inductive TcpOp where
  | rx (nb : Netbuf) (srcIp dstIp : BitVec 32)
  | timer
  | tick
  | connect (t : ℕ) (dstIp : BitVec 32) (dstPort : BitVec 16) (arp : Bool)
  | listen (t : ℕ) (port : BitVec 16)
  | accept (t : ℕ) (conn : ℤ)
  | send (t : ℕ) (conn : ℤ) (data : List UInt8)
  | recv (t : ℕ) (conn : ℤ) (len : ℕ)
  | close (t : ℕ) (conn : ℤ)
  | resume (t : ℕ) (arp : Bool)

/-- The connection table after `tcp_init`. -/
def tcpInit (ticks : BitVec 64) : TcpSys :=
  { conns := fun _ =>
      { used := false, state := .closed, localIp := 0, localPort := 0, remoteIp := 0,
        remotePort := 0, sndUna := 0, sndNxt := 0, sndWnd := 0, iss := 0, rcvNxt := 0, rcvWnd := 0,
        irs := 0, rxbuf := fun _ => 0, rxHead := 0, rxTail := 0, rxCount := 0, txbuf := fun _ => 0,
        txLen := 0, txSeq := 0, rto := 0, retxTime := 0, retxCount := 0, established := false,
        closed := false, dataReady := false, rxFin := false, twExpiry := 0,
        gen := 0, recvd := [], stream := [], out := [] }
    nextEphemeral := 49152
    ticks := ticks
    calls := fun _ => .idle
    rsts := [] }

namespace TcpSys

/-- What connection `i` sees. -/
def env (net : TcpNet) (s : TcpSys) (i : Fin 16) : TcpEnv := ⟨s.ticks, net.netbufOk i⟩

/-- `(uint32_t)pit_get_ticks()`. -/
def now (s : TcpSys) : BitVec 32 := s.ticks.setWidth 32

/-- `pit_get_ticks() - start > limit`, where `start` was stored in 32 bits. -/
def elapsed (s : TcpSys) (start : BitVec 32) (limit : BitVec 64) : Bool :=
  s.ticks - start.setWidth 64 > limit

def upd (s : TcpSys) (i : Fin 16) (c : TcpConn) : TcpSys :=
  { s with conns := Function.update s.conns i c }

def setCall (s : TcpSys) (t : ℕ) (k : TcpCall) : TcpSys :=
  { s with calls := Function.update s.calls t k }

/-- Return `r` from the call of thread `t`. -/
def ret (s : TcpSys) (t : ℕ) (r : ℤ) : TcpSys := s.setCall t (.returned r [])

/-- `find_conn`; the local address is not compared. -/
def findConn (s : TcpSys) (localPort : BitVec 16) (remoteIp : BitVec 32) (remotePort : BitVec 16) :
    Option (Fin 16) :=
  (List.finRange 16).find? fun i => (s.conns i).used && ((s.conns i).localPort == localPort &&
    ((s.conns i).remotePort == remotePort && (s.conns i).remoteIp == remoteIp))

/-- `find_listener`. -/
def findListener (s : TcpSys) (localPort : BitVec 16) : Option (Fin 16) :=
  (List.finRange 16).find? fun i => (s.conns i).used && ((s.conns i).state == .listen &&
    (s.conns i).localPort == localPort)

/-- The slot `alloc_conn` takes. -/
def freeSlot (s : TcpSys) : Option (Fin 16) :=
  (List.finRange 16).find? fun i => !(s.conns i).used

/-- The child `tcp_accept` picks. -/
def findChild (s : TcpSys) (listener : Fin 16) : Option (Fin 16) :=
  (List.finRange 16).find? fun i => i != listener && ((s.conns i).used &&
    ((s.conns i).localPort == (s.conns listener).localPort &&
      ((s.conns i).state == .synReceived || (s.conns i).state == .established)))

end TcpSys

open TcpSys

/-- `conn < 0 || conn >= TCP_MAX_CONNS`, negated. -/
def tcpIndex (conn : ℤ) : Option (Fin 16) :=
  if h : conn < 0 ∨ 16 ≤ conn then none else some ⟨conn.toNat, by omega⟩

/-- `tcp_send_rst`. -/
def tcpSendRst (s : TcpSys) (seg : TcpIn) (srcIp : BitVec 32) : TcpSys :=
  { s with rsts := s.rsts ++ [if seg.has tcpAck then
      ⟨srcIp, seg.dstPort, seg.srcPort, seg.ack, 0, tcpRst⟩
    else ⟨srcIp, seg.dstPort, seg.srcPort, 0, seg.seq + 1, tcpRst ||| tcpAck⟩] }

/-- `tcp_rx`. -/
def tcpRx (net : TcpNet) (s : TcpSys) (nb : Netbuf) (srcIp dstIp : BitVec 32) : TcpSys :=
  let seg := tcpParse nb
  if nb.len < 20 then s
  else match s.findConn seg.dstPort srcIp seg.srcPort with
    | some idx => s.upd idx (tcpRxConn (s.env net idx) seg (s.conns idx))
    | none =>
      let listener := if seg.has tcpSyn ∧ ¬seg.has tcpAck then s.findListener seg.dstPort else none
      match listener with
      | some li =>
        match s.freeSlot with
        | none => s
        | some idx =>
          let s := s.upd idx (tcpRxSyn (s.env net idx) seg srcIp dstIp (s.conns idx))
          s.upd li { s.conns li with dataReady := true }
      | none => if seg.has tcpRst then s else tcpSendRst s seg srcIp

/-- `tcp_timer`: the loop treats every connection on its own. -/
def tcpTimer (net : TcpNet) (s : TcpSys) : TcpSys :=
  { s with conns := fun i => tcpTimerConn (s.env net i) (s.conns i) }

/-- `tcp_connect` after ARP: send the SYN and start to wait. -/
def tcpConnectResolved (net : TcpNet) (s : TcpSys) (t : ℕ) (idx : Fin 16) : TcpSys :=
  (s.upd idx (tcpConnectSyn (s.env net idx) (s.conns idx))).setCall t (.connectWait idx s.now)

/-- Entering `tcp_connect`. -/
def tcpConnect (net : TcpNet) (s : TcpSys) (t : ℕ) (dstIp : BitVec 32) (dstPort : BitVec 16)
    (arp : Bool) : TcpSys :=
  match s.freeSlot with
  | none => s.ret t (-1)
  | some idx =>
    let c := tcpConnectOpen (s.env net idx) net.ip dstIp s.nextEphemeral dstPort (s.conns idx)
    let s := { s.upd idx c with nextEphemeral := s.nextEphemeral + 1 }
    if arp then tcpConnectResolved net s t idx else s.setCall t (.connectArp idx s.now)

/-- `tcp_listen`. -/
def tcpListen (net : TcpNet) (s : TcpSys) (t : ℕ) (port : BitVec 16) : TcpSys :=
  match s.freeSlot with
  | none => s.ret t (-1)
  | some idx => (s.upd idx (tcpListenOpen net.ip port (s.conns idx))).ret t idx

/-- Entering `tcp_accept`. -/
def tcpAccept (s : TcpSys) (t : ℕ) (conn : ℤ) : TcpSys :=
  match tcpIndex conn with
  | none => s.ret t (-1)
  | some l =>
    if ¬(s.conns l).used ∨ (s.conns l).state ≠ .listen then s.ret t (-1)
    else s.setCall t (.acceptWait l)

/-- An iteration of the first waiting loop of `tcp_accept`, and what follows it. -/
def tcpAcceptWait (s : TcpSys) (t : ℕ) (l : Fin 16) : TcpSys :=
  if ¬(s.conns l).dataReady then s
  else
    let s := s.upd l { s.conns l with dataReady := false }
    match s.findChild l with
    | none => s.ret t (-1)
    | some child => s.setCall t (.acceptChild child s.now)

/-- An iteration of the second waiting loop of `tcp_accept`, and what follows it. -/
def tcpAcceptChild (s : TcpSys) (t : ℕ) (child : Fin 16) (start : BitVec 32) : TcpSys :=
  if (s.conns child).state = .synReceived then
    if s.elapsed start 500 then (s.upd child (freeConn (s.conns child))).ret t (-1) else s
  else if (s.conns child).state ≠ .established then
    (s.upd child (freeConn (s.conns child))).ret t (-1)
  else s.ret t child

/-- Entering `tcp_send`. -/
def tcpSend (s : TcpSys) (t : ℕ) (conn : ℤ) (data : List UInt8) : TcpSys :=
  match tcpIndex conn with
  | none => s.ret t (-1)
  | some i =>
    if ¬(s.conns i).used ∨ ((s.conns i).state ≠ .established ∧ (s.conns i).state ≠ .closeWait) then
      s.ret t (-1)
    else s.setCall t (.send i data 0)

/-- An iteration of `tcp_send`: wait for space, or copy and send a chunk. -/
def tcpSendIter (net : TcpNet) (s : TcpSys) (t : ℕ) (i : Fin 16) (data : List UInt8) (sent : ℕ) :
    TcpSys :=
  if data.length ≤ sent then s.ret t sent
  else if tcpTxbufSize ≤ (s.conns i).txLen then
    if (s.conns i).closed then s.ret t (-1) else s
  else
    let chunk := tcpSendChunkLen (s.conns i) (data.length - sent)
    (s.upd i (tcpSendChunk (s.env net i) (data.drop sent) (s.conns i))).setCall t
      (.send i data (sent + chunk))

/-- Entering `tcp_recv`. -/
def tcpRecv (s : TcpSys) (t : ℕ) (conn : ℤ) (len : ℕ) : TcpSys :=
  match tcpIndex conn with
  | none => s.ret t (-1)
  | some i => if ¬(s.conns i).used then s.ret t (-1) else s.setCall t (.recv i len)

/-- An iteration of the waiting loop of `tcp_recv`, and what follows it. -/
def tcpRecvIter (net : TcpNet) (s : TcpSys) (t : ℕ) (i : Fin 16) (len : ℕ) : TcpSys :=
  if (s.conns i).rxCount = 0 ∧ ¬(s.conns i).rxFin ∧ ¬(s.conns i).closed then
    s.upd i { s.conns i with dataReady := false }
  else if (s.conns i).rxCount = 0 then s.ret t 0
  else
    let r := tcpRecvRead (s.env net i) len (s.conns i)
    (s.upd i r.2).setCall t (.returned r.1.length r.1)

/-- Entering `tcp_close`. -/
def tcpClose (net : TcpNet) (s : TcpSys) (t : ℕ) (conn : ℤ) : TcpSys :=
  match tcpIndex conn with
  | none => s.ret t 0
  | some i =>
    if ¬(s.conns i).used then s.ret t 0
    else (s.upd i (tcpCloseSwitch (s.env net i) (s.conns i))).setCall t (.closeWait i s.now)

/-- An iteration of the waiting loop of `tcp_close`. -/
def tcpCloseIter (s : TcpSys) (t : ℕ) (i : Fin 16) (start : BitVec 32) : TcpSys :=
  if (s.conns i).used ∧ (s.conns i).state ≠ .closed ∧ (s.conns i).state ≠ .timeWait then
    if s.elapsed start 500 then (s.upd i (freeConn (s.conns i))).ret t 0 else s
  else s.ret t 0

/-- An iteration of the first waiting loop of `tcp_connect`. -/
def tcpConnectArp (net : TcpNet) (s : TcpSys) (t : ℕ) (i : Fin 16) (start : BitVec 32) (arp : Bool) :
    TcpSys :=
  if arp then tcpConnectResolved net s t i
  else if s.elapsed start 200 then (s.upd i (freeConn (s.conns i))).ret t (-1)
  else s

/-- An iteration of the second waiting loop of `tcp_connect`, and what follows it. -/
def tcpConnectWait (s : TcpSys) (t : ℕ) (i : Fin 16) (start : BitVec 32) : TcpSys :=
  if ¬(s.conns i).established ∧ ¬(s.conns i).closed then
    if s.elapsed start 500 then (s.upd i (freeConn (s.conns i))).ret t (-1) else s
  else if (s.conns i).closed then s.ret t (-1)
  else s.ret t i

/-- One iteration of the loop thread `t` waits in. -/
def tcpResume (net : TcpNet) (s : TcpSys) (t : ℕ) (arp : Bool) : TcpSys :=
  match s.calls t with
  | .idle | .returned _ _ => s
  | .connectArp i start => tcpConnectArp net s t i start arp
  | .connectWait i start => tcpConnectWait s t i start
  | .acceptWait l => tcpAcceptWait s t l
  | .acceptChild i start => tcpAcceptChild s t i start
  | .send i data sent => tcpSendIter net s t i data sent
  | .recv i len => tcpRecvIter net s t i len
  | .closeWait i start => tcpCloseIter s t i start

/-- A thread can enter a call if it is in none. -/
def TcpCall.ready : TcpCall → Bool
  | .idle | .returned _ _ => true
  | _ => false

/-- One step. -/
def tcpStep (net : TcpNet) (s : TcpSys) : TcpOp → TcpSys
  | .rx nb srcIp dstIp => tcpRx net s nb srcIp dstIp
  | .timer => tcpTimer net s
  | .tick => { s with ticks := s.ticks + 1 }
  | .connect t dstIp dstPort arp =>
    if (s.calls t).ready then tcpConnect net s t dstIp dstPort arp else s
  | .listen t port => if (s.calls t).ready then tcpListen net s t port else s
  | .accept t conn => if (s.calls t).ready then tcpAccept s t conn else s
  | .send t conn data => if (s.calls t).ready then tcpSend s t conn data else s
  | .recv t conn len => if (s.calls t).ready then tcpRecv s t conn len else s
  | .close t conn => if (s.calls t).ready then tcpClose net s t conn else s
  | .resume t arp => tcpResume net s t arp

/-! ## What a step does to a connection -/

/-- The ways in which a step changes a connection. -/
inductive TcpAct where
  | rx (seg : TcpIn)
  | rxSyn (seg : TcpIn) (srcIp dstIp : BitVec 32)
  | timer
  | ready (b : Bool)
  | connect (localIp dstIp : BitVec 32) (localPort dstPort : BitVec 16) (arp : Bool)
  | syn
  | listen (localIp : BitVec 32) (port : BitVec 16)
  | free
  | chunk (rest : List UInt8)
  | recv (len : ℕ)
  | close

/-- The connection after the change. -/
def TcpAct.run (env : TcpEnv) : TcpAct → TcpConn → TcpConn
  | .rx seg, c => tcpRxConn env seg c
  | .rxSyn seg srcIp dstIp, c => tcpRxSyn env seg srcIp dstIp c
  | .timer, c => tcpTimerConn env c
  | .ready b, c => { c with dataReady := b }
  | .connect localIp dstIp localPort dstPort arp, c =>
    let c := tcpConnectOpen env localIp dstIp localPort dstPort c
    if arp then tcpConnectSyn env c else c
  | .syn, c => tcpConnectSyn env c
  | .listen localIp port, c => tcpListenOpen localIp port c
  | .free, c => freeConn c
  | .chunk rest, c => tcpSendChunk env rest c
  | .recv len, c => (tcpRecvRead env len c).2
  | .close, c => tcpCloseSwitch env c

/-- The step `op` makes the change `a` to connection `i`. -/
inductive TcpAct.Of (s : TcpSys) : TcpOp → Fin 16 → TcpAct → Prop
  | rx {nb srcIp dstIp i} (hlen : 20 ≤ nb.len)
      (hfind : s.findConn (tcpParse nb).dstPort srcIp (tcpParse nb).srcPort = some i) :
      Of s (.rx nb srcIp dstIp) i (.rx (tcpParse nb))
  | rxSyn {nb srcIp dstIp i} (hfree : (s.conns i).used = false) :
      Of s (.rx nb srcIp dstIp) i (.rxSyn (tcpParse nb) srcIp dstIp)
  | timer {i} : Of s .timer i .timer
  | ready {op i b} : Of s op i (.ready b)
  | connect {t dstIp dstPort arp i localIp localPort} (hfree : (s.conns i).used = false) :
      Of s (.connect t dstIp dstPort arp) i (.connect localIp dstIp localPort dstPort arp)
  | syn {t arp i start} (hcall : s.calls t = .connectArp i start) : Of s (.resume t arp) i .syn
  | listen {t port i localIp} (hfree : (s.conns i).used = false) :
      Of s (.listen t port) i (.listen localIp port)
  | free {t arp i} : Of s (.resume t arp) i .free
  | chunk {t arp i data sent} (hcall : s.calls t = .send i data sent) (hsent : sent < data.length)
      (hspace : (s.conns i).txLen < tcpTxbufSize) :
      Of s (.resume t arp) i (.chunk (data.drop sent))
  | recv {t arp i len} (hcall : s.calls t = .recv i len) : Of s (.resume t arp) i (.recv len)
  | close {t conn i} (hused : (s.conns i).used = true) : Of s (.close t conn) i .close

/-- Every connection of `s'` is that of `s`, or changed as `op` allows. -/
def TcpSys.Moves (net : TcpNet) (s : TcpSys) (op : TcpOp) (s' : TcpSys) : Prop :=
  ∀ i, s'.conns i = s.conns i ∨
    ∃ a, TcpAct.Of s op i a ∧ s'.conns i = a.run (s.env net i) (s.conns i)

namespace TcpSys

variable {net : TcpNet} {s s' : TcpSys} {op : TcpOp}

@[simp] theorem upd_conns (s : TcpSys) (i : Fin 16) (c : TcpConn) :
    (s.upd i c).conns = Function.update s.conns i c := rfl

@[simp] theorem setCall_conns (s : TcpSys) (t : ℕ) (k : TcpCall) : (s.setCall t k).conns = s.conns :=
  rfl

@[simp] theorem ret_conns (s : TcpSys) (t : ℕ) (r : ℤ) : (s.ret t r).conns = s.conns := rfl

theorem Moves.same (h : s'.conns = s.conns) : Moves net s op s' := fun i => .inl (by rw [h])

theorem Moves.one {i : Fin 16} {a : TcpAct} (ha : TcpAct.Of s op i a)
    (h : s'.conns = Function.update s.conns i (a.run (s.env net i) (s.conns i))) :
    Moves net s op s' := by
  intro j
  rw [h]
  by_cases hj : j = i
  · subst hj
    exact .inr ⟨a, ha, Function.update_self ..⟩
  · exact .inl (Function.update_of_ne hj ..)

theorem freeSlot_unused {i : Fin 16} (h : s.freeSlot = some i) : (s.conns i).used = false := by
  simpa using List.find?_some h

theorem findListener_used {port : BitVec 16} {i : Fin 16} (h : s.findListener port = some i) :
    (s.conns i).used = true := by
  have := List.find?_some h
  simp only [Bool.and_eq_true] at this
  exact this.1

/-- The connection table after `tcp_rx`: unchanged, one connection has processed the segment, or a
listener has got a new connection. -/
theorem tcpRx_conns (net : TcpNet) (s : TcpSys) (nb : Netbuf) (srcIp dstIp : BitVec 32) :
    (tcpRx net s nb srcIp dstIp).conns = s.conns ∨
    (∃ idx, 20 ≤ nb.len ∧ s.findConn (tcpParse nb).dstPort srcIp (tcpParse nb).srcPort = some idx ∧
      (tcpRx net s nb srcIp dstIp).conns = Function.update s.conns idx
        (tcpRxConn (s.env net idx) (tcpParse nb) (s.conns idx))) ∨
    ∃ li idx, 20 ≤ nb.len ∧ s.findConn (tcpParse nb).dstPort srcIp (tcpParse nb).srcPort = none ∧
      (tcpParse nb).has tcpSyn ∧ s.findListener (tcpParse nb).dstPort = some li ∧
      (s.conns idx).used = false ∧ li ≠ idx ∧
      (tcpRx net s nb srcIp dstIp).conns = Function.update (Function.update s.conns idx
        (tcpRxSyn (s.env net idx) (tcpParse nb) srcIp dstIp (s.conns idx))) li
        { s.conns li with dataReady := true } := by
  simp only [tcpRx]
  split
  · exact .inl rfl
  rename_i hlen
  have hlen : 20 ≤ nb.len := by omega
  split
  · rename_i idx hfind
    exact .inr (.inl ⟨idx, hlen, hfind, rfl⟩)
  rename_i hnone
  split
  swap
  · split <;> exact .inl rfl
  rename_i li hli
  split at hli
  swap
  · cases hli
  rename_i hsyn
  split
  · exact .inl rfl
  rename_i idx hslot
  have hfree := freeSlot_unused hslot
  have hne : li ≠ idx := by
    rintro rfl
    simp [findListener_used hli] at hfree
  refine .inr (.inr ⟨li, idx, hlen, hnone, hsyn.1, hli, hfree, hne, ?_⟩)
  simp only [upd_conns, Function.update_of_ne hne]

theorem moves_tcpRx (nb : Netbuf) (srcIp dstIp : BitVec 32) :
    Moves net s (.rx nb srcIp dstIp) (tcpRx net s nb srcIp dstIp) := by
  rcases tcpRx_conns net s nb srcIp dstIp with hsame | ⟨idx, hlen, hfind, heq⟩ |
    ⟨li, idx, -, -, -, -, hfree, hne, heq⟩
  · exact .same hsame
  · exact .one (.rx hlen hfind) heq
  · -- the new connection and the listener's flag
    intro i
    rw [heq]
    by_cases hi : i = li
    · subst hi
      exact .inr ⟨.ready true, .ready, Function.update_self ..⟩
    · rw [Function.update_of_ne hi]
      by_cases hi' : i = idx
      · subst hi'
        exact .inr ⟨_, .rxSyn hfree, Function.update_self ..⟩
      · exact .inl (Function.update_of_ne hi' ..)

theorem moves_tcpConnect (t : ℕ) (dstIp : BitVec 32) (dstPort : BitVec 16) (arp : Bool) :
    Moves net s (.connect t dstIp dstPort arp) (tcpConnect net s t dstIp dstPort arp) := by
  simp only [tcpConnect]
  split
  · exact .same rfl
  · rename_i idx hslot
    have hof : TcpAct.Of s (.connect t dstIp dstPort arp) idx
        (.connect net.ip dstIp s.nextEphemeral dstPort arp) := .connect (freeSlot_unused hslot)
    refine .one hof ?_
    cases arp with
    | false => rfl
    | true =>
      simp only [if_true, tcpConnectResolved, setCall_conns, upd_conns, Function.update_self,
        Function.update_idem]
      rfl

theorem moves_tcpResume (t : ℕ) (arp : Bool) :
    Moves net s (.resume t arp) (tcpResume net s t arp) := by
  unfold tcpResume
  split
  · exact .same rfl
  · exact .same rfl
  · -- waiting for the ARP reply; the SYN is sent when it is there
    rename_i i start hcall
    unfold tcpConnectArp
    split
    · exact .one (.syn hcall) rfl
    · split
      · exact .one .free rfl
      · exact .same rfl
  · rename_i i start hcall
    unfold tcpConnectWait
    split
    · split
      · exact .one .free rfl
      · exact .same rfl
    · split <;> exact .same rfl
  · -- a listener takes the connection that is ready
    rename_i l hcall
    unfold tcpAcceptWait
    split
    · exact .same rfl
    · simp only
      split <;> exact .one .ready rfl
  · rename_i i start hcall
    unfold tcpAcceptChild
    split
    · split
      · exact .one .free rfl
      · exact .same rfl
    · split
      · exact .one .free rfl
      · exact .same rfl
  · -- a chunk is sent only if there are bytes and there is room
    rename_i i data sent hcall
    unfold tcpSendIter
    split
    · exact .same rfl
    rename_i hsent
    split
    · split <;> exact .same rfl
    · rename_i hspace
      exact .one (.chunk hcall (by omega) (by omega)) rfl
  · rename_i i len hcall
    unfold tcpRecvIter
    split
    · exact .one .ready rfl
    · split
      · exact .same rfl
      · exact .one (.recv hcall) rfl
  · rename_i i start hcall
    unfold tcpCloseIter
    split
    · split
      · exact .one .free rfl
      · exact .same rfl
    · exact .same rfl

/-- A step changes connections in the ways of `TcpAct` only. -/
theorem moves_tcpStep (net : TcpNet) (s : TcpSys) (op : TcpOp) :
    Moves net s op (tcpStep net s op) := by
  cases op with
  | rx nb srcIp dstIp => exact moves_tcpRx nb srcIp dstIp
  | timer => exact fun i => .inr ⟨.timer, .timer, rfl⟩
  | tick => exact .same rfl
  | connect t dstIp dstPort arp =>
    simp only [tcpStep]
    split
    · exact moves_tcpConnect t dstIp dstPort arp
    · exact .same rfl
  | listen t port =>
    simp only [tcpStep, tcpListen]
    split
    · split
      · exact .same rfl
      · rename_i idx hslot
        exact .one (.listen (freeSlot_unused hslot)) rfl
    · exact .same rfl
  | accept t conn =>
    simp only [tcpStep, tcpAccept]
    split
    · split
      · exact .same rfl
      · split <;> exact .same rfl
    · exact .same rfl
  | send t conn data =>
    simp only [tcpStep, tcpSend]
    split
    · split
      · exact .same rfl
      · split <;> exact .same rfl
    · exact .same rfl
  | recv t conn len =>
    simp only [tcpStep, tcpRecv]
    split
    · split
      · exact .same rfl
      · split <;> exact .same rfl
    · exact .same rfl
  | close t conn =>
    simp only [tcpStep, tcpClose]
    split
    · split
      · exact .same rfl
      · split
        · exact .same rfl
        · rename_i i _ hused
          exact .one (.close (by simpa using hused)) rfl
    · exact .same rfl
  | resume t arp => exact moves_tcpResume t arp

end TcpSys

/-- A property of single connections holds throughout a run if every permitted change preserves it. -/
theorem tcp_invariant {net : TcpNet} {ok : TcpSys → TcpOp → Prop} {inv : Fin 16 → TcpConn → Prop}
    (hact : ∀ s op i a, ok s op → TcpAct.Of s op i a → inv i (s.conns i) →
      inv i (a.run (s.env net i) (s.conns i)))
    {s : TcpSys} {ops : List TcpOp} (hs : ∀ i, inv i (s.conns i))
    (hops : Run.Admits (tcpStep net) ok s ops) (i : Fin 16) :
    inv i ((Run.run (tcpStep net) s ops).conns i) := by
  let Inv (s : TcpSys) : Prop := ∀ i, inv i (s.conns i)
  suffices hstep : ∀ s op, Inv s → ok s op → Inv (tcpStep net s op) from
    Run.run_invariant_of_admits hstep hs hops i
  intro s op hs hop i
  rcases moves_tcpStep net s op i with hsame | ⟨a, ha, heq⟩
  · rw [hsame]
    exact hs i
  · rw [heq]
    exact hact s op i a hop ha (hs i)

end PlantOS.Net
