import PlantOS.Common.Ring
import PlantOS.Common.Run
import PlantOS.Net.Udp

/-!
# UDP sockets

`udp_bind`, `udp_recvfrom` and `udp_sock_close`, and their runs together with `udp_rx`. The payloads of all
datagrams for a socket go into one ring of bytes, and the socket remembers the sender of the last one only. So
`udp_recvfrom` returns a part of one datagram with its sender if each datagram finds the ring empty and each
call before took all that was there; `udp_datagrams_mixed` is a run in which two datagrams come out as one.

A call of `udp_recvfrom` waits until data has arrived or 10 seconds have passed. In a run it stands where its
wait ends, behind the datagrams that arrived in the meantime.

Reference: `net/udp.c`, `net/udp.h`.
-/

namespace PlantOS.Net

/-- What a call of `udp_recvfrom` gives: its result, the bytes in the buffer, and `*src_ip` and `*src_port` if
it stores them. -/
structure UdpRecv where
  n : ℤ
  data : List UInt8
  src : Option (BitVec 32 × BitVec 16)

/-- `udp_bind`: the socket, or `none` for the result -1. -/
def udpBind (s : UdpSys) (port : BitVec 16) : Option (Fin 8) × UdpSys :=
  if (List.finRange 8).any fun i => (s.sockets i).used && (s.sockets i).localPort == port then (none, s)
  else match (List.finRange 8).find? fun i => !(s.sockets i).used with
    | none => (none, s)
    | some i =>
      (some i, { s with
        sockets := Function.update s.sockets i ⟨true, port, fun _ => 0, 0, 0, 0, 0, 0, false⟩ })

/-- The check of `udp_recvfrom`: `sock` is in the table, and the socket is in use. -/
def udpUsed (s : UdpSys) (sock : ℤ) : Option (Fin 8) :=
  (List.finRange 8).find? fun i => (i : ℤ) = sock ∧ (s.sockets i).used

/-- `udp_sock_close`. -/
def udpSockClose (s : UdpSys) (sock : ℤ) : UdpSys :=
  { s with sockets := fun i =>
      if (i : ℤ) = sock then { s.sockets i with used := false } else s.sockets i }

/-- The loop of `udp_recvfrom` for at most `len` bytes. -/
def udpTake (s : UdpSocket) : ℕ → List UInt8 × UdpSocket
  | 0 => ([], s)
  | len + 1 =>
    if 0 < s.rxCount then
      let r := udpTake { s with rxTail := (s.rxTail + 1) % udpRxbufSize, rxCount := s.rxCount - 1 } len
      (s.rxbuf s.rxTail :: r.1, r.2)
    else ([], s)

/-- `udp_recvfrom` after its wait. -/
def udpRecvfrom (s : UdpSys) (sock : ℤ) (len : ℕ) : UdpRecv × UdpSys :=
  match udpUsed s sock with
  | none => (⟨-1, [], none⟩, s)
  | some i =>
    if ¬(s.sockets i).dataReady ∨ (s.sockets i).rxCount = 0 then (⟨0, [], none⟩, s)
    else
      let r := udpTake (s.sockets i) len
      let sock := if r.2.rxCount = 0 then { r.2 with dataReady := false } else r.2
      (⟨r.1.length, r.1, some (r.2.rxSrcIp, r.2.rxSrcPort)⟩,
        { s with sockets := Function.update s.sockets i sock })

/-- The calls. -/
inductive UdpOp
  | bind (port : BitVec 16)
  | close (sock : ℤ)
  | rx (nb : Netbuf) (srcIp : BitVec 32)
  | recv (sock : ℤ) (len : ℕ)

/-- One call. -/
def udpStep (s : UdpSys) : UdpOp → UdpSys
  | .bind port => (udpBind s port).2
  | .close sock => udpSockClose s sock
  | .rx nb srcIp => udpRx s nb srcIp
  | .recv sock len => (udpRecvfrom s sock len).2

/-- The payload of a datagram as `udp_rx` takes it. -/
def Netbuf.udpBytes (nb : Netbuf) : List UInt8 := (List.range nb.udpPayloadLen).map nb.udpPayload

/-- A datagram for the port is among the calls; `data` is the beginning of its payload, and `src` its
sender. -/
def FromDatagram (ops : List UdpOp) (port : BitVec 16) (data : List UInt8)
    (src : BitVec 32 × BitVec 16) : Prop :=
  ∃ nb, .rx nb src.1 ∈ ops ∧ udpHeaderSize ≤ nb.len ∧ nb.be16 2 = port ∧ nb.be16 0 = src.2 ∧
    data <+: nb.udpBytes

/-- A datagram finds the ring of its socket empty, and a receiver has room for what is in the ring. -/
def UdpAlone (s : UdpSys) : UdpOp → Prop
  | .rx nb _ => ∀ i, (s.sockets i).used → (s.sockets i).localPort = nb.be16 2 → (s.sockets i).rxCount = 0
  | .recv sock len => ∀ i, udpUsed s sock = some i → (s.sockets i).rxCount ≤ len
  | _ => True

instance (s : UdpSys) : DecidablePred (UdpAlone s)
  | .rx nb _ => inferInstanceAs (Decidable (∀ i, (s.sockets i).used → (s.sockets i).localPort = nb.be16 2 →
      (s.sockets i).rxCount = 0))
  | .recv sock len => inferInstanceAs (Decidable (∀ i, udpUsed s sock = some i → (s.sockets i).rxCount ≤ len))
  | .bind _ | .close _ => isTrue trivial

/-! ## The ring of a socket -/

namespace UdpSocket

variable {s : UdpSocket} {ops : List UdpOp}

/-- The bytes in the ring, oldest first. -/
def content (s : UdpSocket) : List UInt8 := Ring.view udpRxbufSize s.rxbuf s.rxTail s.rxCount

/-- The indices of the ring agree. -/
def Wf (s : UdpSocket) : Prop := Ring.Wf udpRxbufSize s.rxHead s.rxTail s.rxCount

/-- `udp_rx` appends what fits. -/
theorem content_udpStore (bs : List UInt8) : ∀ {s : UdpSocket}, s.Wf →
    (udpStore s bs).Wf ∧ (udpStore s bs).content = s.content ++ bs.take (udpRxbufSize - s.rxCount) ∧
      (udpStore s bs).localPort = s.localPort := by
  induction bs with
  | nil => exact fun h => ⟨h, by simp [udpStore], rfl⟩
  | cons b bs ih =>
    intro s h
    rw [udpStore]
    split
    · next hc =>
      obtain ⟨hwf, hcontent, hport⟩ := @ih { s with
        rxbuf := Function.update s.rxbuf s.rxHead b, rxHead := (s.rxHead + 1) % udpRxbufSize
        rxCount := s.rxCount + 1 } (Ring.Wf.push h hc)
      refine ⟨hwf, ?_, hport⟩
      have hroom : udpRxbufSize - s.rxCount = udpRxbufSize - (s.rxCount + 1) + 1 := by omega
      rw [hcontent, hroom, List.take_succ_cons, content, Ring.view_push h hc]
      exact List.append_assoc ..
    · next hc =>
      have hroom : udpRxbufSize - s.rxCount = 0 := by omega
      exact ⟨h, by rw [hroom, List.take_zero, List.append_nil], rfl⟩

/-- `udp_recvfrom` takes the oldest bytes. -/
theorem udpTake_spec (len : ℕ) : ∀ {s : UdpSocket}, s.Wf →
    (udpTake s len).1 = s.content.take len ∧ (udpTake s len).2.Wf ∧
      (udpTake s len).2.rxCount = s.rxCount - len ∧ (udpTake s len).2.used = s.used ∧
      (udpTake s len).2.localPort = s.localPort ∧ (udpTake s len).2.rxSrcIp = s.rxSrcIp ∧
      (udpTake s len).2.rxSrcPort = s.rxSrcPort := by
  induction len with
  | zero => exact fun h => ⟨rfl, h, rfl, rfl, rfl, rfl, rfl⟩
  | succ len ih =>
    intro s h
    rw [udpTake]
    split
    · next hc =>
      obtain ⟨hdata, hwf, hcount, hused, hrest⟩ := @ih { s with
        rxTail := (s.rxTail + 1) % udpRxbufSize, rxCount := s.rxCount - 1 } (Ring.Wf.pop h hc)
      refine ⟨?_, hwf, ?_, hused, hrest⟩
      · rw [content, Ring.view_pop h hc, List.take_succ_cons]
        exact congrArg (List.cons _) hdata
      · have hcount : _ = s.rxCount - 1 - len := hcount
        rw [hcount]
        omega
    · next hc =>
      have hzero : s.rxCount = 0 := by omega
      refine ⟨?_, h, ?_, rfl, rfl, rfl, rfl⟩
      · rw [content, hzero]
        rfl
      · show s.rxCount = s.rxCount - (len + 1)
        omega

/-- The ring of an open socket is empty, or it holds the beginning of a datagram from the remembered
sender. -/
def Holds (ops : List UdpOp) (s : UdpSocket) : Prop :=
  s.used → s.Wf ∧ (s.rxCount ≠ 0 → FromDatagram ops s.localPort s.content (s.rxSrcIp, s.rxSrcPort))

end UdpSocket

/-! ## Runs -/

theorem FromDatagram.snoc {ops : List UdpOp} {port : BitVec 16} {data : List UInt8}
    {src : BitVec 32 × BitVec 16} (h : FromDatagram ops port data src) (op : UdpOp) :
    FromDatagram (ops ++ [op]) port data src := by
  obtain ⟨nb, hmem, h⟩ := h
  exact ⟨nb, List.mem_append_left _ hmem, h⟩

/-- A call returns no byte, or those of an open socket whose ring is not empty. -/
theorem udpRecvfrom_cases (s : UdpSys) (sock : ℤ) (len : ℕ) :
    ((udpRecvfrom s sock len).1.n ≤ 0 ∧ (udpRecvfrom s sock len).2 = s) ∨
      ∃ i, udpUsed s sock = some i ∧ (s.sockets i).used = true ∧ (s.sockets i).rxCount ≠ 0 ∧
        let r := udpTake (s.sockets i) len
        let sock' := if r.2.rxCount = 0 then { r.2 with dataReady := false } else r.2
        udpRecvfrom s sock len = (⟨r.1.length, r.1, some (r.2.rxSrcIp, r.2.rxSrcPort)⟩,
          { s with sockets := Function.update s.sockets i sock' }) := by
  rw [udpRecvfrom]
  split
  · exact .inl ⟨(by decide : (-1 : ℤ) ≤ 0), rfl⟩
  next i hi =>
  split
  · exact .inl ⟨le_rfl, rfl⟩
  next hready =>
  have hfind := List.find?_some hi
  simp only [decide_eq_true_eq] at hfind
  exact .inr ⟨i, hi, hfind.2, fun hc => hready (.inr hc), rfl⟩

section

variable {s : UdpSys} {ops : List UdpOp} (h : ∀ i, (s.sockets i).Holds ops)
include h

theorem holds_snoc (op : UdpOp) (i : Fin 8) : (s.sockets i).Holds (ops ++ [op]) := fun hused =>
  ⟨(h i hused).1, fun hc => ((h i hused).2 hc).snoc op⟩

/-- A step that changes one socket. -/
theorem holds_update (op : UdpOp) {i : Fin 8} {sock : UdpSocket} (hsock : sock.Holds (ops ++ [op]))
    (j : Fin 8) : (Function.update s.sockets i sock j).Holds (ops ++ [op]) := by
  by_cases hj : j = i
  · rw [hj, Function.update_self]
    exact hsock
  · rw [Function.update_of_ne hj]
    exact holds_snoc h op j

/-- Step: the ring of a new socket is empty. -/
theorem holds_udpBind (port : BitVec 16) (i : Fin 8) :
    ((udpBind s port).2.sockets i).Holds (ops ++ [.bind port]) := by
  rw [udpBind]
  split
  · exact holds_snoc h _ i
  split
  · exact holds_snoc h _ i
  · refine holds_update h _ (fun _ => ⟨?_, fun hc => absurd rfl hc⟩) i
    exact Ring.wf_empty (by decide)

/-- Step: a closed socket has nothing to hold. -/
theorem holds_udpSockClose (sock : ℤ) (i : Fin 8) :
    ((udpSockClose s sock).sockets i).Holds (ops ++ [.close sock]) := by
  rw [udpSockClose]
  dsimp only
  split
  · exact fun hused => absurd hused Bool.false_ne_true
  · exact holds_snoc h _ i

/-- A datagram that finds the ring empty. -/
theorem holds_udpRx {nb : Netbuf} {srcIp : BitVec 32} (hok : UdpAlone s (.rx nb srcIp)) (i : Fin 8) :
    ((udpRx s nb srcIp).sockets i).Holds (ops ++ [.rx nb srcIp]) := by
  rw [udpRx]
  split
  · exact holds_snoc h _ i
  next hlen =>
  dsimp only
  split
  · exact holds_snoc h _ i
  split
  · exact holds_snoc h _ i
  next j hj =>
  obtain ⟨hused, hport⟩ : (s.sockets j).used = true ∧ (s.sockets j).localPort = nb.be16 2 := by
    simpa using List.find?_some hj
  have hzero := hok j hused hport
  obtain ⟨hwf, hcontent, hport'⟩ :=
    UdpSocket.content_udpStore ((List.range nb.udpPayloadLen).map nb.udpPayload) (h j hused).1
  have hempty : (s.sockets j).content = [] := by
    rw [UdpSocket.content, hzero]
    rfl
  rw [hempty, List.nil_append] at hcontent
  apply holds_update h
  refine fun _ => ⟨hwf, fun _ => ⟨nb, ?_, not_lt.1 hlen, hport.symm.trans hport'.symm, rfl, ?_⟩⟩
  · exact List.mem_append_right _ (List.mem_singleton_self _)
  · show UdpSocket.content (udpStore _ _) <+: _
    rw [hcontent]
    exact List.take_prefix _ _

/-- A receiver that has room for all that is in the ring. -/
theorem holds_udpRecvfrom {sock : ℤ} {len : ℕ} (hok : UdpAlone s (.recv sock len)) (i : Fin 8) :
    ((udpRecvfrom s sock len).2.sockets i).Holds (ops ++ [.recv sock len]) := by
  obtain ⟨-, heq⟩ | ⟨j, hj, hused, -, heq⟩ := udpRecvfrom_cases s sock len
  · rw [heq]
    exact holds_snoc h _ i
  · obtain ⟨-, hwf, hcount, -⟩ := UdpSocket.udpTake_spec len (h j hused).1
    have hzero : (udpTake (s.sockets j) len).2.rxCount = 0 := by
      rw [hcount, Nat.sub_eq_zero_of_le (hok j hj)]
    rw [heq]
    apply holds_update h
    rw [if_pos hzero]
    exact fun _ => ⟨hwf, fun hc => absurd hzero hc⟩

end

/-- In every run in which a datagram finds the ring of its socket empty and each call of `udp_recvfrom` has
room for what is in the ring, a call of `udp_recvfrom` that returns bytes returns the beginning of the payload
of one datagram for the port of the socket, with the sender of this datagram. -/
theorem udp_recvfrom_datagram {ops : List UdpOp} (hops : Run.Admits udpStep UdpAlone udpInit ops) (sock : ℤ)
    (len : ℕ) :
    let s := Run.run udpStep udpInit ops
    let r := (udpRecvfrom s sock len).1
    0 < r.n → r.n = r.data.length ∧ ∃ i src, udpUsed s sock = some i ∧ r.src = some src ∧
      FromDatagram ops (s.sockets i).localPort r.data src := by
  have hinv : ∀ i, ((Run.run udpStep udpInit ops).sockets i).Holds ops := by
    refine Run.run_history_of_admits (I := fun ops s => ∀ i, (s.sockets i).Holds ops)
      (fun _ hused => absurd hused Bool.false_ne_true) (fun ops op h hok => ?_) hops
    cases op with
    | bind port => exact holds_udpBind h port
    | close sock => exact holds_udpSockClose h sock
    | rx nb srcIp => exact holds_udpRx h hok
    | recv sock len => exact holds_udpRecvfrom h hok
  intro s r hn
  obtain ⟨hle, -⟩ | ⟨i, hi, hused, hc, heq⟩ := udpRecvfrom_cases s sock len
  · exact absurd hn (not_lt.2 hle)
  obtain ⟨hwf, hfrom⟩ := hinv i hused
  obtain ⟨nb, hmem, hlen, hport, hsrc, hdata⟩ := hfrom hc
  obtain ⟨htake, -, -, -, -, hip, hsport⟩ := UdpSocket.udpTake_spec len hwf
  have hr : r = _ := congrArg Prod.fst heq
  rw [hr]
  refine ⟨rfl, i, _, hi, rfl, nb, ?_, hlen, hport, hsrc.trans hsport.symm, ?_⟩
  · rwa [hip]
  · rw [htake]
    exact (List.take_prefix _ _).trans hdata

/-- A datagram of one byte from port 9 to port 7. -/
def udpDatagram (b : UInt8) : Netbuf :=
  { raw := fun i => [0, 9, 0, 7, 0, 9, 0, 0, b].getD i 0, data := 0, len := 9 }

/-- A socket for port 7 receives one datagram. -/
theorem udp_recvfrom_datagram_one :
    let ops : List UdpOp := [.bind 7, .rx (udpDatagram 65) 1]
    let s := Run.run udpStep udpInit ops
    (udpRecvfrom s 0 100).1.data = [65] ∧
      ∃ i src, udpUsed s 0 = some i ∧ (udpRecvfrom s 0 100).1.src = some src ∧
        FromDatagram ops (s.sockets i).localPort (udpRecvfrom s 0 100).1.data src :=
  ⟨by decide +kernel, (udp_recvfrom_datagram (by decide +kernel) 0 100 (by decide +kernel)).2⟩

/-- Two datagrams from different hosts arrive before the call: it returns the bytes of both, and the second
host. -/
theorem udp_datagrams_mixed :
    ¬∀ (ops : List UdpOp) (sock : ℤ) (len : ℕ),
      let s := Run.run udpStep udpInit ops
      let r := (udpRecvfrom s sock len).1
      0 < r.n → ∃ i src, udpUsed s sock = some i ∧ r.src = some src ∧
        FromDatagram ops (s.sockets i).localPort r.data src := by
  intro h
  obtain ⟨i, src, -, hsrc, nb, hmem, -, -, -, hdata⟩ :=
    h [.bind 7, .rx (udpDatagram 65) 1, .rx (udpDatagram 66) 2] 0 100 (by decide +kernel)
  have hsrc' : some ((2 : BitVec 32), (9 : BitVec 16)) = some src := by
    rw [← hsrc]
    decide +kernel
  obtain rfl := Option.some.inj hsrc'
  simp only [List.mem_cons, List.not_mem_nil, or_false, reduceCtorEq, false_or, UdpOp.rx.injEq] at hmem
  obtain ⟨-, hip⟩ | ⟨rfl, -⟩ := hmem
  · exact absurd hip (by decide)
  · exact absurd hdata (by decide +kernel)

end PlantOS.Net
