import PlantOS.Net.Dns

/-!
# UDP reception

Model of `udp_rx`: a datagram from port 53 to port 1053 goes to the DNS resolver, any other to the socket
bound to its port.

Reference: `net/udp.c`, `net/udp.h`.
-/

namespace PlantOS.Net

open Word

/-- `UDP_RXBUF_SIZE`. -/
def udpRxbufSize : ℕ := 4096

/-- `sizeof(struct udp_header)`. -/
def udpHeaderSize : ℕ := 8

/-- `struct udp_socket`. -/
structure UdpSocket where
  used : Bool
  localPort : BitVec 16
  rxbuf : ℕ → UInt8
  rxHead : ℕ
  rxTail : ℕ
  rxCount : ℕ
  rxSrcIp : BitVec 32
  rxSrcPort : BitVec 16
  dataReady : Bool

/-- The socket table, and the variables of the DNS resolver. -/
structure UdpSys where
  sockets : Fin 8 → UdpSocket
  dns : DnsReply

/-- The sockets and the variables of the resolver at boot. -/
def udpInit : UdpSys where
  sockets _ :=
    { used := false, localPort := 0, rxbuf := fun _ => 0, rxHead := 0, rxTail := 0, rxCount := 0, rxSrcIp := 0,
      rxSrcPort := 0, dataReady := false }
  dns := { received := false, id := 0, ip := 0, rcode := -1 }

/-- The loop of `udp_rx` that fills the ring of a socket. -/
def udpStore (s : UdpSocket) : List UInt8 → UdpSocket
  | [] => s
  | b :: bs =>
    if s.rxCount < udpRxbufSize then
      udpStore { s with rxbuf := Function.update s.rxbuf s.rxHead b
                        rxHead := (s.rxHead + 1) % udpRxbufSize
                        rxCount := s.rxCount + 1 } bs
    else s

/-- The payload of a datagram. -/
def Netbuf.udpPayload (nb : Netbuf) (i : ℕ) : UInt8 := nb.byte (udpHeaderSize + i)

/-- The payload length `udp_rx` computes: that of the header, cut to what has arrived. -/
def Netbuf.udpPayloadLen (nb : Netbuf) : ℕ :=
  let payloadLen := wrap 16 ((nb.be16 4).toNat - udpHeaderSize)
  if nb.len - udpHeaderSize < payloadLen then nb.len - udpHeaderSize else payloadLen

/-- `udp_rx`. -/
def udpRx (s : UdpSys) (nb : Netbuf) (srcIp : BitVec 32) : UdpSys :=
  if nb.len < udpHeaderSize then s
  else
    let sPort := nb.be16 0
    let dstPort := nb.be16 2
    if sPort = 53 ∧ dstPort = 1053 then
      { s with dns := dnsProcessReply nb.udpPayload nb.udpPayloadLen s.dns }
    else match (List.finRange 8).find? fun i => (s.sockets i).used && (s.sockets i).localPort == dstPort
      with
      | none => s
      | some i =>
        let sock := udpStore (s.sockets i) ((List.range nb.udpPayloadLen).map nb.udpPayload)
        let sock := { sock with rxSrcIp := srcIp, rxSrcPort := sPort, dataReady := true }
        { s with sockets := Function.update s.sockets i sock }

/-- What the DNS resolver finds in a datagram. -/
def Netbuf.dnsAnswer (nb : Netbuf) : Option DnsAnswer :=
  if udpHeaderSize ≤ nb.len ∧ nb.be16 0 = 53 ∧ nb.be16 2 = 1053 then
    dnsParse nb.udpPayload nb.udpPayloadLen
  else none

/-- The resolver's variables after `udp_rx`. -/
theorem udpRx_dns (s : UdpSys) (nb : Netbuf) (srcIp : BitVec 32) :
    (udpRx s nb srcIp).dns = match nb.dnsAnswer with
      | none => s.dns
      | some a => a.store := by
  by_cases hlen : udpHeaderSize ≤ nb.len
  · by_cases hport : nb.be16 0 = 53 ∧ nb.be16 2 = 1053
    · have hrx : udpRx s nb srcIp =
          { s with dns := dnsProcessReply nb.udpPayload nb.udpPayloadLen s.dns } := by
        rw [udpRx, if_neg (Nat.not_lt.mpr hlen)]
        exact if_pos hport
      have hans : nb.dnsAnswer = dnsParse nb.udpPayload nb.udpPayloadLen := if_pos ⟨hlen, hport⟩
      rw [hrx, hans]
      rfl
    · simp only [udpRx, Nat.not_lt.mpr hlen, if_false, if_neg hport, Netbuf.dnsAnswer,
        if_neg fun h : udpHeaderSize ≤ nb.len ∧ _ => hport h.2]
      split <;> rfl
  · simp only [udpRx, if_pos (Nat.lt_of_not_le hlen), Netbuf.dnsAnswer,
      if_neg fun h : udpHeaderSize ≤ nb.len ∧ _ => hlen h.1]

end PlantOS.Net
