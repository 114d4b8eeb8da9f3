import PlantOS.Common.OnesComplement
import PlantOS.Net.TcpSystem

/-!
# Internet checksums

Model of `net_checksum` and `tcp_checksum`, and of the bytes of a segment that `tcp_send_segment` builds. The
32-bit accumulator does not overflow on any string that the code is given, so both functions are the
complement of a folded ones-complement sum (`netChecksum_eq`).

The segment is sent in a packet whose addresses are filled in by `ipv4_tx`: the source is the address of the
interface. The checksum was computed with the local address of the connection, and that is where the segment
which opened the connection was sent to.

Reference: `net/net.c`, `net/tcp.c`, `net/ipv4.c`.
-/

namespace PlantOS.Net

open Word Bytes OnesComplement

/-! ## The functions -/

/-- The loop of `net_checksum` over the words of a string, and its last byte. -/
def checksumLoop (sum : ℕ) : List UInt8 → ℕ
  | a :: b :: p => checksumLoop (wrap 32 (sum + (a.toNat * 256 + b.toNat))) p
  | [a] => wrap 32 (sum + a.toNat * 256)
  | [] => sum

/-- The end of `net_checksum`: fold the carries and complement. -/
def checksumEnd (sum : ℕ) : BitVec 16 := (~~~BitVec.ofNat 32 (foldCarries sum)).setWidth 16

/-- `net_checksum`. -/
def netChecksum (data : List UInt8) : BitVec 16 := checksumEnd (checksumLoop 0 data)

/-- `struct tcp_pseudo`, with its fields in network order. -/
def tcpPseudo (srcIp dstIp : BitVec 32) (tcpLen : BitVec 16) : List UInt8 :=
  be32Bytes srcIp ++ be32Bytes dstIp ++ [0, 6] ++ be16Bytes tcpLen

/-- `tcp_checksum` of a segment of `tcpLen` bytes: the pseudo header, then the segment. -/
def tcpChecksum (srcIp dstIp : BitVec 32) (seg : List UInt8) : BitVec 16 :=
  checksumEnd (checksumLoop (checksumLoop 0 (tcpPseudo srcIp dstIp (BitVec.ofNat 16 seg.length))) seg)

/-! ## Values -/

theorem checksumLoop_eq {l : List UInt8} {sum : ℕ} (h : sum + wordSum l < 2 ^ 32) :
    checksumLoop sum l = sum + wordSum l := by
  induction l using wordSum.induct generalizing sum with
  | case1 a b l ih =>
    rw [wordSum] at h
    have hlt : sum + (a.toNat * 256 + b.toNat) < 2 ^ 32 := Nat.lt_of_le_of_lt (by omega) h
    have hwrap : wrap 32 (sum + (a.toNat * 256 + b.toNat) : ℤ) = sum + (a.toNat * 256 + b.toNat) :=
      wrap_of_lt (by push_cast; rfl) hlt
    rw [checksumLoop, hwrap, ih (by omega), wordSum]
    omega
  | case2 a =>
    rw [wordSum] at h
    rw [checksumLoop, wordSum]
    exact wrap_of_lt (by omega) h
  | case3 => rfl

/-- The checksum is the complement of the folded sum. -/
theorem toNat_checksumEnd (sum : ℕ) : (checksumEnd sum).toNat = 65535 - foldCarries sum := by
  have hle := foldCarries_le sum
  rw [checksumEnd, BitVec.toNat_setWidth, BitVec.toNat_not, BitVec.toNat_ofNat]
  omega

/-- The checksum is zero if the sum folds to all ones. -/
theorem checksumEnd_eq_zero_iff {sum : ℕ} : checksumEnd sum = 0 ↔ foldCarries sum = 65535 := by
  have hle := foldCarries_le sum
  have hzero : (0 : BitVec 16).toNat = 0 := rfl
  rw [← BitVec.toNat_inj, toNat_checksumEnd, hzero]
  omega

/-- The accumulator has room for every string of this length. -/
theorem netChecksum_eq {l : List UInt8} (h : l.length ≤ 2 ^ 16 + 12) :
    netChecksum l = checksumEnd (wordSum l) := by
  have hle := wordSum_le l
  rw [netChecksum, checksumLoop_eq (by omega), Nat.zero_add]

/-- A word is the sum of its two bytes in network order. -/
theorem wordSum_be16Bytes (x : BitVec 16) : wordSum (be16Bytes x) = x.toNat := by
  have hbyte (k : ℕ) : (UInt8.ofBitVec (x.extractLsb' k 8)).toNat = x.toNat / 2 ^ k % 2 ^ 8 := by
    rw [UInt8.toNat, BitVec.extractLsb'_toNat, Nat.shiftRight_eq_div_pow]
  have hlt := x.isLt
  simp only [be16Bytes, wordSum, Nat.add_zero, hbyte]
  omega

theorem wordSum_be32Bytes (x : BitVec 32) : wordSum (be32Bytes x) = x.toNat / 2 ^ 16 + x.toNat % 2 ^ 16 := by
  have hbyte (k : ℕ) : (UInt8.ofBitVec (x.extractLsb' k 8)).toNat = x.toNat / 2 ^ k % 2 ^ 8 := by
    rw [UInt8.toNat, BitVec.extractLsb'_toNat, Nat.shiftRight_eq_div_pow]
  have hlt := x.isLt
  simp only [be32Bytes, List.map_cons, List.map_nil, wordSum, Nat.add_zero, hbyte]
  omega

@[simp] theorem length_be16Bytes (x : BitVec 16) : (be16Bytes x).length = 2 := rfl

@[simp] theorem length_be32Bytes (x : BitVec 32) : (be32Bytes x).length = 4 := rfl

@[simp] theorem length_tcpPseudo (srcIp dstIp : BitVec 32) (n : BitVec 16) :
    (tcpPseudo srcIp dstIp n).length = 12 := rfl

/-- The sum of a pseudo header. -/
theorem wordSum_tcpPseudo (srcIp dstIp : BitVec 32) (n : BitVec 16) :
    wordSum (tcpPseudo srcIp dstIp n) =
      wordSum (be32Bytes srcIp) + wordSum (be32Bytes dstIp) + 6 + n.toNat := by
  rw [tcpPseudo, wordSum_append (by simp), wordSum_append (by simp), wordSum_append (by simp),
    wordSum_be16Bytes]
  rfl

/-- `tcp_checksum` is `net_checksum` of the pseudo header with the segment behind it. -/
theorem tcpChecksum_eq (srcIp dstIp : BitVec 32) {seg : List UInt8} (h : seg.length < 2 ^ 16) :
    tcpChecksum srcIp dstIp seg =
      netChecksum (tcpPseudo srcIp dstIp (BitVec.ofNat 16 seg.length) ++ seg) := by
  have hlen : (tcpPseudo srcIp dstIp (BitVec.ofNat 16 seg.length) ++ seg).length = 12 + seg.length := by
    rw [List.length_append, length_tcpPseudo]
  have hle := wordSum_le (tcpPseudo srcIp dstIp (BitVec.ofNat 16 seg.length) ++ seg)
  have hsum : wordSum (tcpPseudo srcIp dstIp (BitVec.ofNat 16 seg.length) ++ seg) =
      wordSum (tcpPseudo srcIp dstIp (BitVec.ofNat 16 seg.length)) + wordSum seg :=
    wordSum_append (by simp) seg
  rw [hsum, hlen] at hle
  have hpseudo : checksumLoop 0 (tcpPseudo srcIp dstIp (BitVec.ofNat 16 seg.length)) =
      wordSum (tcpPseudo srcIp dstIp (BitVec.ofNat 16 seg.length)) := by
    rw [checksumLoop_eq (by omega), Nat.zero_add]
  rw [netChecksum_eq (by omega), tcpChecksum, hpseudo, checksumLoop_eq (by omega), hsum]

/-- A sum with its own checksum added has the checksum zero. -/
theorem checksumEnd_add (sum : ℕ) : checksumEnd (sum + (checksumEnd sum).toNat) = 0 := by
  rw [checksumEnd_eq_zero_iff, toNat_checksumEnd, foldCarries_add_complement]

/-- Storing a halfword in a zeroed field at an even offset adds it to the sum. -/
theorem wordSum_store {l : List UInt8} {k : ℕ} (hk : k % 2 = 0) (hin : k + 2 ≤ l.length)
    (hzero : slice l k 2 = [0, 0]) (x : BitVec 16) :
    wordSum (splice l k (be16Bytes x)) = wordSum l + x.toNat := by
  have hword := wordSum_be16Bytes x
  simp only [be16Bytes, wordSum, Nat.add_zero] at hword
  rw [be16Bytes, wordSum_splice hk hin hzero, hword]

/-- A string with its checksum in a field at an even offset has the checksum zero. -/
theorem netChecksum_stored {l : List UInt8} {k : ℕ} (hlen : l.length ≤ 65535) (hk : k % 2 = 0)
    (hin : k + 2 ≤ l.length) (hzero : slice l k 2 = [0, 0]) :
    netChecksum (splice l k (be16Bytes (netChecksum l))) = 0 := by
  have hsplice : (splice l k (be16Bytes (netChecksum l))).length = l.length :=
    length_splice (by rw [length_be16Bytes]; exact hin)
  rw [netChecksum_eq (by omega), wordSum_store hk hin hzero, netChecksum_eq (by omega), checksumEnd_add]

/-! ## Segments -/

/-- The header of a segment, with the checksum field set. -/
def TcpOut.header (o : TcpOut) (checksum : BitVec 16) : List UInt8 :=
  be16Bytes o.srcPort ++ be16Bytes o.dstPort ++ be32Bytes o.seq ++ be32Bytes o.ack ++ [0x50, ⟨o.flags⟩]
    ++ be16Bytes (BitVec.ofNat 16 o.window) ++ be16Bytes checksum ++ [0, 0]

/-- The bytes that `tcp_send_segment` hands to `ipv4_tx`, for a connection with this local address. -/
def TcpOut.segment (o : TcpOut) (localIp : BitVec 32) : List UInt8 :=
  o.header (tcpChecksum localIp o.remoteIp (o.header 0 ++ o.payload)) ++ o.payload

/-- What a packet says about a segment: the two addresses, and the bytes. -/
structure IpPacket where
  srcIp : BitVec 32
  dstIp : BitVec 32
  bytes : List UInt8

/-- `ipv4_tx`: the source is the address of the interface. -/
def ipv4Tx (net : TcpNet) (dstIp : BitVec 32) (bytes : List UInt8) : IpPacket := ⟨net.ip, dstIp, bytes⟩

/-- The check of the receiver: the checksum of the pseudo header of the packet with the segment is zero. -/
def IpPacket.Verifies (p : IpPacket) : Prop :=
  netChecksum (tcpPseudo p.srcIp p.dstIp (BitVec.ofNat 16 p.bytes.length) ++ p.bytes) = 0

/-- The ones-complement sum of the two halves of an address. -/
def addrSum (ip : BitVec 32) : ℕ := (ip.toNat / 2 ^ 16 + ip.toNat % 2 ^ 16) % 65535

@[simp] theorem TcpOut.length_header (o : TcpOut) (x : BitVec 16) : (o.header x).length = 20 := rfl

/-- The checksum is added to a header that has none. -/
theorem TcpOut.wordSum_segment (o : TcpOut) (x : BitVec 16) :
    wordSum (o.header x ++ o.payload) = wordSum (o.header 0 ++ o.payload) + x.toNat := by
  have hlen : (o.header 0 ++ o.payload).length = 20 + o.payload.length := by
    rw [List.length_append, length_header]
  have hsplice : o.header x ++ o.payload = splice (o.header 0 ++ o.payload) 16 (be16Bytes x) := rfl
  rw [hsplice, wordSum_store (by decide) (by omega) rfl]

/-- The sum of a plain segment behind a pseudo header, with the source address first. -/
theorem TcpOut.wordSum_pseudo (o : TcpOut) (srcIp : BitVec 32) (n : BitVec 16) (seg : List UInt8) :
    wordSum (tcpPseudo srcIp o.remoteIp n ++ seg) =
      wordSum (be32Bytes srcIp) + (wordSum (be32Bytes o.remoteIp) + 6 + n.toNat + wordSum seg) := by
  rw [wordSum_append (by simp), wordSum_tcpPseudo]
  omega

/-- Behind a pseudo header too, the checksum is added to the sum of the segment without it. -/
theorem TcpOut.wordSum_received (o : TcpOut) (srcIp : BitVec 32) (n x : BitVec 16) :
    wordSum (tcpPseudo srcIp o.remoteIp n ++ (o.header x ++ o.payload)) =
      wordSum (be32Bytes srcIp) + (wordSum (be32Bytes o.remoteIp) + 6 + n.toNat +
        wordSum (o.header 0 ++ o.payload)) + x.toNat := by
  rw [wordSum_pseudo, wordSum_segment]
  omega

/-- A segment verifies exactly if the address it was computed with and the address it is sent from have the
same ones-complement sum. -/
theorem TcpOut.verifies_segment (o : TcpOut) (net : TcpNet) (localIp : BitVec 32)
    (hlen : o.payload.length + 20 < 2 ^ 16) :
    (ipv4Tx net o.remoteIp (o.segment localIp)).Verifies ↔ addrSum localIp = addrSum net.ip := by
  have hplain : (o.header 0 ++ o.payload).length = 20 + o.payload.length := by
    rw [List.length_append, length_header]
  have hsegment : (o.segment localIp).length = 20 + o.payload.length := by
    rw [segment, List.length_append, length_header]
  have hreceived : (tcpPseudo net.ip o.remoteIp (BitVec.ofNat 16 (o.segment localIp).length) ++
      o.segment localIp).length = 12 + (20 + o.payload.length) := by
    rw [List.length_append, length_tcpPseudo, hsegment]
  have hcomputed : (tcpPseudo localIp o.remoteIp (BitVec.ofNat 16 (20 + o.payload.length)) ++
      (o.header 0 ++ o.payload)).length = 12 + (20 + o.payload.length) := by
    rw [List.length_append, length_tcpPseudo, hplain]
  simp only [IpPacket.Verifies, ipv4Tx]
  rw [netChecksum_eq (by omega), hsegment, segment, wordSum_received, tcpChecksum_eq _ _ (by omega), hplain,
    netChecksum_eq (by omega), wordSum_pseudo, checksumEnd_eq_zero_iff, toNat_checksumEnd,
    foldCarries_cancel (by omega), wordSum_be32Bytes, wordSum_be32Bytes, addrSum, addrSum]

/-- The buffer of a segment bounds its length. -/
theorem length_of_netbufPut {n : ℕ} (h : ((netbufPut netbufAlloc n).bind (netbufPush · 20)).isSome) :
    n ≤ 1984 := by
  by_contra hlong
  rw [netbufPut, if_pos (by simp only [netbufSize, netbufAlloc, netbufHeadroom]; omega)] at h
  cases h

/-- Checksums verify. Storing the checksum of a string in a zeroed field at an even offset makes the checksum
of the result zero, and `tcp_checksum` is the checksum of the pseudo header with the segment. A segment that
`tcp_send_segment` builds verifies against the packet it travels in exactly if the local address of the
connection and the address of the interface have the same sum. -/
theorem checksum_verifies (net : TcpNet) (env : TcpEnv) (c : TcpConn) :
    (∀ (l : List UInt8) (k : ℕ), l.length ≤ 65535 → k % 2 = 0 → k + 2 ≤ l.length → slice l k 2 = [0, 0] →
      netChecksum (splice l k (be16Bytes (netChecksum l))) = 0) ∧
    (∀ (srcIp dstIp : BitVec 32) (seg : List UInt8), seg.length < 2 ^ 16 →
      tcpChecksum srcIp dstIp seg =
        netChecksum (tcpPseudo srcIp dstIp (BitVec.ofNat 16 seg.length) ++ seg)) ∧
    ∀ (flags : BitVec 8) (seq : BitVec 32) (data : List UInt8) (o : TcpOut),
      ((netbufPut netbufAlloc data.length).bind (netbufPush · 20)).isSome →
      (tcpSendSegment env flags seq data c).out = c.out ++ [o] →
      ((ipv4Tx net o.remoteIp (o.segment c.localIp)).Verifies ↔ addrSum c.localIp = addrSum net.ip) := by
  refine ⟨fun l k hlen hk hin hzero => netChecksum_stored hlen hk hin hzero,
    fun srcIp dstIp seg h => tcpChecksum_eq srcIp dstIp h, ?_⟩
  intro flags seq data o hnb hout
  have hpayload : o.payload = data := by
    obtain rfl := (List.cons.inj (List.append_cancel_left hout)).1
    rfl
  have hlen := length_of_netbufPut hnb
  exact o.verifies_segment net c.localIp (by rw [hpayload]; omega)

/-- The SYN of a connection from the interface address verifies. -/
theorem checksum_verifies_syn :
    let net : TcpNet := ⟨9, fun _ _ => true⟩
    let c := (Run.run (tcpStep net) (tcpInit 40000) [.connect 0 7 80 true]).conns 0
    (slice [1, 2, 0, 0, 5] 2 2 = [0, 0] ∧
      netChecksum (splice [1, 2, 0, 0, 5] 2 (be16Bytes (netChecksum [1, 2, 0, 0, 5]))) = 0) ∧
    tcpChecksum 9 7 [1, 2, 3] = netChecksum (tcpPseudo 9 7 3 ++ [1, 2, 3]) ∧
    c.localIp = 9 ∧ ∃ o, c.out = [o] ∧ (ipv4Tx net o.remoteIp (o.segment c.localIp)).Verifies := by
  intro net c
  have hout : ∃ o, c.out = [o] := List.length_eq_one_iff.1 (by decide +kernel)
  have hsent : c.out =
      (tcpSendSegment ((tcpInit 40000).env net 0) tcpSyn c.iss [] { c with out := [] }).out := by
    decide +kernel
  obtain ⟨o, ho⟩ := hout
  obtain ⟨hstored, htcp, hsegment⟩ := checksum_verifies net ((tcpInit 40000).env net 0) { c with out := [] }
  refine ⟨⟨rfl, hstored _ 2 (by decide) (by decide) (by decide) rfl⟩, htcp 9 7 _ (by decide),
    by decide +kernel, o, ho, ?_⟩
  refine (hsegment tcpSyn c.iss [] o (by decide) (hsent.symm.trans ho)).2 ?_
  decide +kernel

/-- A listener answers a SYN that was sent to the broadcast address. The reply is computed with that address
and sent from the address of the interface. -/
theorem broadcast_reply_does_not_verify :
    ¬∀ ops : List TcpOp,
      let s := Run.run (tcpStep ⟨9, fun _ _ => true⟩) (tcpInit 40000) ops
      ∀ i, ∀ o ∈ (s.conns i).out,
        (ipv4Tx ⟨9, fun _ _ => true⟩ o.remoteIp (o.segment (s.conns i).localIp)).Verifies := by
  intro h
  have hreply := h [.listen 0 80, .rx (plainSegment 0x04000050 100 0 tcpSyn []) 7 0xFFFFFFFF] 1
  generalize hc : TcpSys.conns (Run.run _ _ _) 1 = c at hreply
  have hlocal : c.localIp = 0xFFFFFFFF := by
    rw [← hc]
    decide +kernel
  have hout : ∃ o, c.out = [o] ∧ o.payload = [] := by
    rw [← hc]
    refine ⟨_, rfl, rfl⟩
  obtain ⟨o, hout, hpayload⟩ := hout
  have hverifies := hreply o (by rw [hout]; exact List.mem_singleton_self o)
  rw [o.verifies_segment _ _ (by rw [hpayload]; decide), hlocal] at hverifies
  revert hverifies
  decide

/-- A change of one aligned halfword changes the checksum, unless it is between 0 and 0xFFFF and another word
is not zero. -/
theorem checksum_misses_iff (pre post : List UInt8) (x y : BitVec 16) (heven : pre.length % 2 = 0)
    (hlen : pre.length + post.length ≤ 2 ^ 16) :
    netChecksum (pre ++ be16Bytes x ++ post) = netChecksum (pre ++ be16Bytes y ++ post) ↔
      x = y ∨ x.toNat % 65535 = y.toNat % 65535 ∧ wordSum (pre ++ post) ≠ 0 := by
  have hsum (z : BitVec 16) : netChecksum (pre ++ be16Bytes z ++ post) =
      checksumEnd (wordSum (pre ++ post) + z.toNat) := by
    rw [netChecksum_eq (by simp; omega), wordSum_append (by simp; omega), wordSum_append heven,
      wordSum_append heven, wordSum_be16Bytes]
    congr 1
    omega
  have hx := x.isLt
  have hy := y.isLt
  rw [hsum, hsum, ← BitVec.toNat_inj, toNat_checksumEnd, toNat_checksumEnd, foldCarries_eq, foldCarries_eq,
    ← BitVec.toNat_inj]
  split <;> split <;> omega

theorem checksum_misses_iff_bit : netChecksum [1, 2, 3] ≠ netChecksum [1, 3, 3] :=
  fun h => absurd ((checksum_misses_iff [] [3] 0x102 0x103 rfl (by decide)).1 h) (by decide)

end PlantOS.Net
