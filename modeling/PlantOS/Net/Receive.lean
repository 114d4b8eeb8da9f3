import PlantOS.Net.Netbuf

/-!
# The receive path

Model of `e1000_handle_rx`, `eth_rx` and `ipv4_rx`: a frame is copied into a netbuf behind its headroom, and
the headers are stripped on the way to `arp_rx`, `icmp_rx`, `tcp_rx` or `udp_rx`.

Two of the lengths involved are not checked against each other. The copy takes up to 2048 bytes, although
the headroom leaves 1984 of the buffer; and the length of an IP packet is set from its own `total_len`,
whatever has been received. `FrameFits` is what a frame has to satisfy for both to be harmless.

A copy of more than 1984 bytes runs over `data`, `len` and `next`, which lie behind `raw` in the netbuf; what
happens then is not modelled, since the netbuf is out of bounds already.

Reference: `drivers/e1000.c`, `net/ethernet.c`, `net/ipv4.c`.
-/

namespace PlantOS.Net

/-- `DESC_DD`. -/
def descDd : BitVec 8 := 1

/-- `ETH_HLEN`. -/
def ethHlen : ℕ := 14

/-- `sizeof(struct ipv4_header)`. -/
def ipv4HeaderSize : ℕ := 20

/-- The function that a received packet is passed to, with its arguments. -/
inductive RxHandler where
  /-- `netbuf_free`: the packet is dropped. -/
  | free
  | arp (nb : Netbuf)
  | icmp (nb : Netbuf) (srcIp : BitVec 32)
  | tcp (nb : Netbuf) (srcIp dstIp : BitVec 32)
  | udp (nb : Netbuf) (srcIp : BitVec 32)

/-- The netbuf that is passed on. -/
def RxHandler.netbuf : RxHandler → Option Netbuf
  | .free => none
  | .arp nb | .icmp nb _ | .tcp nb _ _ | .udp nb _ => some nb

/-- `ver_ihl`, split; `ihl` counts words. -/
def Netbuf.version (nb : Netbuf) : ℕ := (nb.byte 0).toNat / 16

def Netbuf.ihl (nb : Netbuf) : ℕ := (nb.byte 0).toNat % 16

/-- `ntohs(ip->total_len)`. -/
def Netbuf.totalLen (nb : Netbuf) : ℕ := (nb.be16 2).toNat

/-- `ipv4_rx`. -/
def ipv4Rx (nb : Netbuf) : RxHandler :=
  if nb.len < ipv4HeaderSize then .free
  else if nb.version ≠ 4 ∨ nb.ihl < 5 then .free
  else
    let hdrLen := nb.ihl * 4
    let srcIp := nb.be32 12
    let dstIp := nb.be32 16
    let proto := nb.byte 9
    let totalLen := nb.totalLen
    let nb := netbufPull nb hdrLen
    let nb := if hdrLen < totalLen then { nb with len := totalLen - hdrLen } else nb
    if proto = 1 then .icmp nb srcIp
    else if proto = 6 then .tcp nb srcIp dstIp
    else if proto = 17 then .udp nb srcIp
    else .free

/-- What `eth_rx` does with a frame: the address it has `arp_learn` remember, and the handler. -/
structure EthRx where
  learned : Option (BitVec 32 × List UInt8)
  handler : RxHandler

/-- `ntohs(hdr->ethertype)`. -/
def Netbuf.ethertype (nb : Netbuf) : BitVec 16 := nb.be16 12

/-- `eth_rx`. -/
def ethRx (nb : Netbuf) : EthRx :=
  if nb.len < ethHlen then ⟨none, .free⟩
  else
    let type := nb.ethertype
    let srcIp := nb.be32 (ethHlen + 12)
    let learned := if type = 0x0800 ∧ ethHlen + 20 ≤ nb.len ∧ srcIp ≠ 0 then
        some (srcIp, (List.range 6).map fun i => nb.byte (6 + i))
      else none
    let nb := netbufPull nb ethHlen
    ⟨learned, if type = 0x0806 then .arp nb else if type = 0x0800 then ipv4Rx nb else .free⟩

/-- The receive descriptors of the card and their buffers. -/
structure E1000Rx where
  status : Fin 32 → BitVec 8
  length : Fin 32 → BitVec 16
  bufs : Fin 32 → ℕ → UInt8
  tail : Fin 32

/-- The netbuf after the copy. -/
def rxCopy (buf : ℕ → UInt8) (len : ℕ) : Netbuf :=
  let nb := netbufAlloc
  { nb with raw := fun i => if nb.data ≤ i ∧ i < nb.data + len then buf (i - nb.data) else nb.raw i
            len := len }

/-- One iteration of `e1000_handle_rx`, if a frame has been received; `alloc` says whether `netbuf_alloc`
succeeds. The netbuf after the copy is returned together with what `eth_rx` does with it. -/
def e1000HandleRx (alloc : Bool) (s : E1000Rx) : Option (E1000Rx × Option (Netbuf × EthRx)) :=
  if s.status s.tail &&& descDd = 0 then none
  else
    let len := (s.length s.tail).toNat
    let nb := rxCopy (s.bufs s.tail) len
    some ({ s with status := Function.update s.status s.tail 0, tail := s.tail + 1 },
      if 0 < len ∧ len ≤ 2048 ∧ alloc then some (nb, ethRx nb) else none)

/-! ## Bounds -/

/-- The netbuf's data lies in its buffer. -/
def Netbuf.InBounds (nb : Netbuf) : Prop := nb.data + nb.len ≤ netbufSize

/-- The netbuf's data lies within the `len` bytes that were copied behind the headroom. -/
def Netbuf.Within (nb : Netbuf) (len : ℕ) : Prop :=
  netbufHeadroom ≤ nb.data ∧ nb.data + nb.len ≤ netbufHeadroom + len

instance (nb : Netbuf) : Decidable nb.InBounds := inferInstanceAs (Decidable (_ ≤ _))

instance (nb : Netbuf) (len : ℕ) : Decidable (nb.Within len) := inferInstanceAs (Decidable (_ ∧ _))

/-- The IP packet of `len` bytes in `nb` does not claim to be longer than it is. Without room for the options
that `ihl` announces, the header is not stripped, and only what follows it is counted. -/
def Netbuf.PacketFits (nb : Netbuf) (len : ℕ) : Prop :=
  ipv4HeaderSize ≤ len → nb.version = 4 → 5 ≤ nb.ihl → (nb.byte 9 = 1 ∨ nb.byte 9 = 6 ∨ nb.byte 9 = 17) →
    nb.ihl * 4 < nb.totalLen →
    if nb.ihl * 4 ≤ len then nb.totalLen ≤ len else nb.totalLen - nb.ihl * 4 ≤ len

/-- The frame fits behind the headroom, and an IP packet in it does not claim to be longer than it is. -/
def FrameFits (buf : ℕ → UInt8) (len : ℕ) : Prop :=
  let nb := rxCopy buf len
  netbufHeadroom + len ≤ netbufSize ∧
    (nb.ethertype = 0x0800 → ethHlen ≤ len → (netbufPull nb ethHlen).PacketFits (len - ethHlen))

instance (nb : Netbuf) (len : ℕ) : Decidable (nb.PacketFits len) :=
  inferInstanceAs (Decidable (ipv4HeaderSize ≤ len → nb.version = 4 → 5 ≤ nb.ihl →
    (nb.byte 9 = 1 ∨ nb.byte 9 = 6 ∨ nb.byte 9 = 17) → nb.ihl * 4 < nb.totalLen →
    if nb.ihl * 4 ≤ len then nb.totalLen ≤ len else nb.totalLen - nb.ihl * 4 ≤ len))

instance (buf : ℕ → UInt8) (len : ℕ) : Decidable (FrameFits buf len) :=
  inferInstanceAs (Decidable (_ ∧ (_ → _ → Netbuf.PacketFits _ _)))

theorem netbufPull_of_le {nb : Netbuf} {len : ℕ} (h : len ≤ nb.len) :
    netbufPull nb len = { nb with data := nb.data + len, len := nb.len - len } :=
  if_neg (by omega)

/-- The netbuf after the header has been stripped and the padding trimmed. -/
def ipv4Trim (nb : Netbuf) : Netbuf :=
  if nb.ihl * 4 < nb.totalLen then { netbufPull nb (nb.ihl * 4) with len := nb.totalLen - nb.ihl * 4 }
  else netbufPull nb (nb.ihl * 4)

/-- What `ipv4_rx` passes on. -/
theorem ipv4Rx_netbuf (nb : Netbuf) : (ipv4Rx nb).netbuf =
    if ipv4HeaderSize ≤ nb.len ∧ nb.version = 4 ∧ 5 ≤ nb.ihl ∧
      (nb.byte 9 = 1 ∨ nb.byte 9 = 6 ∨ nb.byte 9 = 17) then some (ipv4Trim nb) else none := by
  by_cases hlen : nb.len < ipv4HeaderSize
  · rw [ipv4Rx, if_pos hlen, if_neg (by omega)]
    rfl
  by_cases hver : nb.version ≠ 4 ∨ nb.ihl < 5
  · rw [ipv4Rx, if_neg hlen, if_pos hver, if_neg (by omega)]
    rfl
  have hpass : ipv4Rx nb = if nb.byte 9 = 1 then .icmp (ipv4Trim nb) (nb.be32 12)
      else if nb.byte 9 = 6 then .tcp (ipv4Trim nb) (nb.be32 12) (nb.be32 16)
      else if nb.byte 9 = 17 then .udp (ipv4Trim nb) (nb.be32 12) else .free := by
    rw [ipv4Rx, if_neg hlen, if_neg hver]
    rfl
  have hhead : ipv4HeaderSize ≤ nb.len ∧ nb.version = 4 ∧ 5 ≤ nb.ihl := by omega
  rw [hpass]
  by_cases hicmp : nb.byte 9 = 1
  · rw [if_pos hicmp, if_pos ⟨hhead.1, hhead.2.1, hhead.2.2, .inl hicmp⟩]
    rfl
  rw [if_neg hicmp]
  by_cases htcp : nb.byte 9 = 6
  · rw [if_pos htcp, if_pos ⟨hhead.1, hhead.2.1, hhead.2.2, .inr (.inl htcp)⟩]
    rfl
  rw [if_neg htcp]
  by_cases hudp : nb.byte 9 = 17
  · rw [if_pos hudp, if_pos ⟨hhead.1, hhead.2.1, hhead.2.2, .inr (.inr hudp)⟩]
    rfl
  · rw [if_neg hudp, if_neg (by simp [hicmp, htcp, hudp])]
    rfl

/-- Stripping and trimming stay within the packet exactly if its lengths are consistent. -/
theorem ipv4Trim_within {nb : Netbuf} {n : ℕ} (hdata : netbufHeadroom ≤ nb.data)
    (hlen : nb.data + nb.len = netbufHeadroom + n) :
    (ipv4Trim nb).Within n ↔ (nb.ihl * 4 < nb.totalLen →
      if nb.ihl * 4 ≤ nb.len then nb.totalLen ≤ nb.len else nb.totalLen - nb.ihl * 4 ≤ nb.len) := by
  by_cases hpull : nb.ihl * 4 ≤ nb.len
  · rw [if_pos hpull, ipv4Trim, netbufPull_of_le hpull]
    by_cases htrim : nb.ihl * 4 < nb.totalLen
    · rw [if_pos htrim, Netbuf.Within, forall_prop_of_true htrim]
      simp only
      omega
    · rw [if_neg htrim, Netbuf.Within]
      simp only [htrim, false_implies, iff_true]
      omega
  · -- the header is not stripped
    have hkeep : netbufPull nb (nb.ihl * 4) = nb := if_pos (by omega)
    rw [if_neg hpull, ipv4Trim, hkeep]
    by_cases htrim : nb.ihl * 4 < nb.totalLen
    · rw [if_pos htrim, Netbuf.Within, forall_prop_of_true htrim]
      simp only
      omega
    · rw [if_neg htrim, Netbuf.Within]
      simp only [htrim, false_implies, iff_true]
      omega

/-- `ipv4_rx` passes on what lies in the packet, exactly if its lengths are consistent. -/
theorem ipv4Rx_within {nb : Netbuf} {n : ℕ} (hdata : netbufHeadroom ≤ nb.data)
    (hlen : nb.data + nb.len = netbufHeadroom + n) :
    (∀ nb' ∈ (ipv4Rx nb).netbuf, nb'.Within n) ↔ nb.PacketFits nb.len := by
  rw [ipv4Rx_netbuf, Netbuf.PacketFits, ← ipv4Trim_within hdata hlen]
  constructor
  · intro h hsize hver hihl hproto
    refine h _ ?_
    rw [if_pos ⟨hsize, hver, hihl, hproto⟩]
    rfl
  · intro h nb' hnb'
    split at hnb'
    · rename_i hpass
      obtain rfl := Option.some.inj hnb'
      exact h hpass.1 hpass.2.1 hpass.2.2.1 hpass.2.2.2
    · cases hnb'

/-- `eth_rx` passes on what lies in the frame, exactly if an IP packet in it has consistent lengths. -/
theorem ethRx_within {nb : Netbuf} {n : ℕ} (hdata : nb.data = netbufHeadroom) (hlen : nb.len = n) :
    (∀ nb' ∈ (ethRx nb).handler.netbuf, nb'.Within n) ↔
      (nb.ethertype = 0x0800 → ethHlen ≤ n → (netbufPull nb ethHlen).PacketFits (n - ethHlen)) := by
  subst hlen
  by_cases hshort : nb.len < ethHlen
  · rw [ethRx, if_pos hshort]
    exact iff_of_true (fun _ h => by cases h) fun _ h => absurd h (by omega)
  have hpull := netbufPull_of_le (Nat.le_of_not_lt hshort)
  rw [ethRx, if_neg hshort]
  simp only
  by_cases harp : nb.ethertype = 0x0806
  · rw [if_pos harp]
    refine iff_of_true (fun nb' h => ?_) fun h => absurd (harp.symm.trans h) (by decide)
    obtain rfl := Option.some.inj h
    rw [hpull, Netbuf.Within]
    simp only
    omega
  rw [if_neg harp]
  by_cases hip : nb.ethertype = 0x0800
  · rw [if_pos hip]
    have hinner := @ipv4Rx_within (netbufPull nb ethHlen) nb.len
      (by rw [hpull, ← hdata]; exact Nat.le_add_right _ _) (by rw [hpull, ← hdata]; simp only; omega)
    have hrest : (netbufPull nb ethHlen).len = nb.len - ethHlen := by rw [hpull]
    rw [hinner, hrest]
    exact ⟨fun h _ _ => h, fun h => h hip (by omega)⟩
  · rw [if_neg hip]
    exact iff_of_true (fun _ h => by cases h) fun h => absurd h hip

/-- For every frame of 1 to 2048 bytes: the netbuf is in bounds after the copy, and whatever is passed on lies
within the bytes received, exactly if the frame fits. -/
theorem e1000_rx_within_iff {s s' : E1000Rx} {nb : Netbuf} {r : EthRx}
    (h : e1000HandleRx true s = some (s', some (nb, r))) :
    (nb.InBounds ∧ ∀ nb' ∈ r.handler.netbuf, nb'.Within (s.length s.tail).toNat) ↔
      FrameFits (s.bufs s.tail) (s.length s.tail).toNat := by
  simp only [e1000HandleRx] at h
  split at h
  · cases h
  split at h
  swap
  · cases h
  simp only [Option.some.injEq, Prod.mk.injEq] at h
  obtain ⟨-, rfl, rfl⟩ := h
  exact and_congr Iff.rfl (ethRx_within rfl rfl)

/-- A ring in which one frame has been received. -/
def oneFrame (len : BitVec 16) (bytes : List UInt8) : E1000Rx :=
  { status := fun _ => descDd, length := fun _ => len, bufs := fun _ i => bytes.getD i 0, tail := 0 }

/-- The Ethernet and IP headers of an ICMP packet, with the given `total_len`. -/
def icmpHeader (totalLen : UInt8) : List UInt8 :=
  List.replicate 12 0xFF ++ [0x08, 0x00, 0x45, 0, 0, totalLen, 0, 0, 0, 0, 64, 1] ++
    List.replicate 10 0

/-- A padded ping of 28 bytes. -/
theorem e1000_rx_within_iff_ping :
    let s := oneFrame 60 (icmpHeader 28)
    let nb := rxCopy (s.bufs s.tail) 60
    FrameFits (s.bufs s.tail) 60 ∧ nb.InBounds ∧ ∀ nb' ∈ (ethRx nb).handler.netbuf, nb'.Within 60 :=
  ⟨by decide +kernel,
    (@e1000_rx_within_iff (oneFrame 60 (icmpHeader 28)) _ _ _ rfl).mpr (by decide +kernel)⟩

/-- A frame of 2000 bytes runs over the end of the netbuf; and a frame of 60 bytes whose IP header claims 200
is passed on with 180 bytes of data. -/
theorem e1000_rx_outside :
    (∃ s' nb r, e1000HandleRx true (oneFrame 2000 []) = some (s', some (nb, r)) ∧ ¬nb.InBounds) ∧
    ∃ s' nb r, e1000HandleRx true (oneFrame 60 (icmpHeader 200)) = some (s', some (nb, r)) ∧
      ¬∀ nb' ∈ r.handler.netbuf, nb'.Within 60 :=
  ⟨⟨_, _, _, rfl, by decide +kernel⟩, _, _, _, rfl, by decide +kernel⟩

end PlantOS.Net
