import PlantOS.Net.Netbuf

/-!
# The functions of the DNS resolver

Model of what `net/dns.c` computes: the parser of replies, the encoder of names, the cache and the
recognition of numeric addresses. A packet is a memory and a length, as `dns_process_reply` gets it. A
host name is the list of its bytes before the NUL.

Reference: `net/dns.c`.
-/

namespace PlantOS.Net

/-! ## Replies -/

/-- `DNS_FLAG_QR`. -/
def dnsFlagQr : BitVec 16 := 0x8000
/-- `DNS_FLAG_RD`. -/
def dnsFlagRd : BitVec 16 := 0x0100
/-- `DNS_RCODE_MASK`. -/
def dnsRcodeMask : BitVec 16 := 0x000F
/-- `DNS_TYPE_A`. -/
def dnsTypeA : BitVec 16 := 1
/-- `DNS_CLASS_IN`. -/
def dnsClassIn : BitVec 16 := 1
/-- `sizeof(struct dns_header)`. -/
def dnsHeaderSize : ℕ := 12

/-- The variables through which `dns_process_reply` and `dns_resolve` communicate. -/
structure DnsReply where
  /-- `dns_reply_received`. -/
  received : Bool
  /-- `dns_reply_id`. -/
  id : BitVec 16
  /-- `dns_resolved_ip`. -/
  ip : BitVec 32
  /-- `dns_reply_rcode`. -/
  rcode : ℤ

/-- What `dns_process_reply` finds in a packet. -/
structure DnsAnswer where
  id : BitVec 16
  ip : BitVec 32
  rcode : ℕ
deriving DecidableEq

/-- The halfword at `data + i`, most significant byte first. -/
def be16At (data : ℕ → UInt8) (i : ℕ) : BitVec 16 := (data i).toBitVec ++ (data (i + 1)).toBitVec

/-- The word at `data + i`, most significant byte first. -/
def be32At (data : ℕ → UInt8) (i : ℕ) : BitVec 32 := be16At data i ++ be16At data (i + 2)

/-- `dns_skip_name`. -/
def dnsSkipName (data : ℕ → UInt8) (pos len : ℕ) : Option ℕ :=
  if pos < len then
    if data pos = 0 then some (pos + 1)
    else if data pos &&& 0xC0 = 0xC0 then some (pos + 2)
    else dnsSkipName data (pos + 1 + (data pos).toNat) len
  else none
termination_by len - pos

/-- The loop of `dns_process_reply` over the question section. -/
def dnsSkipQuestions (data : ℕ → UInt8) (len : ℕ) : ℕ → ℕ → Option ℕ
  | 0, pos => some pos
  | qdcount + 1, pos =>
    match dnsSkipName data pos len with
    | none => none
    | some pos => if len < pos + 4 then none else dnsSkipQuestions data len qdcount (pos + 4)

/-- The loop of `dns_process_reply` over the answer section: the first A record, 0 if there is none. -/
def dnsFindAddress (data : ℕ → UInt8) (len : ℕ) : ℕ → ℕ → Option (BitVec 32)
  | 0, _ => some 0
  | ancount + 1, pos =>
    match dnsSkipName data pos len with
    | none => none
    | some pos =>
      if len < pos + 10 then none
      else
        let rtype := be16At data pos
        let rdlength := (be16At data (pos + 8)).toNat
        let pos := pos + 10
        if len < pos + rdlength then none
        else if rtype = dnsTypeA ∧ rdlength = 4 then some (be32At data pos)
        else dnsFindAddress data len ancount (pos + rdlength)

/-- `dns_process_reply` up to its stores; `none` if it returns before them. -/
def dnsParse (data : ℕ → UInt8) (len : ℕ) : Option DnsAnswer :=
  if len < dnsHeaderSize then none
  else
    let flags := be16At data 2
    let qdcount := (be16At data 4).toNat
    let ancount := (be16At data 6).toNat
    if flags &&& dnsFlagQr = 0 then none
    else match dnsSkipQuestions data len qdcount dnsHeaderSize with
      | none => none
      | some pos =>
        match dnsFindAddress data len ancount pos with
        | none => none
        | some resolved =>
          some { id := be16At data 0, ip := resolved, rcode := (flags &&& dnsRcodeMask).toNat }

/-- The stores of `dns_process_reply`. -/
def DnsAnswer.store (a : DnsAnswer) : DnsReply :=
  { received := true, id := a.id, ip := a.ip, rcode := a.rcode }

/-- `dns_process_reply`. -/
def dnsProcessReply (data : ℕ → UInt8) (len : ℕ) (r : DnsReply) : DnsReply :=
  match dnsParse data len with
  | none => r
  | some a => a.store

/-! ## Queries -/

/-- `'.'`. -/
def dnsDot : UInt8 := 46

/-- `dns_encode_name` from the position `pos` of the buffer on: the bytes it writes. -/
def dnsEncodeName (bufsize : ℕ) (pos : ℕ) (name : List UInt8) : Option (List UInt8) :=
  if _ : name = [] then
    if bufsize ≤ pos then none else some [0]
  else
    let label := name.takeWhile (· ≠ dnsDot)
    let rest := name.dropWhile (· ≠ dnsDot)
    if 63 < label.length ∨ bufsize ≤ pos + label.length + 1 then none
    else (dnsEncodeName bufsize (pos + 1 + label.length) rest.tail).map fun bytes =>
      UInt8.ofNat label.length :: (label ++ bytes)
termination_by name.length
decreasing_by
  have hlen : (name.dropWhile (· ≠ dnsDot)).length ≤ name.length :=
    (List.dropWhile_sublist _).length_le
  have hpos := List.length_pos_of_ne_nil ‹name ≠ []›
  simp only [List.length_tail]
  omega

/-- A query as `dns_resolve` builds it. -/
structure DnsQuery where
  host : List UInt8
  txid : BitVec 16
  /-- The bytes of `qbuf`. -/
  packet : List UInt8
deriving DecidableEq

/-- The query for `host`, if its name can be encoded. -/
def dnsBuildQuery (host : List UInt8) (txid : BitVec 16) : Option DnsQuery :=
  (dnsEncodeName (256 - dnsHeaderSize - 4) 0 host).map fun name =>
    { host := host, txid := txid
      packet := be16Bytes txid ++ be16Bytes dnsFlagRd ++ be16Bytes 1 ++ be16Bytes 0 ++ be16Bytes 0 ++
        be16Bytes 0 ++ name ++ be16Bytes dnsTypeA ++ be16Bytes dnsClassIn }

/-- The test of `dns_resolve` for a numeric address. -/
def dnsIsIp (host : List UInt8) : Bool := host.all fun c => c = dnsDot ∨ (48 ≤ c ∧ c ≤ 57)

/-- The loop of `dns_resolve` over a numeric address. -/
def dnsParseParts : List UInt8 → ℕ → (ℕ → BitVec 32) → (ℕ → BitVec 32)
  | [], _, parts => parts
  | c :: cs, part, parts =>
    if part < 4 then
      if c = dnsDot then dnsParseParts cs (part + 1) parts
      else dnsParseParts cs part
        (Function.update parts part (parts part * 10 + ((c.toBitVec.setWidth 32) - 48)))
    else parts

/-- The address `dns_resolve` reads from a numeric host name. -/
def dnsParseIp (host : List UInt8) : BitVec 32 :=
  let parts := dnsParseParts host 0 fun _ => 0
  parts 0 <<< 24 ||| parts 1 <<< 16 ||| parts 2 <<< 8 ||| parts 3

/-! ## The cache -/

/-- `struct dns_cache_entry`. -/
structure DnsCacheEntry where
  hostname : List UInt8
  ip : BitVec 32
  timestamp : BitVec 32
  valid : Bool

/-- The cache at boot. -/
def dnsCacheInit : Fin 8 → DnsCacheEntry := fun _ => ⟨[], 0, 0, false⟩

/-- The comparison loop of `dns_cache_lookup`. -/
def dnsNameEq : List UInt8 → List UInt8 → Bool
  | [], [] => true
  | a :: as, b :: bs => if a ≠ b then false else dnsNameEq as bs
  | _, _ => false

/-- `dns_cache_lookup`. -/
def dnsCacheLookup (cache : Fin 8 → DnsCacheEntry) (hostname : List UInt8) : Option (BitVec 32) :=
  ((List.finRange 8).find? fun i => (cache i).valid && dnsNameEq hostname (cache i).hostname).map
    fun i => (cache i).ip

/-- The search of `dns_cache_insert`: the first free slot, or else the oldest. -/
def dnsCacheSlot (cache : Fin 8 → DnsCacheEntry) : List (Fin 8) → Fin 8 → BitVec 32 → Fin 8
  | [], best, _ => best
  | i :: is, best, oldest =>
    if ¬(cache i).valid then i
    else if (cache i).timestamp < oldest then dnsCacheSlot cache is i (cache i).timestamp
    else dnsCacheSlot cache is best oldest

/-- The slot that an insertion overwrites. -/
def dnsInsertSlot (cache : Fin 8 → DnsCacheEntry) : Fin 8 := dnsCacheSlot cache (List.finRange 8) 0 0xFFFFFFFF

/-- `dns_cache_insert` at the tick `now`. -/
def dnsCacheInsert (cache : Fin 8 → DnsCacheEntry) (now : BitVec 32) (hostname : List UInt8)
    (ip : BitVec 32) : Fin 8 → DnsCacheEntry :=
  Function.update cache (dnsInsertSlot cache)
    { hostname := hostname.take 63, ip := ip, timestamp := now, valid := true }

end PlantOS.Net
