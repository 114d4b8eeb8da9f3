import PlantOS.Net.Udp
import Mathlib.Data.List.TakeWhile

/-!
# DNS packets

Properties of the functions of `net/dns.c` that walk over packets.

`dns_process_reply` reads only inside the packet: `dnsParseIn` is the parser with a check at every read, and
the check never fails.

`dns_encode_name` writes a length and the bytes for each label, and a zero at the end. A name with an empty
label (a leading dot, or two dots in a row) gets a zero in the middle, and a reader stops there. These are the
only names for which the result is not the encoding of the name. The parser skips every other name as it was
written, and finds the address behind it.

Reference: `net/dns.c`.
-/

namespace PlantOS.Net

/-! ## Reads of the parser -/

/-- `data[i]` in a packet of `len` bytes; `none` if the read is outside. -/
def readIn (data : ℕ → UInt8) (len i : ℕ) : Option UInt8 := if i < len then some (data i) else none

/-- The halfword at `data + i`, most significant byte first. -/
def be16In (data : ℕ → UInt8) (len i : ℕ) : Option (BitVec 16) := do
  let hi ← readIn data len i
  let lo ← readIn data len (i + 1)
  return hi.toBitVec ++ lo.toBitVec

/-- `dns_skip_name`. -/
def dnsSkipNameIn (data : ℕ → UInt8) (pos len : ℕ) : Option (Option ℕ) :=
  if pos < len then do
    let label ← readIn data len pos
    if label = 0 then return some (pos + 1)
    else if label &&& 0xC0 = 0xC0 then return some (pos + 2)
    else dnsSkipNameIn data (pos + 1 + label.toNat) len
  else return none
termination_by len - pos

/-- The loop over the question section. -/
def dnsSkipQuestionsIn (data : ℕ → UInt8) (len : ℕ) : ℕ → ℕ → Option (Option ℕ)
  | 0, pos => return some pos
  | qdcount + 1, pos => do
    match ← dnsSkipNameIn data pos len with
    | none => return none
    | some pos => if len < pos + 4 then return none else dnsSkipQuestionsIn data len qdcount (pos + 4)

/-- The loop over the answer section. -/
def dnsFindAddressIn (data : ℕ → UInt8) (len : ℕ) : ℕ → ℕ → Option (Option (BitVec 32))
  | 0, _ => return some 0
  | ancount + 1, pos => do
    match ← dnsSkipNameIn data pos len with
    | none => return none
    | some pos =>
      if len < pos + 10 then return none
      else
        let rtype ← be16In data len pos
        let rdlength ← be16In data len (pos + 8)
        let rdlength := rdlength.toNat
        let pos := pos + 10
        if len < pos + rdlength then return none
        else if rtype = dnsTypeA ∧ rdlength = 4 then
          let hi ← be16In data len pos
          let lo ← be16In data len (pos + 2)
          return some (hi ++ lo)
        else dnsFindAddressIn data len ancount (pos + rdlength)

/-- `dns_process_reply` up to its stores. -/
def dnsParseIn (data : ℕ → UInt8) (len : ℕ) : Option (Option DnsAnswer) :=
  if len < dnsHeaderSize then return none
  else do
    let id ← be16In data len 0
    let flags ← be16In data len 2
    let qdcount ← be16In data len 4
    let ancount ← be16In data len 6
    if flags &&& dnsFlagQr = 0 then return none
    else match ← dnsSkipQuestionsIn data len qdcount.toNat dnsHeaderSize with
      | none => return none
      | some pos =>
        match ← dnsFindAddressIn data len ancount.toNat pos with
        | none => return none
        | some resolved => return some { id := id, ip := resolved, rcode := (flags &&& dnsRcodeMask).toNat }

section

variable {data : ℕ → UInt8} {len : ℕ}

theorem be16In_eq {i : ℕ} (h : i + 1 < len) : be16In data len i = some (be16At data i) := by
  have hi : i < len := by omega
  simp [be16In, readIn, hi, h, be16At]

theorem dnsSkipNameIn_eq (pos : ℕ) : dnsSkipNameIn data pos len = some (dnsSkipName data pos len) := by
  fun_induction dnsSkipName data pos len with
  | case1 pos hlt hzero => rw [dnsSkipNameIn, if_pos hlt]; simp [readIn, hlt, hzero]
  | case2 pos hlt hzero hptr => rw [dnsSkipNameIn, if_pos hlt]; simp [readIn, hlt, hzero, hptr]
  | case3 pos hlt hzero hptr ih => rw [dnsSkipNameIn, if_pos hlt]; simp [readIn, hlt, hzero, hptr, ih]
  | case4 pos hlt => rw [dnsSkipNameIn, if_neg hlt]; rfl

theorem dnsSkipQuestionsIn_eq (qdcount : ℕ) : ∀ pos,
    dnsSkipQuestionsIn data len qdcount pos = some (dnsSkipQuestions data len qdcount pos) := by
  induction qdcount with
  | zero => exact fun _ => rfl
  | succ n ih =>
    intro pos
    rw [dnsSkipQuestionsIn, dnsSkipQuestions, dnsSkipNameIn_eq]
    cases dnsSkipName data pos len with
    | none => rfl
    | some pos =>
      simp only [Option.bind_eq_bind, Option.bind_some, ih]
      split <;> rfl

theorem dnsFindAddressIn_eq (ancount : ℕ) : ∀ pos,
    dnsFindAddressIn data len ancount pos = some (dnsFindAddress data len ancount pos) := by
  induction ancount with
  | zero => exact fun _ => rfl
  | succ n ih =>
    intro pos
    rw [dnsFindAddressIn, dnsFindAddress, dnsSkipNameIn_eq]
    cases dnsSkipName data pos len with
    | none => rfl
    | some pos =>
      simp only [Option.bind_eq_bind, Option.bind_some, ih]
      split
      · rfl
      next hfields =>
      -- the ten bytes before the data of the record
      rw [be16In_eq (by omega), be16In_eq (by omega)]
      simp only [Option.bind_some]
      split
      · rfl
      next hdata =>
      split
      · next ha =>
        rw [be16In_eq (by omega), be16In_eq (by omega)]
        rfl
      · rfl

/-- No read of the parser is outside of the packet. -/
theorem dnsParseIn_eq (data : ℕ → UInt8) (len : ℕ) : dnsParseIn data len = some (dnsParse data len) := by
  rw [dnsParseIn, dnsParse]
  split
  · rfl
  next hlen =>
  rw [dnsHeaderSize] at hlen
  rw [be16In_eq (by omega), be16In_eq (by omega), be16In_eq (by omega), be16In_eq (by omega)]
  simp only [Option.bind_eq_bind, Option.bind_some, dnsSkipQuestionsIn_eq]
  split
  · rfl
  cases dnsSkipQuestions data len (be16At data 4).toNat dnsHeaderSize with
  | none => rfl
  | some pos =>
    simp only [dnsFindAddressIn_eq, Option.bind_some]
    cases dnsFindAddress data len (be16At data 6).toNat pos <;> rfl

end

theorem Netbuf.udpPayloadLen_le (nb : Netbuf) : nb.udpPayloadLen ≤ nb.len - udpHeaderSize := by
  rw [udpPayloadLen]
  split <;> omega

/-- For every packet the parser of DNS replies ends, with every read inside the packet, and `udp_rx` gives it
no more than the bytes that have arrived behind the UDP header. -/
theorem dns_reads_inside :
    (∀ data len, dnsParseIn data len = some (dnsParse data len)) ∧
      ∀ nb : Netbuf, nb.udpPayloadLen ≤ nb.len - udpHeaderSize :=
  ⟨dnsParseIn_eq, Netbuf.udpPayloadLen_le⟩

/-! ## Encoded names -/

/-- Read labels with their lengths up to the first zero length: the labels, and the number of bytes read. -/
def dnsDecodeName : List UInt8 → Option (List (List UInt8) × ℕ)
  | [] => none
  | n :: bytes =>
    if n = 0 then some ([], 1)
    else if bytes.length < n.toNat then none
    else (dnsDecodeName (bytes.drop n.toNat)).map fun r => (bytes.take n.toNat :: r.1, 1 + n.toNat + r.2)
termination_by bytes => bytes.length
decreasing_by
  rw [List.length_drop, List.length_cons]
  omega

/-- The bytes are an uncompressed DNS name for the host name, up to a trailing dot: its labels take up all of
them, and `dns_skip_name` skips them. -/
structure DnsNameOf (bytes name : List UInt8) : Prop where
  decode : ∃ labels, dnsDecodeName bytes = some (labels, bytes.length) ∧
    (List.intercalate [dnsDot] labels = name ∨ List.intercalate [dnsDot] labels ++ [dnsDot] = name)
  skip : ∀ data off len, (∀ i (h : i < bytes.length), data (off + i) = bytes[i]) →
    off + bytes.length ≤ len → dnsSkipName data off len = some (off + bytes.length)

/-- The labels of a host name in the order in which `dns_encode_name` writes them. -/
def dnsLabels (name : List UInt8) : List (List UInt8) :=
  if _ : name = [] then []
  else name.takeWhile (· ≠ dnsDot) :: dnsLabels (name.dropWhile (· ≠ dnsDot)).tail
termination_by name.length
decreasing_by
  have hlen : (name.dropWhile (· ≠ dnsDot)).length ≤ name.length :=
    (List.dropWhile_sublist _).length_le
  have hpos := List.length_pos_of_ne_nil ‹name ≠ []›
  simp only [List.length_tail]
  omega

/-- The labels with their lengths, and a zero. -/
def dnsWire (labels : List (List UInt8)) : List UInt8 :=
  (labels.flatMap fun l => UInt8.ofNat l.length :: l) ++ [0]

theorem dnsWire_cons (l : List UInt8) (labels : List (List UInt8)) :
    dnsWire (l :: labels) = UInt8.ofNat l.length :: (l ++ dnsWire labels) := by
  simp [dnsWire]

/-- If `dns_encode_name` does not give up, it has written the wire format, and no label is too long. -/
theorem dnsEncodeName_some {bufsize : ℕ} {name bytes : List UInt8} {pos : ℕ}
    (h : dnsEncodeName bufsize pos name = some bytes) :
    bytes = dnsWire (dnsLabels name) ∧ ∀ l ∈ dnsLabels name, l.length ≤ 63 := by
  fun_induction dnsLabels name generalizing pos bytes with
  | case1 =>
    rw [dnsEncodeName, dif_pos rfl] at h
    split at h
    · cases h
    · cases h
      exact ⟨rfl, List.forall_mem_nil _⟩
  | case2 name hne ih =>
    rw [dnsEncodeName, dif_neg hne] at h
    dsimp only at h
    split at h
    · cases h
    next hfits =>
    obtain ⟨rest, hrest, rfl⟩ := Option.map_eq_some_iff.1 h
    obtain ⟨rfl, hle⟩ := ih hrest
    exact ⟨(dnsWire_cons _ _).symm, List.forall_mem_cons.2 ⟨by omega, hle⟩⟩

/-- A length byte is not a compression pointer, and it is zero for an empty label only. -/
theorem dnsLength_spec {n : ℕ} (h : n ≤ 63) :
    (UInt8.ofNat n = 0 ↔ n = 0) ∧ UInt8.ofNat n &&& 0xC0 ≠ 0xC0 ∧ (UInt8.ofNat n).toNat = n := by
  have hall : ∀ n < 64, (UInt8.ofNat n = 0 ↔ n = 0) ∧ UInt8.ofNat n &&& 0xC0 ≠ 0xC0 ∧
      (UInt8.ofNat n).toNat = n := by decide
  exact hall n (by omega)

/-- The decoder stops at the first empty label. -/
theorem dnsDecodeName_wire {labels : List (List UInt8)} (hle : ∀ l ∈ labels, l.length ≤ 63) :
    ∃ n, dnsDecodeName (dnsWire labels) = some (labels.takeWhile (· ≠ []), n) ∧
      (n = (dnsWire labels).length ↔ [] ∉ labels) ∧ n ≤ (dnsWire labels).length := by
  induction labels with
  | nil => exact ⟨1, by simp [dnsWire, dnsDecodeName], by simp [dnsWire], by simp [dnsWire]⟩
  | cons l labels ih =>
    obtain ⟨hl, hle⟩ := List.forall_mem_cons.1 hle
    obtain ⟨n, hdecode, hall, hn⟩ := ih hle
    obtain ⟨hzero, -, hlen⟩ := dnsLength_spec hl
    have hpos : 0 < (dnsWire labels).length := by simp [dnsWire]
    rw [dnsWire_cons, dnsDecodeName, hlen]
    by_cases hnil : l = []
    · subst hnil
      refine ⟨1, by rw [if_pos (hzero.2 rfl)]; simp, ?_, ?_⟩
      · simp only [List.length_nil, List.nil_append, List.length_cons, List.mem_cons, true_or, not_true,
          iff_false]
        omega
      · exact Nat.le_add_left 1 _
    · have hne : UInt8.ofNat l.length ≠ 0 := fun h => hnil (List.length_eq_zero_iff.1 (hzero.1 h))
      rw [if_neg hne, if_neg (by simp), List.drop_left, List.take_left, hdecode]
      refine ⟨1 + l.length + n, by simp [hnil], ?_, ?_⟩
      · rw [List.mem_cons, not_or, ← hall]
        simp only [List.length_cons, List.length_append]
        constructor
        · exact fun h => ⟨fun h => hnil h.symm, by omega⟩
        · exact fun h => by omega
      · simp only [List.length_cons, List.length_append]
        omega

/-- `dns_skip_name` finds the end of a name in wire format. -/
theorem dnsSkipName_wire {labels : List (List UInt8)} (hle : ∀ l ∈ labels, l.length ≤ 63)
    (hne : [] ∉ labels) {data : ℕ → UInt8} {off len : ℕ}
    (hdata : ∀ i (h : i < (dnsWire labels).length), data (off + i) = (dnsWire labels)[i])
    (hlen : off + (dnsWire labels).length ≤ len) :
    dnsSkipName data off len = some (off + (dnsWire labels).length) := by
  induction labels generalizing off with
  | nil =>
    have hzero : data off = 0 := hdata 0 (by simp [dnsWire])
    have hlen : off < len := hlen
    rw [dnsSkipName, if_pos hlen, if_pos hzero]
    rfl
  | cons l labels ih =>
    obtain ⟨hl, hle⟩ := List.forall_mem_cons.1 hle
    rw [List.mem_cons, not_or] at hne
    obtain ⟨hzero, hptr, htoNat⟩ := dnsLength_spec hl
    simp only [dnsWire_cons, List.length_cons, List.length_append] at hdata hlen ⊢
    have hfirst : data off = UInt8.ofNat l.length := hdata 0 (by omega)
    rw [dnsSkipName, if_pos (by omega), hfirst, if_neg, if_neg hptr, htoNat, ih hle hne.2]
    · congr 1
      omega
    · intro i hi
      have hi' := hdata (1 + l.length + i) (by omega)
      rw [← Nat.add_assoc, ← Nat.add_assoc] at hi'
      rw [hi']
      simp only [Nat.add_comm 1 l.length, Nat.add_right_comm _ 1, List.getElem_cons_succ]
      rw [List.getElem_append_right (by omega)]
      simp
    · omega
    · exact fun h => hne.1 (List.length_eq_zero_iff.1 (hzero.1 h)).symm

/-- The labels joined with dots give the name, up to a dot at the end. -/
theorem intercalate_dnsLabels (name : List UInt8) :
    List.intercalate [dnsDot] (dnsLabels name) = name ∨
      List.intercalate [dnsDot] (dnsLabels name) ++ [dnsDot] = name := by
  fun_induction dnsLabels name with
  | case1 => exact .inl rfl
  | case2 name hne ih =>
    have happ := List.takeWhile_append_dropWhile (p := (· ≠ dnsDot)) (l := name)
    cases hrest : name.dropWhile (· ≠ dnsDot) with
    | nil =>
      rw [hrest, List.append_nil] at happ
      left
      rw [List.tail_nil, dnsLabels, dif_pos rfl]
      simpa using happ
    | cons c tail =>
      have hc : c = dnsDot := by
        have := List.head?_dropWhile_not (· ≠ dnsDot) name
        rw [hrest] at this
        simpa using this
      rw [hrest, hc] at happ
      rw [hrest, List.tail_cons] at ih
      rw [List.tail_cons]
      cases htail : dnsLabels tail with
      | nil =>
        rw [htail] at ih
        right
        have hnil : tail = [] := by
          by_contra hne'
          rw [dnsLabels, dif_neg hne'] at htail
          cases htail
        rw [hnil] at happ
        simpa using happ
      | cons l ls =>
        rw [htail] at ih
        have hjoin : ∀ x, List.intercalate [dnsDot] (x :: l :: ls) =
            x ++ dnsDot :: List.intercalate [dnsDot] (l :: ls) := fun x => by
          simp [List.intercalate, List.intersperse_cons_cons]
        rw [hjoin, List.append_assoc, List.cons_append]
        refine ih.imp (fun h => ?_) fun h => ?_
        · rw [h, happ]
        · rw [h, happ]

/-- Two dots in a row, behind a label. -/
theorem dots_infix_append {label tail : List UInt8} (h : dnsDot ∉ label) :
    [dnsDot, dnsDot] <:+: label ++ dnsDot :: tail ↔
      tail.head? = some dnsDot ∨ [dnsDot, dnsDot] <:+: tail := by
  induction label with
  | nil =>
    rw [List.nil_append, List.infix_cons_iff]
    refine or_congr_left ?_
    cases tail with
    | nil => simp
    | cons c tail => simp [eq_comm]
  | cons c label ih =>
    rw [List.mem_cons, not_or] at h
    rw [List.cons_append, List.infix_cons_iff, ih h.2]
    refine or_iff_right fun hpre => ?_
    exact h.1 (List.cons_prefix_cons.1 hpre).1

/-- A host name has an empty label if it begins with a dot or has two dots in a row. -/
theorem nil_mem_dnsLabels (name : List UInt8) :
    [] ∈ dnsLabels name ↔ name.head? = some dnsDot ∨ [dnsDot, dnsDot] <:+: name := by
  fun_induction dnsLabels name with
  | case1 => simp
  | case2 name hne ih =>
    have happ := List.takeWhile_append_dropWhile (p := (· ≠ dnsDot)) (l := name)
    have hlabel : dnsDot ∉ name.takeWhile (· ≠ dnsDot) := fun h => by
      simpa using List.mem_takeWhile_imp h
    have hhead : [] = name.takeWhile (· ≠ dnsDot) ↔ name.head? = some dnsDot := by
      cases name with
      | nil => exact absurd rfl hne
      | cons c cs => by_cases hc : c = dnsDot <;> simp [hc]
    rw [List.mem_cons, hhead, ih]
    refine or_congr_right ?_
    generalize name.takeWhile (· ≠ dnsDot) = label at happ hlabel
    cases hrest : name.dropWhile (· ≠ dnsDot) with
    | nil =>
      rw [hrest, List.append_nil] at happ
      subst happ
      refine iff_of_false (by simp) fun hinf => hlabel (hinf.subset (List.mem_cons_self ..))
    | cons c tail =>
      have hc : c = dnsDot := by
        have := List.head?_dropWhile_not (· ≠ dnsDot) name
        rw [hrest] at this
        simpa using this
      rw [hrest, hc] at happ
      rw [← happ, dots_infix_append hlabel, List.tail_cons]

/-- What `dns_encode_name` writes for a host name that it accepts is an encoding of this name exactly if the
name does not begin with a dot and has no two dots in a row. -/
theorem dns_encode_name_iff {bufsize pos : ℕ} {name bytes : List UInt8}
    (h : dnsEncodeName bufsize pos name = some bytes) :
    DnsNameOf bytes name ↔ name.head? ≠ some dnsDot ∧ ¬[dnsDot, dnsDot] <:+: name := by
  obtain ⟨rfl, hle⟩ := dnsEncodeName_some h
  obtain ⟨n, hdecode, hall, -⟩ := dnsDecodeName_wire hle
  rw [← not_or, ← nil_mem_dnsLabels]
  constructor
  · rintro ⟨⟨labels, hlabels, -⟩, -⟩
    rw [hdecode, Option.some.injEq, Prod.mk.injEq] at hlabels
    exact hall.1 hlabels.2
  · intro hne
    refine ⟨⟨dnsLabels name, ?_, intercalate_dnsLabels name⟩, fun data off len hdata hlen => ?_⟩
    · have hsame : (dnsLabels name).takeWhile (· ≠ []) = dnsLabels name := by
        rw [List.takeWhile_eq_self_iff]
        intro l hl
        exact decide_eq_true fun hnil => hne (hnil ▸ hl)
      rw [hdecode, hsame, hall.2 hne]
    · exact dnsSkipName_wire hle hne hdata hlen

/-- "a.b" is encoded. -/
theorem dns_encode_name_iff_ab : DnsNameOf [1, 97, 1, 98, 0] [97, 46, 98] :=
  (dns_encode_name_iff (by decide +kernel : dnsEncodeName 240 0 [97, 46, 98] = some _)).2 (by decide)

/-- "a..b" is accepted, but a reader of the result stops behind the first label. -/
theorem dns_encode_name_empty_label :
    ¬∀ name bytes, dnsEncodeName 240 0 name = some bytes → DnsNameOf bytes name := by
  intro h
  obtain ⟨labels, hdecode, -⟩ := (h [97, 46, 46, 98] [1, 97, 0, 1, 98, 0] (by decide +kernel)).decode
  have htwo : dnsDecodeName [1, 97, 0, 1, 98, 0] = some ([[97]], 3) := by decide +kernel
  rw [htwo, Option.some.injEq, Prod.mk.injEq] at hdecode
  exact absurd hdecode.2 (by decide)

/-- A reply that repeats the question of a query and begins its answers with an A record is understood. -/
theorem dns_reply_understood {size pos p len : ℕ} {host name : List UInt8} {data : ℕ → UInt8}
    (hencode : dnsEncodeName size pos host = some name) (hhost : [] ∉ dnsLabels host)
    (hname : ∀ i (h : i < name.length), data (12 + i) = name[i]) (hp : p = 12 + name.length + 4)
    (hlen : p + 16 ≤ len) (hqr : be16At data 2 &&& dnsFlagQr ≠ 0) (hqd : be16At data 4 = 1)
    (han : be16At data 6 ≠ 0) (hptr : data p &&& 0xC0 = 0xC0) (htype : be16At data (p + 2) = dnsTypeA)
    (hsize : be16At data (p + 10) = 4) :
    dnsParse data len = some { id := be16At data 0, ip := be32At data (p + 12),
                               rcode := (be16At data 2 &&& dnsRcodeMask).toNat } := by
  obtain ⟨rfl, hle⟩ := dnsEncodeName_some hencode
  have hskip := dnsSkipName_wire hle hhost hname (by omega : _ ≤ len)
  have hquestions : dnsSkipQuestions data len 1 dnsHeaderSize = some p := by
    rw [dnsSkipQuestions, dnsHeaderSize, hskip]
    simp only [dnsSkipQuestions, ← hp]
    rw [if_neg (by omega)]
  have hpointer : dnsSkipName data p len = some (p + 2) := by
    rw [dnsSkipName, if_pos (by omega), if_neg (fun h => by simp [h] at hptr), if_pos hptr]
  obtain ⟨n, hn⟩ : ∃ n, (be16At data 6).toNat = n + 1 :=
    Nat.exists_eq_succ_of_ne_zero fun h => han (BitVec.eq_of_toNat_eq h)
  have hanswer : dnsFindAddress data len (n + 1) p = some (be32At data (p + 12)) := by
    rw [dnsFindAddress, hpointer]
    simp only [Nat.add_assoc, Nat.reduceAdd, htype, hsize]
    rw [if_neg (by omega), if_neg (by simp; omega), if_pos ⟨trivial, rfl⟩]
  rw [dnsParse, if_neg (by rw [dnsHeaderSize]; omega)]
  simp only [if_neg hqr, hqd, hn, show (1 : BitVec 16).toNat = 1 from rfl, hquestions, hanswer]

/-- The host `a` has the address 1.2.3.4. -/
theorem dns_reply_understood_a :
    dnsParse ([0, 7, 129, 128, 0, 1, 0, 1, 0, 0, 0, 0, 1, 97, 0, 0, 1, 0, 1, 192, 12, 0, 1, 0, 1, 0, 0, 0, 0,
      0, 4, 1, 2, 3, 4].getD · 0) 35 = some { id := 7, ip := 0x01020304, rcode := 0 } :=
  dns_reply_understood (by decide +kernel : dnsEncodeName 240 0 [97] = some [1, 97, 0]) (by decide +kernel)
    (by decide) rfl (by decide) (by decide) rfl (by decide) rfl rfl rfl

end PlantOS.Net
