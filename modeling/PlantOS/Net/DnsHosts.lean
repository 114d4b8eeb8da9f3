import PlantOS.Net.DnsResolve

/-!
# Answers of the DNS resolver without a query

`dns_resolve` looks a host name up in the cache, and then tests whether it is a numeric address.

The cache keeps 63 bytes of a name, so a longer name is found under its first 63 bytes, and `dns_cache_insert`
does not look for an older entry of the name. If no name is longer, and the name is in no other slot than the
one that is overwritten, then a lookup gives the address of the latest insertion for exactly this name.

The test for a numeric address accepts every string of digits and dots. Those that are not four numbers up to
255 are answered too, with a meaningless address.

Reference: `net/dns.c`.
-/

namespace PlantOS.Net

/-! ## The cache -/

/-- A call of `dns_cache_insert` at the tick `now`. -/
structure DnsInsert where
  now : BitVec 32
  host : List UInt8
  ip : BitVec 32

def dnsCacheStep (cache : Fin 8 → DnsCacheEntry) (op : DnsInsert) : Fin 8 → DnsCacheEntry :=
  dnsCacheInsert cache op.now op.host op.ip

/-- The latest insertion for the name `g` had the address `ip`. -/
def LatestInsert (ops : List DnsInsert) (g : List UInt8) (ip : BitVec 32) : Prop :=
  ∃ pre op post, ops = pre ++ op :: post ∧ op.host = g ∧ op.ip = ip ∧ ∀ op' ∈ post, op'.host ≠ g

/-- The name fits into an entry, and no slot but the one to be overwritten has it. -/
def DnsInsertOk (cache : Fin 8 → DnsCacheEntry) (op : DnsInsert) : Prop :=
  op.host.length ≤ 63 ∧ ∀ i, i ≠ dnsInsertSlot cache → (cache i).valid → (cache i).hostname ≠ op.host

instance (cache : Fin 8 → DnsCacheEntry) (op : DnsInsert) : Decidable (DnsInsertOk cache op) :=
  inferInstanceAs (Decidable (_ ∧ _))

/-- The comparison of names is equality. -/
theorem dnsNameEq_iff {a b : List UInt8} : dnsNameEq a b = true ↔ a = b := by
  fun_induction dnsNameEq a b with
  | case1 => exact iff_of_true rfl rfl
  | case2 a as b bs hne =>
    exact iff_of_false Bool.false_ne_true fun h => hne (List.cons.inj h).1
  | case3 a as b bs heq ih => rw [ih, List.cons.injEq, and_iff_right (not_not.1 heq)]
  | case4 a b hnil hcons =>
    refine iff_of_false Bool.false_ne_true ?_
    rintro rfl
    cases a with
    | nil => exact hnil rfl rfl
    | cons x xs => exact hcons x xs x xs rfl rfl

/-- An entry for another host leaves the latest one as it is. -/
theorem LatestInsert.snoc {ops : List DnsInsert} {g : List UInt8} {ip : BitVec 32} (h : LatestInsert ops g ip)
    {op : DnsInsert} (hne : op.host ≠ g) : LatestInsert (ops ++ [op]) g ip := by
  obtain ⟨pre, op', post, rfl, hhost, hip, hpost⟩ := h
  refine ⟨pre, op', post ++ [op], by simp, hhost, hip, fun op'' hmem => ?_⟩
  obtain hmem | hmem := List.mem_append.1 hmem
  · exact hpost op'' hmem
  · rwa [List.mem_singleton.1 hmem]

/-- If every insertion is of a name of at most 63 bytes that is in no other slot than the one it overwrites,
then a lookup that succeeds gives the address of the latest insertion for exactly this name. -/
theorem dns_cache_latest {ops : List DnsInsert} (hops : Run.Admits dnsCacheStep DnsInsertOk dnsCacheInit ops)
    {g : List UInt8} {ip : BitVec 32}
    (hlookup : dnsCacheLookup (Run.run dnsCacheStep dnsCacheInit ops) g = some ip) :
    LatestInsert ops g ip := by
  have hinv : ∀ i, (Run.run dnsCacheStep dnsCacheInit ops i).valid →
      LatestInsert ops (Run.run dnsCacheStep dnsCacheInit ops i).hostname
        (Run.run dnsCacheStep dnsCacheInit ops i).ip := by
    refine Run.run_history_of_admits
      (I := fun ops cache => ∀ i, (cache i).valid → LatestInsert ops (cache i).hostname (cache i).ip)
      (fun _ hvalid => absurd hvalid Bool.false_ne_true) (fun ops op h hok i => ?_) hops
    rw [dnsCacheStep, dnsCacheInsert]
    by_cases hi : i = dnsInsertSlot (Run.run dnsCacheStep dnsCacheInit ops)
    · rw [hi, Function.update_self]
      have hname : op.host.take 63 = op.host := List.take_of_length_le hok.1
      exact fun _ => ⟨ops, op, [], rfl, hname.symm, rfl, List.forall_mem_nil _⟩
    · rw [Function.update_of_ne hi]
      exact fun hvalid => (h i hvalid).snoc (hok.2 i hi hvalid).symm
  obtain ⟨i, hfind, rfl⟩ := Option.map_eq_some_iff.1 hlookup
  have hfound := List.find?_some hfind
  rw [Bool.and_eq_true, dnsNameEq_iff] at hfound
  rw [hfound.2]
  exact hinv i hfound.1

/-- One name is inserted and found. -/
theorem dns_cache_latest_one :
    dnsCacheLookup (Run.run dnsCacheStep dnsCacheInit [⟨0, [97], 1⟩]) [97] = some 1 ∧
      LatestInsert [⟨0, [97], 1⟩] [97] 1 :=
  ⟨by decide +kernel, dns_cache_latest (by decide +kernel) (by decide +kernel)⟩

/-- A name of 64 bytes is inserted, and the cache answers for its first 63. -/
theorem dns_cache_long_name :
    ¬∀ (ops : List DnsInsert) (g : List UInt8) (ip : BitVec 32),
      dnsCacheLookup (Run.run dnsCacheStep dnsCacheInit ops) g = some ip → LatestInsert ops g ip := by
  intro h
  let name : List UInt8 := List.replicate 31 97 ++ dnsDot :: List.replicate 32 98
  obtain ⟨pre, op, post, hops, hhost, -⟩ := h [⟨0, name, 1⟩] (name.take 63) 1 (by decide +kernel)
  have hop : op ∈ [DnsInsert.mk 0 name 1] := hops ▸ List.mem_append_right pre List.mem_cons_self
  rw [List.mem_singleton.1 hop] at hhost
  exact absurd hhost (by decide +kernel)

/-! ## Numeric addresses -/

/-- The value of a string of decimal digits behind the number `n`. -/
def decValue (n : ℕ) (l : List UInt8) : ℕ := l.foldl (fun n c => n * 10 + (c.toNat - 48)) n

/-- A number from 0 to 255 in decimal digits. -/
structure IsOctet (l : List UInt8) : Prop where
  ne_nil : l ≠ []
  digits : ∀ c ∈ l, 48 ≤ c ∧ c ≤ 57
  le : decValue 0 l ≤ 255

/-- The host name has the form "a.b.c.d" for the address `ip`. -/
def DottedQuad (host : List UInt8) (ip : BitVec 32) : Prop :=
  ∃ a b c d, host = a ++ dnsDot :: (b ++ dnsDot :: (c ++ dnsDot :: d)) ∧
    IsOctet a ∧ IsOctet b ∧ IsOctet c ∧ IsOctet d ∧
    ip = BitVec.ofNat 32 (decValue 0 a * 2 ^ 24 + decValue 0 b * 2 ^ 16 + decValue 0 c * 2 ^ 8 + decValue 0 d)

/-- The loop over the digits of one part. -/
theorem dnsParseParts_digits {part : ℕ} (hpart : part < 4) (rest : List UInt8) (l : List UInt8) :
    ∀ {parts : ℕ → BitVec 32} {n : ℕ}, (∀ c ∈ l, 48 ≤ c ∧ c ≤ 57) → parts part = BitVec.ofNat 32 n →
      dnsParseParts (l ++ rest) part parts =
        dnsParseParts rest part (Function.update parts part (BitVec.ofNat 32 (decValue n l))) := by
  induction l with
  | nil =>
    intro parts n _ hn
    rw [List.nil_append, decValue, List.foldl_nil, ← hn, Function.update_eq_self]
  | cons c l ih =>
    intro parts n hl hn
    obtain ⟨⟨hlo, hhi⟩, hl⟩ := List.forall_mem_cons.1 hl
    have hdot : c ≠ dnsDot := by
      rintro rfl
      exact absurd hlo (by decide)
    have hlo : 48 ≤ c.toNat := hlo
    have hdigit : BitVec.ofNat 32 n * 10 + (c.toBitVec.setWidth 32 - 48) =
        BitVec.ofNat 32 (n * 10 + (c.toNat - 48)) := by
      have hc : c.toBitVec.setWidth 32 = BitVec.ofNat 32 c.toNat := by
        apply BitVec.eq_of_toNat_eq
        simp [BitVec.toNat_setWidth, BitVec.toNat_ofNat]
      have hsub : BitVec.ofNat 32 c.toNat - 48 = BitVec.ofNat 32 (c.toNat - 48) := by
        have hadd : BitVec.ofNat 32 (c.toNat - 48 + 48) = BitVec.ofNat 32 (c.toNat - 48) + 48 :=
          BitVec.ofNat_add ..
        rw [Nat.sub_add_cancel hlo] at hadd
        rw [hadd]
        exact BitVec.add_sub_cancel _ _
      rw [hc, hsub, BitVec.ofNat_add, BitVec.ofNat_mul]
      rfl
    rw [List.cons_append, dnsParseParts, if_pos hpart, if_neg hdot, hn, hdigit,
      ih hl (Function.update_self ..), Function.update_idem]
    rfl

/-- Four bytes next to each other. -/
theorem shift_or_eq {a b c d : ℕ} (ha : a ≤ 255) (hb : b ≤ 255) (hc : c ≤ 255) (hd : d ≤ 255) :
    BitVec.ofNat 32 a <<< 24 ||| BitVec.ofNat 32 b <<< 16 ||| BitVec.ofNat 32 c <<< 8 ||| BitVec.ofNat 32 d =
      BitVec.ofNat 32 (a * 2 ^ 24 + b * 2 ^ 16 + c * 2 ^ 8 + d) := by
  have hshift : ∀ {x : ℕ} (k : ℕ), x * 2 ^ k < 2 ^ 32 →
      BitVec.ofNat 32 x <<< k = BitVec.ofNat 32 (x * 2 ^ k) := by
    intro x k hx
    have hpos : 1 ≤ 2 ^ k := Nat.one_le_two_pow
    have hx' : x < 2 ^ 32 := (Nat.le_mul_of_pos_right x hpos).trans_lt hx
    apply BitVec.eq_of_toNat_eq
    rw [BitVec.toNat_shiftLeft, BitVec.toNat_ofNat, BitVec.toNat_ofNat, Nat.mod_eq_of_lt hx',
      Nat.shiftLeft_eq]
  have hor : ∀ {x y : ℕ} (k : ℕ), y < 2 ^ k → x * 2 ^ k ||| y = x * 2 ^ k + y := by
    intro x y k hy
    rw [← Nat.shiftLeft_eq, Nat.shiftLeft_add_eq_or_of_lt hy]
  have e₂ : (a * 2 ^ 8 + b) * 2 ^ 16 = a * 2 ^ 24 + b * 2 ^ 16 := by omega
  have e₃ : (a * 2 ^ 16 + b * 2 ^ 8 + c) * 2 ^ 8 = a * 2 ^ 24 + b * 2 ^ 16 + c * 2 ^ 8 := by
    rw [Nat.add_mul, Nat.add_mul, Nat.mul_assoc, Nat.mul_assoc, ← Nat.pow_add, ← Nat.pow_add]
  have h₁ := hor (x := a) (y := b * 2 ^ 16) 24 (by omega)
  have h₂ := hor (x := a * 2 ^ 8 + b) (y := c * 2 ^ 8) 16 (by omega)
  have h₃ := hor (x := a * 2 ^ 16 + b * 2 ^ 8 + c) (y := d) 8 (by omega)
  rw [e₂] at h₂
  rw [e₃] at h₃
  rw [hshift 24 (by omega), hshift 16 (by omega), hshift 8 (by omega), ← BitVec.ofNat_or, ← BitVec.ofNat_or,
    ← BitVec.ofNat_or, h₁, h₂, h₃]

/-- The address is read off a numeric host name. -/
theorem DottedQuad.parse {host : List UInt8} {ip : BitVec 32} (h : DottedQuad host ip) :
    dnsParseIp host = ip := by
  obtain ⟨a, b, c, d, rfl, ha, hb, hc, hd, rfl⟩ := h
  have hdot : ∀ {part : ℕ} {parts : ℕ → BitVec 32} (rest : List UInt8), part < 4 →
      dnsParseParts (dnsDot :: rest) part parts = dnsParseParts rest (part + 1) parts := fun rest hp => by
    rw [dnsParseParts, if_pos hp, if_pos rfl]
  have hparts : dnsParseParts (a ++ dnsDot :: (b ++ dnsDot :: (c ++ dnsDot :: d))) 0 (fun _ => 0) =
      Function.update (Function.update (Function.update (Function.update (fun _ => 0) 0
        (BitVec.ofNat 32 (decValue 0 a))) 1 (BitVec.ofNat 32 (decValue 0 b))) 2
        (BitVec.ofNat 32 (decValue 0 c))) 3 (BitVec.ofNat 32 (decValue 0 d)) := by
    refine (dnsParseParts_digits (n := 0) (by decide) _ a ha.digits ?_).trans ?_
    · rfl
    refine (hdot _ (by decide)).trans ((dnsParseParts_digits (n := 0) (by decide) _ b hb.digits ?_).trans ?_)
    · rfl
    refine (hdot _ (by decide)).trans ((dnsParseParts_digits (n := 0) (by decide) _ c hc.digits ?_).trans ?_)
    · rfl
    refine (hdot _ (by decide)).trans ?_
    rw [← List.append_nil d]
    refine (dnsParseParts_digits (n := 0) (by decide) _ d hd.digits ?_).trans ?_
    · rfl
    · rw [List.append_nil]
      rfl
  rw [dnsParseIp, hparts]
  exact shift_or_eq ha.le hb.le hc.le hd.le

/-- An address in dotted form is taken for one. -/
theorem DottedQuad.isIp {host : List UInt8} {ip : BitVec 32} (h : DottedQuad host ip) :
    dnsIsIp host = true := by
  obtain ⟨a, b, c, d, rfl, ha, hb, hc, hd, -⟩ := h
  have hoctet : ∀ {l : List UInt8}, IsOctet l → ∀ x ∈ l, x = dnsDot ∨ (48 ≤ x ∧ x ≤ 57) :=
    fun hl x hx => .inr (hl.digits x hx)
  rw [dnsIsIp, List.all_eq_true]
  intro x hx
  simp only [List.mem_append, List.mem_cons] at hx
  rw [decide_eq_true_eq]
  obtain hx | rfl | hx | rfl | hx | rfl | hx := hx
  · exact hoctet ha x hx
  · exact .inl rfl
  · exact hoctet hb x hx
  · exact .inl rfl
  · exact hoctet hc x hx
  · exact .inl rfl
  · exact hoctet hd x hx

/-- For a host name that is not in the cache, the answers of `dns_resolve` without a query are right exactly
if the name has a character that is neither a digit nor a dot, or has the form "a.b.c.d". -/
theorem dns_numeric_iff {n : ℕ} (s : DnsSys n) (t : Fin n) (host : List UInt8) (arp : Bool)
    (hserver : s.server ≠ 0) (hcache : dnsCacheLookup s.cache host = none) :
    (∀ ip, (dnsResolve s t host arp).calls t = .returned 0 (some ip) none ↔ DottedQuad host ip) ↔
      (∃ c ∈ host, c ≠ dnsDot ∧ ¬(48 ≤ c ∧ c ≤ 57)) ∨ ∃ ip, DottedQuad host ip := by
  by_cases hip : dnsIsIp host = true
  · -- every string of digits and dots is answered
    have hanswer : (dnsResolve s t host arp).calls t = .returned 0 (some (dnsParseIp host)) none := by
      rw [dnsResolve, if_neg hserver, hcache]
      dsimp only
      rw [if_pos hip]
      exact Function.update_self ..
    constructor
    · exact fun h => .inr ⟨_, (h _).1 hanswer⟩
    · rintro (⟨c, hc, hdot, hdigit⟩ | ⟨ip, hquad⟩)
      · have hall := List.all_eq_true.1 hip c hc
        rw [decide_eq_true_eq] at hall
        exact absurd hall (not_or.2 ⟨hdot, hdigit⟩)
      · intro ip'
        rw [hanswer, DnsCall.returned.injEq, Option.some.injEq, hquad.parse]
        refine ⟨fun h => h.2.1 ▸ hquad, fun h => ⟨rfl, ?_, rfl⟩⟩
        rw [← hquad.parse, h.parse]
  · -- no other string is
    refine iff_of_true (fun ip => iff_of_false (fun h => ?_) fun h => hip h.isIp) (.inl ?_)
    · rw [dnsResolve, if_neg hserver, hcache] at h
      dsimp only at h
      rw [if_neg hip] at h
      split at h
      · have h := (Function.update_self ..).symm.trans h
        cases h
      · have h := (Function.update_self ..).symm.trans h
        split at h <;> cases h
    · rw [Bool.not_eq_true, dnsIsIp, List.all_eq_false] at hip
      obtain ⟨c, hc, hnot⟩ := hip
      rw [decide_eq_true_eq, not_or] at hnot
      exact ⟨c, hc, hnot⟩

/-- "1.2.3.4" is answered. -/
theorem dns_numeric_iff_quad :
    (dnsResolve (dnsInit 1 0) 0 [49, 46, 50, 46, 51, 46, 52] true).calls 0 =
      .returned 0 (some 0x01020304) none := by
  have hoctet : ∀ c : UInt8, 48 ≤ c ∧ c ≤ 57 → IsOctet [c] := fun c hc =>
    ⟨List.cons_ne_nil _ _, List.forall_mem_singleton.2 hc, by
      have : c.toNat ≤ 57 := hc.2
      rw [decValue, List.foldl_cons, List.foldl_nil]
      omega⟩
  have hquad : DottedQuad [49, 46, 50, 46, 51, 46, 52] 0x01020304 :=
    ⟨[49], [50], [51], [52], rfl, hoctet 49 (by decide), hoctet 50 (by decide), hoctet 51 (by decide),
      hoctet 52 (by decide), by decide⟩
  have hright := (dns_numeric_iff (dnsInit 1 0) 0 _ true (by decide) (by decide +kernel)).2 (.inr ⟨_, hquad⟩)
  exact (hright _).2 hquad

/-- "1" is answered too, with the address 1.0.0.0. -/
theorem dns_numeric_short :
    ¬∀ (host : List UInt8), dnsCacheLookup (dnsInit 1 0).cache host = none → ∀ ip,
      (dnsResolve (dnsInit 1 0) 0 host true).calls 0 = .returned 0 (some ip) none ↔ DottedQuad host ip := by
  intro h
  obtain ⟨a, b, c, d, hhost, -⟩ := (h [49] (by decide +kernel) 0x01000000).1 (by decide +kernel)
  have hlen := congrArg List.length hhost
  simp only [List.length_append, List.length_cons, List.length_nil] at hlen
  omega

end PlantOS.Net
