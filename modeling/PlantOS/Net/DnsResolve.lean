import PlantOS.Net.Udp
import PlantOS.Common.Run

/-!
# DNS resolution

`dns_resolve` sends a query and waits until `dns_process_reply`, called from the network interrupt, has
stored a reply in a few variables that all calls share. The model lets any number of threads run
`dns_resolve`, cut at every access to these variables, and the network deliver the server's answers in any
order, late, repeatedly or never.

Neither function compares the transaction id of a reply with that of the query. So a call returns the
address of whatever reply arrives while it listens: `dns_answer_belongs` needs that to be the reply to its
own query, and `dns_late_reply` is a run in which the late reply to a query that timed out answers the next
one.

Reference: `net/dns.c`, `net/udp.c`.
-/

namespace PlantOS.Net

/-- Where a thread is in `dns_resolve`. From `clearRcode` on `dns_reply_received` has been reset, and
from `wait` on the query has been sent; `q` is its number. -/
inductive DnsCall where
  | idle
  /-- In the loop that waits for ARP. -/
  | arpWait (query : DnsQuery) (arpStart : BitVec 32)
  /-- Before `dns_reply_received = false`. -/
  | clear (query : DnsQuery)
  /-- Before `dns_reply_rcode = -1`. -/
  | clearRcode (query : DnsQuery)
  /-- Before `udp_send`. -/
  | send (query : DnsQuery)
  /-- In the loop that waits for the reply. -/
  | wait (query : DnsQuery) (q : ℕ) (start : BitVec 32)
  /-- Before the test of `dns_reply_rcode`. -/
  | checkRcode (query : DnsQuery) (q : ℕ)
  /-- Before the test of `dns_resolved_ip`. -/
  | checkIp (query : DnsQuery) (q : ℕ)
  /-- Before `*ip_out = dns_resolved_ip`. -/
  | readIp (query : DnsQuery) (q : ℕ)
  /-- Before `dns_cache_insert(hostname, dns_resolved_ip)`, with `ip` in `*ip_out`. -/
  | insert (query : DnsQuery) (q : ℕ) (ip : BitVec 32)
  /-- The call has returned `r`, with `ip` in `*ip_out`. `sent` is the number of its query and the address
  it has cached, if it has come to that. -/
  | returned (r : ℤ) (ip : Option (BitVec 32)) (sent : Option (ℕ × BitVec 32))
deriving DecidableEq

/-- A thread can enter `dns_resolve` if it is not in it. -/
def DnsCall.ready : DnsCall → Bool
  | .idle | .returned _ _ _ => true
  | _ => false

/-- The resolver, its callers and the network. -/
structure DnsSys (n : ℕ) where
  /-- `dns_server`. -/
  server : BitVec 32
  cache : Fin 8 → DnsCacheEntry
  udp : UdpSys
  ticks : BitVec 64
  calls : Fin n → DnsCall
  /-- The queries sent so far. -/
  queries : List DnsQuery
  /-- The server's answers; the network may deliver each of them at any time and any number of times. -/
  answers : ℕ → Option Netbuf

/-- The steps. The flag of a call says whether `arp_resolve` or `udp_send` succeeds. -/
inductive DnsOp (n : ℕ) where
  | call (t : Fin n) (host : List UInt8) (arp : Bool)
  | resume (t : Fin n) (ok : Bool)
  | tick
  /-- The server answers query `q` with the datagram `nb`. -/
  | answer (q : ℕ) (nb : Netbuf)
  /-- The answer to query `q` arrives. -/
  | deliver (q : ℕ) (srcIp : BitVec 32)

/-- The state after `dns_init`. -/
def dnsInit (n : ℕ) (ticks : BitVec 64) : DnsSys n :=
  { server := 0x0A000203
    cache := dnsCacheInit
    udp := udpInit
    ticks := ticks
    calls := fun _ => .idle
    queries := []
    answers := fun _ => none }

namespace DnsSys

variable {n : ℕ}

/-- `(uint32_t)pit_get_ticks()`. -/
def now (s : DnsSys n) : BitVec 32 := s.ticks.setWidth 32

/-- `pit_get_ticks() - start > limit`, where `start` was stored in 32 bits. -/
def elapsed (s : DnsSys n) (start : BitVec 32) (limit : BitVec 64) : Bool :=
  s.ticks - start.setWidth 64 > limit

def setCall (s : DnsSys n) (t : Fin n) (c : DnsCall) : DnsSys n :=
  { s with calls := Function.update s.calls t c }

def setReply (s : DnsSys n) (r : DnsReply) : DnsSys n := { s with udp := { s.udp with dns := r } }

/-- `return -1`. -/
def fail (s : DnsSys n) (t : Fin n) : DnsSys n := s.setCall t (.returned (-1) none none)

end DnsSys

section

variable {n : ℕ}

/-- `dns_resolve` up to the first `arp_resolve`. -/
def dnsResolve (s : DnsSys n) (t : Fin n) (host : List UInt8) (arp : Bool) : DnsSys n :=
  if s.server = 0 then s.fail t
  else match dnsCacheLookup s.cache host with
    | some ip => s.setCall t (.returned 0 (some ip) none)
    | none =>
      if dnsIsIp host then s.setCall t (.returned 0 (some (dnsParseIp host)) none)
      else match dnsBuildQuery host (s.ticks.setWidth 16) with
        | none => s.fail t
        | some query => s.setCall t (if arp then .clear query else .arpWait query s.now)

/-- `dns_resolve` from where thread `t` is to its next access to the shared variables. -/
def dnsResume (s : DnsSys n) (t : Fin n) (ok : Bool) : DnsSys n :=
  let reply := s.udp.dns
  match s.calls t with
  | .idle | .returned _ _ _ => s
  | .arpWait query arpStart =>
    if ok then s.setCall t (.clear query)
    else if s.elapsed arpStart 200 then s.fail t
    else s
  | .clear query => (s.setReply { reply with received := false }).setCall t (.clearRcode query)
  | .clearRcode query => (s.setReply { reply with rcode := -1 }).setCall t (.send query)
  | .send query =>
    if ok then
      { s with queries := s.queries ++ [query] }.setCall t (.wait query s.queries.length s.now)
    else s.fail t
  | .wait query q start =>
    if reply.received then s.setCall t (.checkRcode query q)
    else if s.elapsed start 300 then s.fail t
    else s
  | .checkRcode query q => if reply.rcode ≠ 0 then s.fail t else s.setCall t (.checkIp query q)
  | .checkIp query q => if reply.ip = 0 then s.fail t else s.setCall t (.readIp query q)
  | .readIp query q => s.setCall t (.insert query q reply.ip)
  | .insert query q ip =>
    { s with cache := dnsCacheInsert s.cache s.now query.host reply.ip }.setCall t
      (.returned 0 (some ip) (some (q, reply.ip)))

/-- One step. An answer has the transaction id of its query, and there is one for a query. -/
def dnsStep (s : DnsSys n) : DnsOp n → DnsSys n
  | .call t host arp => if (s.calls t).ready then dnsResolve s t host arp else s
  | .resume t ok => dnsResume s t ok
  | .tick => { s with ticks := s.ticks + 1 }
  | .answer q nb =>
    match s.queries[q]? with
    | none => s
    | some query =>
      if (s.answers q).isNone ∧ nb.be16 udpHeaderSize = query.txid then
        { s with answers := Function.update s.answers q (some nb) }
      else s
  | .deliver q srcIp =>
    match s.answers q with
    | none => s
    | some nb => { s with udp := udpRx s.udp nb srcIp }

/-! ## Replies and the calls that listen -/

/-- The step delivers the reply to query `q`, and the resolver finds the address `ip` in it. -/
def DeliversReply (q : ℕ) (ip : BitVec 32) (s : DnsSys n) (op : DnsOp n) : Prop :=
  ∃ srcIp nb a, op = .deliver q srcIp ∧ s.answers q = some nb ∧ nb.dnsAnswer = some a ∧ a.ip = ip

/-- The call has reset `dns_reply_received` and will still read the reply. -/
def DnsCall.listens : DnsCall → Bool
  | .clearRcode _ | .send _ | .wait _ _ _ | .checkRcode _ _ | .checkIp _ _ | .readIp _ _
  | .insert _ _ _ => true
  | _ => false

/-- The number of the query the call has sent. -/
def DnsCall.query : DnsCall → Option ℕ
  | .wait _ q _ | .checkRcode _ q | .checkIp _ q | .readIp _ q | .insert _ q _ => some q
  | _ => none

/-- While a call listens, no reply but that to its own query arrives. -/
def OwnReplies (s : DnsSys n) : DnsOp n → Prop
  | .deliver q _ => ((s.answers q).bind Netbuf.dnsAnswer).isSome →
      ∀ t, (s.calls t).listens → (s.calls t).query = some q
  | _ => True

instance (s : DnsSys n) : DecidablePred (OwnReplies s)
  | .deliver q _ => inferInstanceAs (Decidable (((s.answers q).bind Netbuf.dnsAnswer).isSome →
      ∀ t, (s.calls t).listens → (s.calls t).query = some q))
  | .call _ _ _ | .resume _ _ | .tick | .answer _ _ => isTrue trivial

/-- What holds of a thread, where `R q ip` says that the reply to query `q` has brought `ip`. -/
def DnsCall.Ok (R : ℕ → BitVec 32 → Prop) (s : DnsSys n) : DnsCall → Prop
  | .idle | .arpWait _ _ | .clear _ => True
  | .clearRcode _ | .send _ => s.udp.dns.received = false
  | .wait query q _ => s.queries[q]? = some query ∧ (s.udp.dns.received → R q s.udp.dns.ip)
  | .checkRcode query q | .checkIp query q | .readIp query q =>
    s.queries[q]? = some query ∧ R q s.udp.dns.ip
  | .insert query q ip => s.queries[q]? = some query ∧ R q s.udp.dns.ip ∧ R q ip
  | .returned _ ip sent => ∀ q cached, sent = some (q, cached) → (∃ a, ip = some a ∧ R q a) ∧ R q cached

/-- A cached address comes from the reply to a query for its host name, of which the cache keeps 63
bytes. -/
def DnsCacheEntry.Ok (R : ℕ → BitVec 32 → Prop) (queries : List DnsQuery) (e : DnsCacheEntry) : Prop :=
  e.valid → ∃ q query, queries[q]? = some query ∧ e.hostname = query.host.take 63 ∧ R q e.ip

/-- The invariant of the resolver. -/
structure DnsInv (R : ℕ → BitVec 32 → Prop) (s : DnsSys n) : Prop where
  calls : ∀ t, (s.calls t).Ok R s
  cache : ∀ i, (s.cache i).Ok R s.queries

section

variable {R R' : ℕ → BitVec 32 → Prop} {s s' : DnsSys n} {t : Fin n}

/-- A step that brings no reply may only reset `dns_reply_received`. -/
theorem DnsCall.Ok.frame {c : DnsCall} (h : c.Ok R s) (hR : ∀ q ip, R q ip → R' q ip)
    (hq : ∀ (q : ℕ) query, s.queries[q]? = some query → s'.queries[q]? = some query)
    (hrec : s'.udp.dns.received → s.udp.dns.received) (hip : s'.udp.dns.ip = s.udp.dns.ip) :
    c.Ok R' s' := by
  have hclear (h : s.udp.dns.received = false) : s'.udp.dns.received = false := by
    rw [Bool.eq_false_iff] at h ⊢
    exact fun h' => h (hrec h')
  cases c with
  | idle | arpWait | clear => trivial
  | clearRcode | send => exact hclear h
  | wait query q start => exact ⟨hq _ _ h.1, fun hr => hip ▸ hR _ _ (h.2 (hrec hr))⟩
  | checkRcode query q | checkIp query q | readIp query q => exact ⟨hq _ _ h.1, hip ▸ hR _ _ h.2⟩
  | insert query q ip => exact ⟨hq _ _ h.1, hip ▸ hR _ _ h.2.1, hR _ _ h.2.2⟩
  | returned r ip sent =>
    intro q cached hsent
    obtain ⟨⟨a, ha, hRa⟩, hRc⟩ := h q cached hsent
    exact ⟨⟨a, ha, hR _ _ hRa⟩, hR _ _ hRc⟩

theorem DnsCacheEntry.Ok.frame {e : DnsCacheEntry} (h : e.Ok R s.queries)
    (hR : ∀ q ip, R q ip → R' q ip)
    (hq : ∀ (q : ℕ) query, s.queries[q]? = some query → s'.queries[q]? = some query) :
    e.Ok R' s'.queries := by
  intro hvalid
  obtain ⟨q, query, hquery, hname, hip⟩ := h hvalid
  exact ⟨q, query, hq _ _ hquery, hname, hR _ _ hip⟩

/-- A step that leaves the calls, the cache and the socket alone. -/
theorem DnsInv.frame (h : DnsInv R s) (hR : ∀ q ip, R q ip → R' q ip)
    (hcalls : s'.calls = s.calls) (hcache : s'.cache = s.cache) (hq : s'.queries = s.queries)
    (hreply : s'.udp = s.udp) : DnsInv R' s' := by
  refine ⟨fun t => ?_, fun i => ?_⟩
  · rw [hcalls]
    exact (h.calls t).frame hR (fun _ _ => by rw [hq]; exact id) (by rw [hreply]; exact id)
      (by rw [hreply])
  · rw [hcache]
    exact (h.cache i).frame hR (fun _ _ => by rw [hq]; exact id)

/-- A step of thread `t` that brings no reply and leaves the cache alone. -/
theorem DnsInv.thread (h : DnsInv R s) (hR : ∀ q ip, R q ip → R' q ip) {c : DnsCall}
    (hcalls : s'.calls = Function.update s.calls t c) (hcache : s'.cache = s.cache)
    (hq : ∀ (q : ℕ) query, s.queries[q]? = some query → s'.queries[q]? = some query)
    (hrec : s'.udp.dns.received → s.udp.dns.received) (hip : s'.udp.dns.ip = s.udp.dns.ip)
    (hc : c.Ok R' s') : DnsInv R' s' := by
  refine ⟨fun t' => ?_, fun i => ?_⟩
  · rw [hcalls]
    by_cases ht : t' = t
    · rw [ht, Function.update_self]
      exact hc
    · rw [Function.update_of_ne ht]
      exact (h.calls t').frame hR hq hrec hip
  · rw [hcache]
    exact (h.cache i).frame hR hq

/-- Only the place of one call changes. -/
theorem DnsInv.setCall (h : DnsInv R s) (hR : ∀ q ip, R q ip → R' q ip) {c : DnsCall}
    (hc : c.Ok R' s) : DnsInv R' (s.setCall t c) := by
  refine h.thread hR rfl rfl (fun _ _ => id) id rfl ?_
  exact hc.frame (fun _ _ => id) (fun _ _ => id) id rfl

/-- A call that fails returns no address. -/
theorem DnsInv.fail (h : DnsInv R s) (hR : ∀ q ip, R q ip → R' q ip) : DnsInv R' (s.fail t) :=
  h.setCall hR fun _ _ hsent => by cases hsent

/-- Entering `dns_resolve` sends nothing yet. -/
theorem DnsInv.resolve (h : DnsInv R s) (hR : ∀ q ip, R q ip → R' q ip) (t : Fin n)
    (host : List UInt8) (arp : Bool) : DnsInv R' (dnsResolve s t host arp) := by
  unfold dnsResolve
  split
  · exact h.fail hR
  split
  · exact h.setCall hR fun _ _ hsent => by cases hsent
  split
  · exact h.setCall hR fun _ _ hsent => by cases hsent
  split
  · exact h.fail hR
  · cases arp with
    | false => exact h.setCall hR trivial
    | true => exact h.setCall hR trivial

/-- Step: what a call does when it goes on, by the place it waits at. -/
theorem DnsInv.resume (h : DnsInv R s) (hR : ∀ q ip, R q ip → R' q ip) (t : Fin n) (ok : Bool) :
    DnsInv R' (dnsResume s t ok) := by
  have hself : DnsInv R' s := h.frame hR rfl rfl rfl rfl
  have ht := hself.calls t
  unfold dnsResume
  cases hc : s.calls t with
  | idle => exact hself
  | returned => exact hself
  | arpWait query arpStart =>
    simp only
    split
    · exact h.setCall hR trivial
    split
    · exact h.fail hR
    · exact hself
  | clear query => exact h.thread hR rfl rfl (fun _ _ => id) (fun hr => by cases hr) rfl rfl
  | clearRcode query =>
    rw [hc] at ht
    exact h.thread hR rfl rfl (fun _ _ => id) id rfl ht
  | send query =>
    simp only
    split
    · rw [hc] at ht
      -- The query gets the next number, and the queries before it keep theirs.
      have hnew : (s.queries ++ [query])[s.queries.length]? = some query := by simp
      refine h.thread hR rfl rfl (fun q query' hq => ?_) id rfl ⟨hnew, fun hr => ?_⟩
      · show (s.queries ++ [query])[q]? = some query'
        rw [List.getElem?_append_left (List.getElem?_eq_some_iff.mp hq).1]
        exact hq
      · have hr : s.udp.dns.received = true := hr
        rw [show s.udp.dns.received = false from ht] at hr
        cases hr
    · exact h.fail hR
  | wait query q start =>
    rw [hc] at ht
    simp only
    split
    · rename_i hrec
      exact h.setCall hR ⟨ht.1, ht.2 hrec⟩
    split
    · exact h.fail hR
    · exact hself
  | checkRcode query q =>
    rw [hc] at ht
    simp only
    split
    · exact h.fail hR
    · exact h.setCall hR ht
  | checkIp query q =>
    rw [hc] at ht
    simp only
    split
    · exact h.fail hR
    · exact h.setCall hR ht
  | readIp query q =>
    rw [hc] at ht
    exact h.setCall hR ⟨ht.1, ht.2, ht.2⟩
  | insert query q ip =>
    rw [hc] at ht
    obtain ⟨hquery, hreply, hip⟩ := ht
    have hret : (DnsCall.returned 0 (some ip) (some (q, s.udp.dns.ip))).Ok R' s := by
      rintro _ _ ⟨⟩
      exact ⟨⟨ip, rfl, hip⟩, hreply⟩
    -- The slot that is overwritten gets the reply of this call.
    refine ⟨(hself.setCall (fun _ _ => id) hret).calls, fun i => ?_⟩
    simp only [DnsSys.setCall, dnsCacheInsert]
    by_cases hi : i = dnsInsertSlot s.cache
    · rw [hi, Function.update_self]
      exact fun _ => ⟨q, query, hquery, rfl, hreply⟩
    · rw [Function.update_of_ne hi]
      exact hself.cache i

/-- A reply for the query of every call that listens. -/
theorem DnsInv.deliver (h : DnsInv R s) (hR : ∀ q ip, R q ip → R' q ip) {q : ℕ} {srcIp : BitVec 32}
    {nb : Netbuf} (hans : s.answers q = some nb) (hown : OwnReplies s (.deliver q srcIp))
    (hnew : ∀ a, nb.dnsAnswer = some a → R' q a.ip) :
    DnsInv R' { s with udp := udpRx s.udp nb srcIp } := by
  have hreply := udpRx_dns s.udp nb srcIp
  simp only [OwnReplies, hans, Option.bind_some] at hown
  refine ⟨fun t => ?_, fun i => (h.cache i).frame hR fun _ _ => id⟩
  have ht := h.calls t
  cases ha : nb.dnsAnswer with
  | none =>
    rw [ha] at hreply
    exact ht.frame hR (fun _ _ => id) (by rw [hreply]; exact id) (by rw [hreply])
  | some a =>
    rw [ha] at hreply hown
    have hown := hown rfl t
    have hip : R' q (udpRx s.udp nb srcIp).dns.ip := by
      rw [hreply]
      exact hnew a ha
    show ((s.calls t).Ok R' _)
    cases hc : s.calls t with
    | idle | arpWait | clear => trivial
    -- No query of this call is out yet, so no reply can be its own.
    | clearRcode | send =>
      rw [hc] at hown
      cases hown rfl
    | wait query q' start =>
      rw [hc] at hown ht
      cases hown rfl
      exact ⟨ht.1, fun _ => hip⟩
    | checkRcode query q' | checkIp query q' | readIp query q' =>
      rw [hc] at hown ht
      cases hown rfl
      exact ⟨ht.1, hip⟩
    | insert query q' ip =>
      rw [hc] at hown ht
      cases hown rfl
      exact ⟨ht.1, hip, hR _ _ ht.2.2⟩
    -- Once a call has returned, replies no longer matter to it.
    | returned r ip sent =>
      rw [hc] at ht
      intro q' cached hsent
      obtain ⟨⟨a', ha', hRa⟩, hRc⟩ := ht q' cached hsent
      exact ⟨⟨a', ha', hR _ _ hRa⟩, hR _ _ hRc⟩

end

/-- One step, where `R` has grown by the reply the step delivers. -/
theorem DnsInv.step {R R' : ℕ → BitVec 32 → Prop} {s : DnsSys n} (h : DnsInv R s) {op : DnsOp n}
    (hok : OwnReplies s op) (hR : ∀ q ip, R q ip → R' q ip)
    (hnew : ∀ q ip, DeliversReply q ip s op → R' q ip) : DnsInv R' (dnsStep s op) := by
  have hself : DnsInv R' s := h.frame hR rfl rfl rfl rfl
  cases op with
  | call t host arp =>
    simp only [dnsStep]
    split
    · exact h.resolve hR t host arp
    · exact hself
  | resume t ok => exact h.resume hR t ok
  | tick => exact h.frame hR rfl rfl rfl rfl
  | answer q nb =>
    simp only [dnsStep]
    split
    · exact hself
    split
    · exact h.frame hR rfl rfl rfl rfl
    · exact hself
  | deliver q srcIp =>
    simp only [dnsStep]
    split
    · exact hself
    · rename_i nb hans
      exact h.deliver hR hans hok fun a ha => hnew q a.ip ⟨srcIp, nb, a, rfl, hans, ha, rfl⟩

/-- In every run in which a listening call meets no reply but its own: a call that returns 0 after sending
a query returns and caches the address of the reply to this query, and every address in the cache comes
from the reply to a query for its host name. -/
theorem dns_answer_belongs {ticks : BitVec 64} {ops : List (DnsOp n)}
    (hops : Run.Admits dnsStep OwnReplies (dnsInit n ticks) ops) :
    let s := Run.run dnsStep (dnsInit n ticks) ops
    let Replied q ip := Run.Past dnsStep (DeliversReply q ip) (dnsInit n ticks) ops
    (∀ t ip q cached, s.calls t = .returned 0 (some ip) (some (q, cached)) →
      Replied q ip ∧ Replied q cached) ∧
    ∀ i, (s.cache i).valid → ∃ q query, s.queries[q]? = some query ∧
      (s.cache i).hostname = query.host.take 63 ∧ Replied q (s.cache i).ip := by
  let Inv (ops : List (DnsOp n)) (s : DnsSys n) : Prop :=
    DnsInv (fun q ip => Run.Past dnsStep (DeliversReply q ip) (dnsInit n ticks) ops) s
  have hinit : Inv [] (dnsInit n ticks) := ⟨fun _ => trivial, fun _ h => by cases h⟩
  have hstep : ∀ ops op, Inv ops (Run.run dnsStep (dnsInit n ticks) ops) →
      OwnReplies (Run.run dnsStep (dnsInit n ticks) ops) op →
      Inv (ops ++ [op]) (dnsStep (Run.run dnsStep (dnsInit n ticks) ops) op) := fun ops op h hok =>
    h.step hok (fun _ _ hR => hR.snoc (fun _ _ => id) op) (fun _ _ hnew => .last hnew)
  have h : Inv ops _ := Run.run_history_of_admits hinit hstep hops
  refine ⟨fun t ip q cached hret => ?_, h.cache⟩
  have ht := h.calls t
  rw [hret] at ht
  obtain ⟨⟨a, ha, hRa⟩, hRc⟩ := ht q cached rfl
  cases ha
  exact ⟨hRa, hRc⟩

end

/-- A datagram from port 53 to port 1053: a reply without question and with one A record. -/
def dnsDatagram (txid : BitVec 16) (ip : List UInt8) : Netbuf :=
  let bytes := be16Bytes 53 ++ be16Bytes 1053 ++ be16Bytes 36 ++ be16Bytes 0 ++ be16Bytes txid ++
    be16Bytes 0x8180 ++ be16Bytes 0 ++ be16Bytes 1 ++ be16Bytes 0 ++ be16Bytes 0 ++
    [0xC0, 12, 0, 1, 0, 1, 0, 0, 0, 60, 0, 4] ++ ip
  { raw := fun i => bytes.getD i 0, data := 0, len := bytes.length }

/-- `dns_resolve` for a host, up to the wait for the reply. -/
def queryRun (host : List UInt8) : List (DnsOp 1) :=
  .call 0 host true :: List.replicate 3 (.resume 0 true)

/-- The host "a.b" is looked up, and its reply arrives. -/
theorem dns_answer_belongs_lookup :
    let ops : List (DnsOp 1) := queryRun [97, 46, 98] ++
      [.answer 0 (dnsDatagram 0 [1, 2, 3, 4]), .deliver 0 3] ++ List.replicate 5 (.resume 0 true)
    (Run.run dnsStep (dnsInit 1 0) ops).calls 0 =
      .returned 0 (some 0x01020304) (some (0, 0x01020304)) ∧
    Run.Past dnsStep (DeliversReply 0 0x01020304) (dnsInit 1 0) ops := by
  have hret : (Run.run dnsStep (dnsInit 1 0) (queryRun [97, 46, 98] ++
      [.answer 0 (dnsDatagram 0 [1, 2, 3, 4]), .deliver 0 3] ++
      List.replicate 5 (.resume 0 true))).calls 0 =
      .returned 0 (some 0x01020304) (some (0, 0x01020304)) := by decide +kernel
  exact ⟨hret, ((dns_answer_belongs (by decide +kernel)).1 0 _ _ _ hret).1⟩

/-- The query for "a.b" times out. Its reply arrives while the call for "c.d" waits for its own. -/
def lateRun : List (DnsOp 1) :=
  queryRun [97, 46, 98] ++ List.replicate 301 .tick ++
    [.resume 0 true, .answer 0 (dnsDatagram 0 [1, 2, 3, 4])] ++ queryRun [99, 46, 100] ++
    [.deliver 0 3] ++ List.replicate 5 (.resume 0 true)

/-- The call for "c.d" returns the address of "a.b", and no reply to its query has arrived. -/
theorem dns_late_reply :
    ¬∀ (ops : List (DnsOp 1)) t ip q cached,
      (Run.run dnsStep (dnsInit 1 0) ops).calls t = .returned 0 (some ip) (some (q, cached)) →
      Run.Past dnsStep (DeliversReply q ip) (dnsInit 1 0) ops := by
  intro h
  have hret : (Run.run dnsStep (dnsInit 1 0) lateRun).calls 0 =
      .returned 0 (some 0x01020304) (some (1, 0x01020304)) := by decide +kernel
  obtain ⟨pre, op, post, hops, srcIp, nb, a, rfl, -⟩ := h lateRun 0 _ _ _ hret
  have hnone : lateRun.all fun | .deliver q _ => q = 0 | _ => true := by decide +kernel
  rw [hops] at hnone
  simp at hnone

end PlantOS.Net
