import PlantOS.Net.TcpChange
import PlantOS.Net.TcpTransmit

/-!
# When a TCP connection frees transmit space

In the states in which `tcp_send` works, `tx_len` should be the distance from `snd_una` to `snd_nxt`. The
acknowledgements of `ESTABLISHED` keep this: an acceptable one moves `snd_una` by the bytes that it removes.
`CLOSE_WAIT` moves `snd_una` and forgets the buffer. And with nothing outstanding, an acknowledgement of
exactly `snd_nxt + 2^31` is acceptable too (`TcpIn.losesCount`).

Reference: `net/tcp.c`.
-/

namespace PlantOS.Net

open Word

/-- The states in which `tcp_send` accepts data. -/
def TcpState.sendable : TcpState → Bool
  | .established | .closeWait => true
  | _ => false

/-- The segment moves `snd_una` without the buffer. -/
def TcpIn.losesCount (seg : TcpIn) (c : TcpConn) : Prop :=
  ¬seg.has tcpRst ∧ seg.has tcpAck ∧ seqLt c.sndUna seg.ack ∧ seqLe seg.ack c.sndNxt ∧
    (c.state = .closeWait ∨ c.state = .established ∧ c.sndUna = c.sndNxt)

instance (seg : TcpIn) (c : TcpConn) : Decidable (seg.losesCount c) :=
  inferInstanceAs (Decidable (_ ∧ _ ∧ _ ∧ _ ∧ _))

/-- The connection whose `tcp_send` the thread is in. -/
def TcpCall.sendsOn : TcpCall → Option (Fin 16)
  | .send i _ _ => some i
  | _ => none

/-- No acknowledgement is lost on the buffer. -/
def CountsAcks (s : TcpSys) : TcpOp → Prop
  | .rx nb srcIp _ => ∀ i, s.findConn (tcpParse nb).dstPort srcIp (tcpParse nb).srcPort = some i →
      ¬(tcpParse nb).losesCount (s.conns i)
  | _ => True

instance (s : TcpSys) : DecidablePred (CountsAcks s)
  | .rx nb srcIp _ => inferInstanceAs (Decidable (∀ i,
      s.findConn (tcpParse nb).dstPort srcIp (tcpParse nb).srcPort = some i →
      ¬(tcpParse nb).losesCount (s.conns i)))
  | .timer | .tick | .connect _ _ _ _ | .listen _ _ | .accept _ _ | .send _ _ _ | .recv _ _ _
  | .close _ _ | .resume _ _ => isTrue trivial

/-- No thread is left inside `tcp_send` in a slot that a new connection takes. -/
def SendersGone (s : TcpSys) (op : TcpOp) : Prop :=
  ∀ i, s.allocates op = some i → ∀ t, (s.calls t).sendsOn ≠ some i

/-- The buffer holds what is not acknowledged, and nothing before the connection is established. -/
structure SpaceInv (c : TcpConn) : Prop where
  len_le : c.txLen ≤ tcpTxbufSize
  opening : c.state.opening → c.txLen = 0
  count : c.state.sendable → c.sndNxt = c.sndUna + BitVec.ofNat 32 c.txLen

/-! ## One connection -/

namespace SpaceInv

variable {c c' : TcpConn} {env : TcpEnv} {seg : TcpIn}

theorem send (h : SpaceInv c) (flags : BitVec 8) (seq : BitVec 32) (data : List UInt8) :
    SpaceInv (tcpSendSegment env flags seq data c) := ⟨h.len_le, h.opening, h.count⟩

/-- A change that leaves the counters alone and opens nothing. -/
theorem keep (h : SpaceInv c) (hopening : c'.state.opening → c.state.opening)
    (hopen : c'.state.sendable → c.state.sendable)
    (hsame : c' = { c' with txLen := c.txLen, sndNxt := c.sndNxt, sndUna := c.sndUna }) : SpaceInv c' := by
  refine ⟨?_, fun ho => ?_, fun ho => ?_⟩
  · rw [hsame]
    exact h.len_le
  · have hlen := h.opening (hopening ho)
    rw [hsame]
    exact hlen
  · have hcount := h.count (hopen ho)
    rw [hsame]
    exact hcount

/-- A state in which `tcp_send` neither is nor will be possible. -/
theorem leave (h : SpaceInv c) (hopening : c'.state.opening = false) (hopen : c'.state.sendable = false)
    (hlen : c'.txLen = c.txLen) : SpaceInv c' := by
  refine ⟨hlen ▸ h.len_le, fun ho => ?_, fun ho => ?_⟩
  · rw [hopening] at ho
    cases ho
  · rw [hopen] at ho
    cases ho

/-- A connection becomes established with an empty buffer. -/
theorem establish (h : SpaceInv c) (hst : c.state.opening)
    (hcount : c'.sndUna = c'.sndNxt) (hlen : c'.txLen = c.txLen) : SpaceInv c' := by
  have hzero := hlen.trans (h.opening hst)
  refine ⟨hlen ▸ h.len_le, fun _ => hzero, fun _ => ?_⟩
  rw [hcount, hzero]
  exact (BitVec.add_zero _).symm

theorem acceptData (h : SpaceInv c) : SpaceInv (tcpAcceptData seg c) := by
  rw [tcpAcceptData_same]
  exact h.keep id id rfl

theorem rxSynSent (h : SpaceInv c) (hst : c.state = .synSent) : SpaceInv (rxSynSent env seg c) := by
  have hopening : c.state.opening := by rw [hst]; rfl
  unfold Net.rxSynSent
  split
  · split
    · rename_i hack
      apply SpaceInv.send
      exact h.establish hopening hack rfl
    · exact h
  · split
    · apply SpaceInv.send
      exact h.keep (fun _ => hopening) (fun ho => by cases ho) rfl
    · exact h

theorem rxSynReceived (h : SpaceInv c) (hst : c.state = .synReceived) : SpaceInv (rxSynReceived seg c) := by
  unfold Net.rxSynReceived
  split
  · rename_i hack
    exact h.establish (by rw [hst]; rfl) hack.2 rfl
  · exact h

/-- The bytes that an acknowledgement covers leave the buffer. -/
theorem rxEstablishedAck (h : SpaceInv c) (hst : c.state = .established) (hrst : ¬seg.has tcpRst)
    (hok : ¬seg.losesCount c) : SpaceInv (rxEstablishedAck seg c) := by
  unfold Net.rxEstablishedAck
  split
  swap
  · exact h
  rename_i hack
  obtain ⟨hflag, hlt, hle⟩ := hack
  have hlen := h.len_le
  have hcount := h.count (by rw [hst]; rfl)
  obtain ⟨hpos, hacked⟩ := acked_le hlen hlt (hcount ▸ hle) (by
    rintro ⟨hzero, -⟩
    refine hok ⟨hrst, hflag, hlt, hle, .inr ⟨hst, ?_⟩⟩
    rw [hcount, hzero]
    exact (BitVec.add_zero _).symm)
  simp only [if_pos (And.intro hpos hacked)]
  generalize hn : (seg.ack - c.sndUna).toNat = n at hacked
  have hwrap : wrap 16 ((c.txLen : ℤ) - wrap 16 n) = c.txLen - n := by
    simp only [tcpTxbufSize] at hlen
    rw [wrap_of_lt rfl (by omega : n < 2 ^ 16)]
    exact wrap_of_lt (by omega) (by omega)
  refine ⟨?_, fun ho => ?_, fun _ => ?_⟩
  · simp only [hwrap]
    omega
  · simp only [hst] at ho
    cases ho
  · simp only [hwrap, hcount]
    simp only [tcpTxbufSize] at hlen
    bv_omega

theorem rxEstablished (h : SpaceInv c) (hst : c.state = .established) (hrst : ¬seg.has tcpRst)
    (hok : ¬seg.losesCount c) : SpaceInv (rxEstablished env seg c) := by
  have hack := h.rxEstablishedAck hst hrst hok
  have hstate : (Net.rxEstablishedAck seg c).state = .established := by
    rw [rxEstablishedAck_same]
    exact hst
  have hdata : SpaceInv (rxEstablishedData env seg (Net.rxEstablishedAck seg c)) ∧
      (rxEstablishedData env seg (Net.rxEstablishedAck seg c)).state = .established := by
    unfold rxEstablishedData
    split
    · refine ⟨hack.acceptData.send _ _ _, ?_⟩
      show (tcpAcceptData seg (Net.rxEstablishedAck seg c)).state = .established
      rw [tcpAcceptData_same]
      exact hstate
    · exact ⟨hack, hstate⟩
  unfold Net.rxEstablished rxEstablishedFin
  split
  · apply SpaceInv.send
    exact hdata.1.keep (fun ho => by cases ho) (fun _ => by rw [hdata.2]; rfl) rfl
  · exact hdata.1

theorem rxFinWaitData (h : SpaceInv c) : SpaceInv (rxFinWaitData seg c) := by
  unfold Net.rxFinWaitData
  split
  · exact h.acceptData
  · exact h

theorem rxFinWait1 (h : SpaceInv c) : SpaceInv (rxFinWait1 env seg c) := by
  have hack : SpaceInv (rxFinWait1Ack env seg c) := by
    unfold rxFinWait1Ack
    split
    · simp only
      split
      · apply SpaceInv.send
        exact h.leave rfl rfl rfl
      · exact h.leave rfl rfl rfl
    · exact h
  have hfin : SpaceInv (rxFinWait1Fin env seg (rxFinWait1Ack env seg c)) := by
    unfold rxFinWait1Fin
    split
    · apply SpaceInv.send
      exact hack.leave rfl rfl rfl
    · exact hack
  exact hfin.rxFinWaitData

theorem rxFinWait2 (h : SpaceInv c) : SpaceInv (rxFinWait2 env seg c) := by
  unfold Net.rxFinWait2 rxFinWait2Fin
  split
  · apply SpaceInv.send
    exact h.rxFinWaitData.leave rfl rfl rfl
  · exact h.rxFinWaitData

theorem free (h : SpaceInv c) : SpaceInv (freeConn c) := h.leave rfl rfl rfl

theorem rxConn (h : SpaceInv c) (hok : ¬seg.losesCount c) : SpaceInv (tcpRxConn env seg c) := by
  unfold tcpRxConn
  split
  · exact h.leave rfl rfl rfl
  rename_i hrst
  split
  case h_1 hst => exact h.rxSynSent hst
  case h_2 hst => exact h.rxSynReceived hst
  case h_3 hst => exact h.rxEstablished hst hrst hok
  case h_4 hst => exact h.rxFinWait1
  case h_5 hst => exact h.rxFinWait2
  case h_6 hst =>
    unfold rxClosing
    split
    · exact h.leave rfl rfl rfl
    · exact h
  case h_7 hst =>
    unfold rxLastAck
    split
    · exact h.free
    · exact h
  case h_8 hst =>
    -- an acceptable acknowledgement is one that gets lost
    unfold rxCloseWait
    split
    · rename_i hack
      exact absurd ⟨hrst, hack.1, hack.2.1, hack.2.2, .inl hst⟩ hok
    · exact h
  case h_9 hst =>
    unfold rxTimeWait
    split
    · exact h.keep id id rfl
    · exact h
  case h_10 => exact h
  case h_11 => exact h

theorem timer (h : SpaceInv c) : SpaceInv (tcpTimerConn env c) := by
  have hbackoff : SpaceInv (tcpBackoff c) := h.keep id id rfl
  unfold tcpTimerConn
  split
  · exact h
  split
  · exact h.free
  split
  · unfold tcpTimerSyn
    split
    · split
      · exact h.free
      · simp only
        split
        · exact hbackoff.send _ _ _
        · exact hbackoff.send _ _ _
    · exact h
  split
  · unfold tcpTimerData
    split
    · split
      · exact h.free
      · exact hbackoff.send _ _ _
    · exact h
  · exact h

/-- A chunk takes buffer space and sequence numbers alike. -/
theorem chunk (h : SpaceInv c) (hst : c.state.opening = false) (rest : List UInt8) :
    SpaceInv (tcpSendChunk env rest c) := by
  obtain ⟨-, hfit⟩ := tcpSendChunkLen_le c rest.length h.len_le
  unfold tcpSendChunk
  generalize tcpSendChunkLen c rest.length = n at hfit
  have hlen : wrap 16 ((c.txLen : ℤ) + n) = c.txLen + n :=
    wrap_of_lt (by omega) (by simp only [tcpTxbufSize] at hfit; omega)
  simp only [hlen]
  refine ⟨hfit, fun ho => ?_, fun ho => ?_⟩
  · have ho : c.state.opening = true := ho
    rw [hst] at ho
    cases ho
  · show c.sndNxt + _ = c.sndUna + BitVec.ofNat 32 (c.txLen + n)
    rw [h.count ho, BitVec.ofNat_add, BitVec.add_assoc]

theorem close (h : SpaceInv c) : SpaceInv (tcpCloseSwitch env c) := by
  have hfin : ∀ st, TcpState.opening st = false → TcpState.sendable st = false →
      SpaceInv (tcpCloseFin env st c) := fun st hopening hopen => h.leave hopening hopen rfl
  unfold tcpCloseSwitch
  split
  · exact hfin _ rfl rfl
  · exact hfin _ rfl rfl
  · exact h.free
  · exact h.free
  · exact h

theorem recv (h : SpaceInv c) (len : ℕ) : SpaceInv (tcpRecvRead env len c).2 := by
  have hread : SpaceInv { (rxbufRead c len).2 with
      recvd := (rxbufRead c len).2.recvd ++ (rxbufRead c len).1 } := by
    rw [rxbufRead_same]
    exact h.keep id id rfl
  unfold tcpRecvRead
  simp only
  split
  · exact hread.send _ _ _
  · exact hread

/-- A new connection has an empty buffer. -/
theorem fresh (hlen : c'.txLen = 0) (hopen : c'.state.sendable = false) : SpaceInv c' := by
  refine ⟨hlen ▸ Nat.zero_le _, fun _ => hlen, fun ho => ?_⟩
  rw [hopen] at ho
  cases ho

/-- Every change of a connection keeps the invariant, if threads in `tcp_send` are on connections that have
been established. -/
theorem act {s : TcpSys} {op : TcpOp} {i : Fin 16} {a : TcpAct} (hok : CountsAcks s op)
    (hsend : ∀ t, (s.calls t).sendsOn = some i → (s.conns i).state.opening = false)
    (ha : TcpAct.Of s op i a) (h : SpaceInv (s.conns i)) : SpaceInv (a.run env (s.conns i)) := by
  cases ha with
  | rx hlen hfind => exact h.rxConn (hok i hfind)
  | rxSyn hfree => exact (fresh rfl rfl : SpaceInv _).send _ _ _
  | timer => exact h.timer
  | ready => exact h.keep id id rfl
  | @connect t dstIp dstPort arp i localIp localPort hfree =>
    have hopen : SpaceInv (tcpConnectOpen env localIp dstIp localPort dstPort (s.conns i)) := fresh rfl rfl
    cases arp with
    | false => exact hopen
    | true => exact hopen.send _ _ _
  | syn => exact h.send _ _ _
  | listen => exact fresh rfl rfl
  | free => exact h.free
  | @chunk t arp i data sent hcall hsent hspace => exact h.chunk (hsend t (by rw [hcall]; rfl)) _
  | recv => exact h.recv _
  | close => exact h.close

end SpaceInv

/-! ## The threads -/

section

variable {net : TcpNet} {s : TcpSys} {op : TcpOp} {t : ℕ} {i : Fin 16}

/-- From `s` to `s'` no thread enters `tcp_send`. -/
def NoneEnters (s s' : TcpSys) : Prop :=
  ∀ t i, (s'.calls t).sendsOn = some i → (s.calls t).sendsOn = some i

theorem NoneEnters.same {s' : TcpSys} (h : s'.calls = s.calls) : NoneEnters s s' := by
  intro t i ht
  rwa [h] at ht

/-- A thread leaves its call, or is still in the same `tcp_send`. -/
theorem NoneEnters.setCall {s' : TcpSys} {k : TcpCall} (h : s'.calls = s.calls)
    (hk : k.sendsOn = none ∨ k.sendsOn = (s.calls t).sendsOn) : NoneEnters s (s'.setCall t k) := by
  intro u i hu
  simp only [TcpSys.setCall, h] at hu
  by_cases hut : u = t
  · rw [hut, Function.update_self] at hu
    rcases hk with hk | hk
    · rw [hk] at hu
      cases hu
    · rwa [hut, ← hk]
  · rwa [Function.update_of_ne hut] at hu

theorem NoneEnters.ite {a b : TcpSys} {p : Prop} [Decidable p] (ha : NoneEnters s a) (hb : NoneEnters s b) :
    NoneEnters s (if p then a else b) := by
  split
  · exact ha
  · exact hb

theorem noneEnters_tcpResume (net : TcpNet) (s : TcpSys) (t : ℕ) (arp : Bool) :
    NoneEnters s (tcpResume net s t arp) := by
  have hsame : NoneEnters s s := .same rfl
  have hset {s' : TcpSys} {k : TcpCall} (hs' : s'.calls = s.calls) (hk : k.sendsOn = none) :
      NoneEnters s (s'.setCall t k) := .setCall hs' (.inl hk)
  unfold tcpResume
  split
  case h_1 | h_2 => exact hsame
  case h_3 => exact .ite (hset rfl rfl) (.ite (hset rfl rfl) hsame)
  case h_4 => exact .ite (.ite (hset rfl rfl) hsame) (.ite (hset rfl rfl) (hset rfl rfl))
  case h_5 =>
    refine .ite hsame ?_
    dsimp only
    split <;> exact hset rfl rfl
  case h_6 => exact .ite (.ite (hset rfl rfl) hsame) (.ite (hset rfl rfl) (hset rfl rfl))
  case h_7 hcall =>
    -- after a chunk the thread is in the same call
    exact .ite (hset rfl rfl) (.ite (.ite (hset rfl rfl) hsame) (.setCall rfl (.inr (by rw [hcall]; rfl))))
  case h_8 => exact .ite (.same rfl) (.ite (hset rfl rfl) (hset rfl rfl))
  case h_9 => exact .ite (.ite (hset rfl rfl) hsame) (hset rfl rfl)

/-- Only the entry of `tcp_send` brings a thread into it, and that tests the state. -/
theorem sendsOn_tcpStep (h : ((tcpStep net s op).calls t).sendsOn = some i) :
    (s.calls t).sendsOn = some i ∨
      (s.conns i).state.sendable ∧ (tcpStep net s op).conns = s.conns := by
  have hsame : NoneEnters s s := .same rfl
  have hset {s' : TcpSys} {t' : ℕ} {k : TcpCall} (hs' : s'.calls = s.calls) (hk : k.sendsOn = none) :
      NoneEnters s (s'.setCall t' k) := .setCall hs' (.inl hk)
  cases op with
  | rx nb srcIp dstIp => exact .inl (NoneEnters.same (tcpRx_calls ..) t i h)
  | timer | tick => exact .inl h
  | connect t' dstIp dstPort arp =>
    refine .inl (NoneEnters.ite ?_ hsame t i h)
    rw [tcpConnect]
    split
    · exact hset rfl rfl
    · exact .ite (hset rfl rfl) (hset rfl rfl)
  | listen t' port =>
    refine .inl (NoneEnters.ite ?_ hsame t i h)
    rw [tcpListen]
    split <;> exact hset rfl rfl
  | accept t' conn =>
    refine .inl (NoneEnters.ite ?_ hsame t i h)
    rw [tcpAccept]
    split
    · exact hset rfl rfl
    · exact .ite (hset rfl rfl) (hset rfl rfl)
  | send t' conn data =>
    simp only [tcpStep, tcpSend] at h ⊢
    split at h
    · rename_i hready
      rw [if_pos hready]
      split at h
      · exact .inl (hset rfl rfl t i h)
      · rename_i j hj
        split at h
        · exact .inl (hset rfl rfl t i h)
        · rename_i hopen
          -- the thread enters on a connection that takes data
          by_cases ht : t = t'
          · simp only [TcpSys.setCall, ht, Function.update_self, TcpCall.sendsOn, Option.some.injEq] at h
            subst h
            refine .inr ⟨?_, by rw [if_neg hopen]; rfl⟩
            simp only [not_or, not_not, not_and] at hopen
            by_cases hest : (s.conns j).state = .established
            · rw [hest]
              rfl
            · rw [hopen.2 hest]
              rfl
          · simp only [TcpSys.setCall, Function.update_of_ne ht] at h
            exact .inl h
    · exact .inl h
  | recv t' conn len =>
    refine .inl (NoneEnters.ite ?_ hsame t i h)
    rw [tcpRecv]
    split
    · exact hset rfl rfl
    · exact .ite (hset rfl rfl) (hset rfl rfl)
  | close t' conn =>
    refine .inl (NoneEnters.ite ?_ hsame t i h)
    rw [tcpClose]
    split
    · exact hset rfl rfl
    · exact .ite (hset rfl rfl) (hset rfl rfl)
  | resume t' arp => exact .inl (noneEnters_tcpResume net s t' arp t i h)

/-- A connection that has left the opening states does not return to them. -/
theorem TcpState.not_opening_of_leads {st st' : TcpState} (h : st.opening = false) (hleads : st.leads st') :
    st'.opening = false := by
  revert h hleads
  cases st <;> cases st' <;> decide

end

/-! ## Runs -/

/-- The buffers are counted right, and threads in `tcp_send` are on connections that have been established. -/
structure SendSpaceInv (s : TcpSys) : Prop where
  space : ∀ i, SpaceInv (s.conns i)
  senders : ∀ t i, (s.calls t).sendsOn = some i → (s.conns i).state.opening = false

/-- Step: one connection acts at a time, and a slot that is taken anew has no senders left. -/
theorem SendSpaceInv.step {net : TcpNet} {s : TcpSys} {op : TcpOp} (h : SendSpaceInv s)
    (hop : CountsAcks s op ∧ SendersGone s op) : SendSpaceInv (tcpStep net s op) where
  space i := by
    rcases TcpSys.moves_tcpStep net s op i with hsame | ⟨a, ha, heq⟩
    · rw [hsame]
      exact h.space i
    · rw [heq]
      exact (h.space i).act hop.1 (fun t ht => h.senders t i ht) ha
  senders t i ht := by
    rcases sendsOn_tcpStep ht with hbefore | ⟨hopen, hsame⟩
    · have hnew : s.allocates op ≠ some i := fun halloc => hop.2 i halloc t hbefore
      exact TcpState.not_opening_of_leads (h.senders t i hbefore) (tcpStep_reaches net hnew).follows.2.2.2
    · rw [hsame]
      revert hopen
      cases (s.conns i).state <;> decide

/-- TCP frees transmit space as data is acknowledged, in every run in which no acknowledgement is lost on the
buffer: where `tcp_send` works, `tx_len` is the number of bytes sent and not acknowledged, so that a sender
does not wait once everything has been acknowledged. -/
theorem tcp_frees_space {net : TcpNet} {ticks : BitVec 64} {ops : List TcpOp}
    (hops : Run.Admits (tcpStep net) (fun s op => CountsAcks s op ∧ SendersGone s op) (tcpInit ticks) ops)
    (i : Fin 16) :
    let c := (Run.run (tcpStep net) (tcpInit ticks) ops).conns i
    c.state = .established ∨ c.state = .closeWait →
      c.txLen = (c.sndNxt - c.sndUna).toNat ∧ (c.sndUna = c.sndNxt → c.txLen < tcpTxbufSize) := by
  have hinit : SendSpaceInv (tcpInit ticks) :=
    ⟨fun _ => SpaceInv.fresh rfl rfl, fun t i ht => by cases ht⟩
  have hstep : ∀ s op, SendSpaceInv s → CountsAcks s op ∧ SendersGone s op →
      SendSpaceInv (tcpStep net s op) := fun _ _ h hop => h.step hop
  have hinv := Run.run_invariant_of_admits hstep hinit hops
  intro c hst
  obtain ⟨hle, -, hcount⟩ : SpaceInv c := hinv.space i
  have hcount := hcount (by rcases hst with hst | hst <;> rw [hst] <;> rfl)
  have hlen : c.txLen = (c.sndNxt - c.sndUna).toNat := by
    simp only [tcpTxbufSize] at hle
    bv_omega
  refine ⟨hlen, fun hall => ?_⟩
  rw [hlen, hall, BitVec.sub_self]
  decide

theorem SendersGone.of_none {s : TcpSys} {op : TcpOp} (h : s.allocates op = none) : SendersGone s op := by
  intro i hi
  rw [h] at hi
  cases hi

/-- A byte is sent and acknowledged. -/
theorem tcp_frees_space_acked :
    let c := (Run.run (tcpStep ⟨9, fun _ _ => true⟩) (tcpInit 40000) (connectRun ++ [.send 0 0 [65],
      .resume 0 true, .rx (plainSegment 0x0050C000 501 2560692347 tcpAck []) 7 9])).conns 0
    c.state = .established ∧ c.stream = [65] ∧ c.sndUna = c.sndNxt ∧
      (c.txLen = (c.sndNxt - c.sndUna).toNat ∧ (c.sndUna = c.sndNxt → c.txLen < tcpTxbufSize)) := by
  refine ⟨by decide +kernel, by decide +kernel, by decide +kernel, tcp_frees_space ?_ 0 (by decide +kernel)⟩
  exact ⟨⟨trivial, fun i _ t => nofun⟩, ⟨by decide +kernel, .of_none (by decide +kernel)⟩,
    ⟨trivial, .of_none rfl⟩, ⟨trivial, .of_none rfl⟩, ⟨trivial, .of_none rfl⟩,
    ⟨by decide +kernel, .of_none (by decide +kernel)⟩, trivial⟩

/-- The peer closes its side, and then acknowledges the byte. -/
theorem tcp_closeWait_keeps_buffer :
    ¬∀ ops : List TcpOp, Run.Admits (tcpStep ⟨9, fun _ _ => true⟩) SendersGone (tcpInit 40000) ops →
      let c := (Run.run (tcpStep ⟨9, fun _ _ => true⟩) (tcpInit 40000) ops).conns 0
      c.state = .established ∨ c.state = .closeWait → c.txLen = (c.sndNxt - c.sndUna).toNat := by
  intro h
  have hlost := h (connectRun ++ [.send 0 0 [65], .resume 0 true, .resume 0 true,
    .rx (plainSegment 0x0050C000 501 2560692346 (tcpAck ||| tcpFin) []) 7 9,
    .rx (plainSegment 0x0050C000 502 2560692347 tcpAck []) 7 9])
    (by
      exact ⟨fun i _ t => nofun, .of_none (by decide +kernel), .of_none rfl, .of_none rfl, .of_none rfl,
        .of_none rfl, .of_none (by decide +kernel), .of_none (by decide +kernel), trivial⟩)
  revert hlost
  decide +kernel

end PlantOS.Net
