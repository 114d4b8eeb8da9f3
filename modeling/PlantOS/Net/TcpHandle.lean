import PlantOS.Net.TcpChange
import PlantOS.Net.TcpTransmit

/-!
# Connection numbers

`tcp_connect` and `tcp_accept` return a slot number, and `tcp_send` and `tcp_recv` take whatever
connection the slot holds when they are called. A run is observed together with the numbers that were
returned and not yet closed by their owner (`held`), and with the sender of every byte in the receive
rings (`stored`).

A slot keeps its peer until it is allocated again, so a number denotes one peer as long as no slot is
allocated whose number is held (`NotReused`). `free_conn` runs without the owner, after retransmissions
without an answer, so the next SYN or `tcp_connect` can take the slot while the owner still uses its number.

Reference: `net/tcp.c`.
-/

namespace PlantOS.Net

/-- A returned connection number: the task it was returned to, and the peer of the connection. -/
structure TcpHandle where
  owner : ℕ
  peer : TcpPeer
deriving DecidableEq

/-- The subsystem with the numbers held and the senders of the bytes received in each slot. -/
structure HandleSys where
  sys : TcpSys
  held : Fin 16 → List TcpHandle
  stored : Fin 16 → List (TcpPeer × UInt8)

/-- The number that `tcp_connect` or `tcp_accept` returns in the step from `s` to `s'`, and to whom. -/
def TcpSys.returns (s s' : TcpSys) : TcpOp → Option (ℕ × Fin 16)
  | .resume t _ =>
    match s.calls t, s'.calls t with
    | .connectWait i _, .returned r _ => if r = i then some (t, i) else none
    | .acceptChild i _, .returned r _ => if r = i then some (t, i) else none
    | _, _ => none
  | _ => none

/-- The number that a task closes in this step. -/
def TcpSys.closes (s : TcpSys) : TcpOp → Option (ℕ × Fin 16)
  | .close t conn => if (s.calls t).ready then (tcpIndex conn).map (t, ·) else none
  | _ => none

namespace HandleSys

/-- The handles on slot `i` after the step to `s'`. -/
def nextHeld (h : HandleSys) (op : TcpOp) (s' : TcpSys) (i : Fin 16) : List TcpHandle :=
  let kept := (h.held i).filter fun x => h.sys.closes op ≠ some (x.owner, i)
  match h.sys.returns s' op with
  | some (t, j) => if j = i then ⟨t, (s'.conns i).peer⟩ :: kept else kept
  | none => kept

/-- The bytes received in slot `i` after the step to `s'`, since the slot was allocated. -/
def nextStored (h : HandleSys) (op : TcpOp) (s' : TcpSys) (i : Fin 16) : List (TcpPeer × UInt8) :=
  if (s'.conns i).gen = (h.sys.conns i).gen then
    match op with
    | .rx nb srcIp _ => h.stored i ++ ((s'.conns i).received.drop (h.sys.conns i).received.length).map
        fun b => ((srcIp, (tcpParse nb).srcPort), b)
    | _ => h.stored i
  else []

end HandleSys

/-- A step of the subsystem, observed. -/
def handleStep (net : TcpNet) (h : HandleSys) (op : TcpOp) : HandleSys :=
  let s' := tcpStep net h.sys op
  ⟨s', h.nextHeld op s', h.nextStored op s'⟩

/-- The state after `tcp_init`. -/
def handleInit (ticks : BitVec 64) : HandleSys := ⟨tcpInit ticks, fun _ => [], fun _ => []⟩

/-- The step does not allocate a slot whose number is held. -/
def NotReused (h : HandleSys) (op : TcpOp) : Prop :=
  ∀ i, h.sys.allocates op = some i → h.held i = []

instance (h : HandleSys) : DecidablePred (NotReused h) := fun op =>
  match hi : h.sys.allocates op with
  | none => isTrue (fun i h' => by cases hi.symm.trans h')
  | some i => decidable_of_iff (h.held i = []) ⟨fun h' j hj => by cases hi.symm.trans hj; exact h', (· i hi)⟩

/-! ## The invariant -/

/-- The held numbers denote their peers, and every byte in a slot was sent by the slot's peer. -/
structure HandleInv (h : HandleSys) : Prop where
  ring : ∀ i, Ring.Wf tcpRxbufSize (h.sys.conns i).rxHead (h.sys.conns i).rxTail (h.sys.conns i).rxCount
  peer : ∀ i, ∀ x ∈ h.held i, x.peer = (h.sys.conns i).peer
  stored : ∀ i, (h.stored i).map Prod.snd = (h.sys.conns i).received
  source : ∀ i, ∀ x ∈ h.stored i, x.1 = (h.sys.conns i).peer

section

variable {net : TcpNet} {h : HandleSys} {op : TcpOp} {i : Fin 16}

/-- No slot is held and nothing is stored. -/
theorem handleInv_init (ticks : BitVec 64) : HandleInv (handleInit ticks) where
  ring _ := Ring.wf_empty (by decide)
  peer _ _ hx := absurd hx List.not_mem_nil
  stored _ := rfl
  source _ _ hx := absurd hx List.not_mem_nil

/-- A connection number is returned by a waiting call only, never in a step that allocates. -/
theorem TcpSys.returns_of_opens {s s' : TcpSys} (hop : op.opens) : s.returns s' op = none := by
  cases op with
  | rx | connect | listen => rfl
  | _ => cases hop

/-- Handles of the next state are handles of this one, or new with the peer of the slot. -/
theorem HandleSys.mem_nextHeld {s' : TcpSys} {x : TcpHandle} (hx : x ∈ h.nextHeld op s' i) :
    x ∈ h.held i ∨ (h.sys.returns s' op).isSome ∧ x.peer = (s'.conns i).peer := by
  simp only [HandleSys.nextHeld] at hx
  split at hx
  · rename_i t j hret
    split at hx
    · rcases List.mem_cons.mp hx with rfl | hx
      · exact .inr ⟨by rw [hret]; rfl, rfl⟩
      · exact .inl (List.mem_filter.mp hx).1
    · exact .inl (List.mem_filter.mp hx).1
  · exact .inl (List.mem_filter.mp hx).1

/-- A segment is delivered to the connection with its sender. -/
theorem peer_of_delivers {s : TcpSys} {nb : Netbuf} {srcIp dstIp : BitVec 32} {seg : TcpIn}
    (hseg : s.delivers i (.rx nb srcIp dstIp) = some seg) :
    (s.conns i).peer = (srcIp, (tcpParse nb).srcPort) := by
  simp only [TcpSys.delivers] at hseg
  split at hseg
  swap
  · cases hseg
  rename_i hfind
  have htriple := (TcpSys.findConn_eq_some hfind.2).1
  exact congrArg Prod.snd htriple

/-- A slot that is not allocated in this step. -/
theorem HandleInv.serves (hinv : HandleInv h) (hi : h.sys.allocates op ≠ some i) :
    ∃ new, (h.sys.conns i).Serves ((tcpStep net h.sys op).conns i) new ∧
      (h.sys.delivers i op = none → new = []) :=
  (tcpStep_reaches net hi).serves (hinv.ring i)

/-- What a slot receives in a step is from its peer. -/
theorem HandleSys.nextStored_eq {s' : TcpSys} {new : List UInt8}
    (hserves : (h.sys.conns i).Serves (s'.conns i) new) (hnew : h.sys.delivers i op = none → new = []) :
    h.nextStored op s' i = h.stored i ++ new.map fun b => ((h.sys.conns i).peer, b) := by
  have hdrop : (s'.conns i).received.drop (h.sys.conns i).received.length = new := by
    rw [hserves.received, List.drop_left]
  unfold HandleSys.nextStored
  rw [if_pos hserves.gen]
  cases op with
  | rx nb srcIp dstIp =>
    simp only [hdrop]
    cases hseg : h.sys.delivers i (.rx nb srcIp dstIp) with
    | none => rw [hnew hseg, List.map_nil, List.map_nil]
    | some seg => rw [peer_of_delivers hseg]
  | _ => rw [hnew rfl, List.map_nil, List.append_nil]

/-- One step. -/
theorem HandleInv.step (hinv : HandleInv h) (hop : NotReused h op) : HandleInv (handleStep net h op) := by
  have hslot (i : Fin 16) : Ring.Wf tcpRxbufSize ((tcpStep net h.sys op).conns i).rxHead
        ((tcpStep net h.sys op).conns i).rxTail ((tcpStep net h.sys op).conns i).rxCount ∧
      (∀ x ∈ h.nextHeld op (tcpStep net h.sys op) i, x.peer = ((tcpStep net h.sys op).conns i).peer) ∧
      (h.nextStored op (tcpStep net h.sys op) i).map Prod.snd =
        ((tcpStep net h.sys op).conns i).received ∧
      ∀ x ∈ h.nextStored op (tcpStep net h.sys op) i, x.1 = ((tcpStep net h.sys op).conns i).peer := by
    by_cases hi : h.sys.allocates op = some i
    · -- a new connection: nobody holds its number, and nothing has been received
      obtain ⟨hgen, hhead, htail, hcount, hrecvd⟩ := tcpStep_allocates net hi
      have hreset : h.nextStored op (tcpStep net h.sys op) i = [] :=
        if_neg (by rw [hgen]; omega)
      rw [hreset]
      refine ⟨?_, fun x hx => ?_, ?_, fun x hx => absurd hx List.not_mem_nil⟩
      · rw [hhead, htail, hcount]
        exact Ring.wf_empty (by decide)
      · rcases HandleSys.mem_nextHeld hx with hx | ⟨hret, -⟩
        · rw [hop i hi] at hx
          exact absurd hx List.not_mem_nil
        · rw [TcpSys.returns_of_opens (TcpSys.opens_of_allocates hi)] at hret
          cases hret
      · rw [TcpConn.received, hrecvd, TcpConn.unread, hcount]
        rfl
    · obtain ⟨new, hserves, hnew⟩ := @HandleInv.serves net _ _ _ hinv hi
      refine ⟨hserves.ring, fun x hx => ?_, ?_, ?_⟩
      · rcases HandleSys.mem_nextHeld hx with hx | ⟨-, hx⟩
        · rw [hinv.peer i x hx, hserves.peer]
        · exact hx
      · rw [HandleSys.nextStored_eq hserves hnew, List.map_append, hinv.stored, hserves.received,
          List.map_map]
        exact congrArg _ (List.map_id _)
      · intro x hx
        rw [HandleSys.nextStored_eq hserves hnew] at hx
        rw [hserves.peer]
        rcases List.mem_append.mp hx with hx | hx
        · exact hinv.source i x hx
        · obtain ⟨b, -, rfl⟩ := List.mem_map.mp hx
          rfl
  exact ⟨fun i => (hslot i).1, fun i => (hslot i).2.1, fun i => (hslot i).2.2.1, fun i => (hslot i).2.2.2⟩

end

/-! ## The property -/

/-- `tcp_recv` returns the next bytes of the slot's stream. -/
theorem tcpRecvIter_returns {net : TcpNet} {s : TcpSys} {t : ℕ} {i : Fin 16} {len : ℕ} {r : ℤ}
    {buf : List UInt8}
    (hring : Ring.Wf tcpRxbufSize (s.conns i).rxHead (s.conns i).rxTail (s.conns i).rxCount)
    (hcall : s.calls t = .recv i len) (hret : (tcpRecvIter net s t i len).calls t = .returned r buf) :
    ∃ rest, (s.conns i).received = (s.conns i).recvd ++ buf ++ rest := by
  unfold tcpRecvIter at hret
  split at hret
  · rw [TcpSys.upd, hcall] at hret
    cases hret
  split at hret
  · simp only [TcpSys.ret, TcpSys.setCall, Function.update_self, TcpCall.returned.injEq] at hret
    exact ⟨(s.conns i).unread, by rw [← hret.2, List.append_nil]; rfl⟩
  · simp only [TcpSys.setCall, Function.update_self, TcpCall.returned.injEq] at hret
    obtain ⟨-, rfl⟩ := hret
    obtain ⟨-, hview⟩ := rxbufRead_spec hring len
    refine ⟨(rxbufRead (s.conns i) len).2.unread, ?_⟩
    rw [List.append_assoc]
    exact congrArg _ hview.symm

/-- In every run in which no slot is allocated while its number is held: whatever is sent on a slot goes to
the peer of every connection returned with that number and not closed, and what `tcp_recv` returns was
sent by that peer. -/
theorem tcp_handle_one_peer {net : TcpNet} {ticks : BitVec 64} {ops : List TcpOp} {op : TcpOp}
    (hops : Run.Admits (handleStep net) NotReused (handleInit ticks) (ops ++ [op])) :
    let h := Run.run (handleStep net) (handleInit ticks) ops
    let h' := handleStep net h op
    ∀ i, ∀ x ∈ h.held i,
      (∀ o ∈ (h'.sys.conns i).out.drop (h.sys.conns i).out.length, o.peer = x.peer) ∧
      ∀ t arp len r buf, op = .resume t arp → h.sys.calls t = .recv i len →
        h'.sys.calls t = .returned r buf →
        ∃ bytes, bytes <:+: h.stored i ∧ buf = bytes.map Prod.snd ∧ ∀ b ∈ bytes, b.1 = x.peer := by
  intro h h' i x hx
  obtain ⟨hops, hop⟩ := Run.admits_append.mp hops
  have hinv : HandleInv h :=
    Run.run_invariant_of_admits (fun _ _ hinv hop => hinv.step hop) (handleInv_init ticks) hops
  have hi : h.sys.allocates op ≠ some i := by
    intro hi
    have hempty := hop.1 i hi
    rw [hempty] at hx
    exact absurd hx List.not_mem_nil
  refine ⟨fun o ho => ?_, fun t arp len r buf hop hcall hret => ?_⟩
  · obtain ⟨new, hserves, -⟩ := @HandleInv.serves net _ _ _ hinv hi
    obtain ⟨os, hout, hos⟩ := hserves.sent
    have hnew : o ∈ os := by
      have hdrop : (h'.sys.conns i).out.drop (h.sys.conns i).out.length = os := by
        show ((tcpStep net h.sys op).conns i).out.drop _ = os
        rw [hout, List.drop_left]
      rwa [hdrop] at ho
    rw [hos o hnew, hinv.peer i x hx]
  · subst hop
    have hiter : (tcpRecvIter net h.sys t i len).calls t = .returned r buf := by
      have hstep : tcpStep net h.sys (.resume t arp) = tcpRecvIter net h.sys t i len := by
        simp only [tcpStep, tcpResume, hcall]
      rw [← hstep]
      exact hret
    obtain ⟨rest, hrest⟩ := tcpRecvIter_returns (hinv.ring i) hcall hiter
    refine ⟨((h.stored i).drop (h.sys.conns i).recvd.length).take buf.length, ?_, ?_, fun b hb => ?_⟩
    · exact (List.take_prefix _ _).isInfix.trans (List.drop_suffix _ _).isInfix
    · rw [List.map_take, List.map_drop, hinv.stored, hrest, List.append_assoc, List.drop_left,
        List.take_left]
    · rw [hinv.peer i x hx]
      exact hinv.source i b (List.mem_of_mem_drop (List.mem_of_mem_take hb))

/-- A client that sends one byte. -/
theorem tcp_handle_one_peer_send :
    let h := Run.run (handleStep ⟨9, fun _ _ => true⟩) (handleInit 40000)
      (connectRun ++ [TcpOp.send 0 0 [65]])
    let h' := handleStep ⟨9, fun _ _ => true⟩ h (.resume 0 true)
    h.held 0 = [⟨0, 7, 80⟩] ∧ (h'.sys.conns 0).out.length = (h.sys.conns 0).out.length + 1 ∧
      ∀ o ∈ (h'.sys.conns 0).out.drop (h.sys.conns 0).out.length, o.peer = (7, 80) :=
  ⟨by decide +kernel, by decide +kernel,
    (@tcp_handle_one_peer ⟨9, fun _ _ => true⟩ 40000 (connectRun ++ [TcpOp.send 0 0 [65]]) (.resume 0 true)
      (by decide +kernel) 0 ⟨0, 7, 80⟩ (by decide +kernel)).1⟩

/-! ## A number that changes its meaning -/

/-- The state `n` ticks later. -/
def HandleSys.later (h : HandleSys) (n : ℕ) : HandleSys :=
  { h with sys := { h.sys with ticks := h.sys.ticks + BitVec.ofNat 64 n } }

theorem handleStep_tick (net : TcpNet) (h : HandleSys) : handleStep net h .tick = h.later 1 := by
  have hheld : h.nextHeld .tick { h.sys with ticks := h.sys.ticks + 1 } = h.held := by
    funext i
    simp [HandleSys.nextHeld, TcpSys.returns, TcpSys.closes]
  have hstored : h.nextStored .tick { h.sys with ticks := h.sys.ticks + 1 } = h.stored := by
    funext i
    simp [HandleSys.nextStored]
  simp only [handleStep, tcpStep, hheld, hstored]
  rfl

theorem run_ticks (net : TcpNet) (h : HandleSys) (n : ℕ) :
    Run.run (handleStep net) h (List.replicate n .tick) = h.later n := by
  induction n generalizing h with
  | zero => simp [HandleSys.later]
  | succ n ih =>
    rw [List.replicate_succ, Run.run_cons, ih, handleStep_tick]
    simp only [HandleSys.later, BitVec.ofNat_add]
    rw [BitVec.add_assoc, BitVec.add_comm (BitVec.ofNat 64 1)]

/-- The timer runs whenever a connection that gets no answer has something to resend. -/
def silence : List TcpOp :=
  [200, 400, 600, 600, 600, 600].flatMap fun n => List.replicate n TcpOp.tick ++ [TcpOp.timer]

/-- Task 0 has sent a byte to host 7 that is never acknowledged. After five retransmissions the timer frees
the slot, task 1 connects to host 8, and what task 0 sends next goes to host 8. -/
theorem tcp_handle_reused :
    ¬∀ (ops : List TcpOp) (i : Fin 16) (data : List UInt8) (sent : ℕ),
      let h := Run.run (handleStep ⟨9, fun _ _ => true⟩) (handleInit 40000) ops
      ∀ x ∈ h.held i, h.sys.calls x.owner = .send i data sent →
        ∀ o ∈ ((handleStep ⟨9, fun _ _ => true⟩ h (.resume x.owner true)).sys.conns i).out.drop
          (h.sys.conns i).out.length, o.peer = x.peer := by
  intro hall
  have hbad := hall (connectRun ++ [TcpOp.send 0 0 [65], TcpOp.resume 0 true, TcpOp.resume 0 true] ++
    silence ++ [TcpOp.connect 1 8 80 true,
      TcpOp.rx (plainSegment 0x0050C001 700 2752743346 (tcpSyn ||| tcpAck) []) 8 9,
      TcpOp.send 0 0 [66]]) 0 [66] 0
  revert hbad
  simp only [silence, List.flatMap_cons, List.flatMap_nil, Run.run_append, run_ticks]
  decide +kernel

end PlantOS.Net
