/-
On which socket a datagram goes out.

There is one packet queue for all connections, and a flush offers whatever waits
in it on the socket of the connection that happens to be flushed.  A datagram is
therefore sent on the socket it was meant for exactly as long as every flush finds
only packets of the connection it is called for, among those it gets to offer
before one is refused.

Both sides are about whole runs.  One looks at the calls that were made, each of which is on
the record with the connection it was made on and the one its datagram was given to.  The
other looks at the ring at the beginning of every flush, where each packet is on the record
with the connection it was queued for; which of them are offered depends on the answers of the
system, so only the ones in front of the first refusal are asked about.
-/
import Ytl.Network.UdpRun
import Ytl.Proofs.Udp.Queue

namespace Ytl.Udp

open Process

/-! ### What is expected -/

/-- Every call that counts was made on the connection its datagram was given to. -/
def Routed (handed : SendCall → Prop) (s : Process) : Prop :=
  ∀ c ∈ s.sends, handed c → c.via = c.owner

/-! ### The condition

An operation may flush several times, and each time in the state that the flushes before it
have left.  So the condition on an operation is one on its rounds, carried along as a run.
-/

/-- The packets a flush of `conn` gets to offer were queued for `conn`. -/
def FlushOwn (handed : SendCall → Prop) (s : Process) (conn : Fin maxConnections)
    (outcome : Nat → SendOutcome) : Prop :=
  ∀ p ∈ offer outcome SendOutcome.isSent s.sends.length s.waiting,
    handed (s.callAt conn p.1 p.2) → (s.tags p.1).owner = s.endpoint conn

/-- The flush at the start of `send` and `send_to`, if they come to it. -/
def SendsOwn (handed : SendCall → Prop) (outcome : Nat → SendOutcome) (s : Process)
    (connId : Nat) : Prop :=
  ∀ conn : Fin maxConnections, connId = conn.val → (s.conns conn).error = .none →
    (s.conns conn).state = .active → FlushOwn handed s conn outcome

/-- One round of `send_to_all`. -/
def sendRound (data : List UInt8) (os : SendAnswers) (s : Process) (id : Nat) :
    Except Fault Process := do
  let (_, s) ← s.send id data os
  return s

theorem sendRound_returns {data : List UInt8} {os : SendAnswers} {s s' : Process} {id : Nat}
    (h : sendRound data os s id = .ok s') : ∃ r, s.send id data os = .ok (r, s') := by
  obtain ⟨⟨r, t⟩, ht, h⟩ := bind_returns.mp h
  cases h
  exact ⟨r, ht⟩

/-- Every flush of the operation offers packets of its own connection only.  The
flushes of `send_to_all` and `update` are those of their rounds, each in the state
the rounds before it have left. -/
def FlushesOwn (handed : SendCall → Prop) (s : Process) : Op → Prop
  | .send connId _ os => SendsOwn handed os.outcome s connId
  | .sendTo connId _ _ os => SendsOwn handed os.outcome s connId
  | .sendToAll connIds data os =>
      (Machine.ofStep (sendRound data os)).Meets (SendsOwn handed os.outcome) s connIds
  | .update os =>
      (Machine.ofStep (updateOne os.outcome)).Meets
        (fun s i => SendsOwn handed os.outcome s i.val) s (List.finRange maxConnections)
  | _ => True

/-- There is one slot with the number, or none. -/
theorem sendsOwn_val (handed : SendCall → Prop) (outcome : Nat → SendOutcome) (s : Process)
    (conn : Fin maxConnections) : SendsOwn handed outcome s conn.val ↔
      ((s.conns conn).error = .none → (s.conns conn).state = .active →
        FlushOwn handed s conn outcome) := by
  constructor
  · intro ho
    exact ho conn rfl
  · intro ho c hc
    rw [← Fin.ext hc]
    exact ho

instance instDecidableSendsOwn (handed : SendCall → Prop) [DecidablePred handed]
    (outcome : Nat → SendOutcome) (s : Process) (connId : Nat) :
    Decidable (SendsOwn handed outcome s connId) :=
  if h : connId < maxConnections then
    have _ : Decidable (FlushOwn handed s ⟨connId, h⟩ outcome) :=
      inferInstanceAs (Decidable (∀ p ∈ offer outcome SendOutcome.isSent s.sends.length s.waiting,
        handed (s.callAt ⟨connId, h⟩ p.1 p.2) → (s.tags p.1).owner = s.endpoint ⟨connId, h⟩))
    decidable_of_iff _ (sendsOwn_val handed outcome s ⟨connId, h⟩).symm
  else isTrue fun conn hc => absurd (hc ▸ conn.isLt) h

instance instDecidableFlushesOwn (handed : SendCall → Prop) [DecidablePred handed] (s : Process)
    (op : Op) : Decidable (FlushesOwn handed s op) :=
  match op with
  | .send connId _ os => inferInstanceAs (Decidable (SendsOwn handed os.outcome s connId))
  | .sendTo connId _ _ os => inferInstanceAs (Decidable (SendsOwn handed os.outcome s connId))
  | .sendToAll connIds data os => inferInstanceAs (Decidable
      ((Machine.ofStep (sendRound data os)).Meets (SendsOwn handed os.outcome) s connIds))
  | .update os => inferInstanceAs (Decidable ((Machine.ofStep (updateOne os.outcome)).Meets
      (fun s i => SendsOwn handed os.outcome s i.val) s (List.finRange maxConnections)))
  | .create .. | .serve .. | .recv .. | .recvFrom .. | .recvFromAll .. | .close ..
  | .sendOneshot .. => isTrue trivial

/-! ### What each operation adds

An operation adds calls to the record and takes none away, so the routing of the calls made so
far never has to be looked at again: only what is added counts.
-/

section Steps

variable {handed : SendCall → Prop} {s s' : Process} {conn : Fin maxConnections}

theorem routed_of_sends (h : s'.sends = s.sends) : Routed handed s' ↔ Routed handed s := by
  unfold Routed
  rw [h]

theorem routed_append {calls : List SendCall} (h : s'.sends = s.sends ++ calls) :
    Routed handed s' ↔ Routed handed s ∧ ∀ c ∈ calls, handed c → c.via = c.owner := by
  unfold Routed
  rw [h]
  exact List.forall_mem_append

/-- A connection that cannot be used is not flushed. -/
theorem sendsOwn_of_not_usable {outcome : Nat → SendOutcome} (huse : ¬ s.usable conn.val = true) :
    SendsOwn handed outcome s conn.val := by
  rw [sendsOwn_val]
  intro herr hact
  exact absurd ((usable_val s conn).mpr (not_or.mpr ⟨not_not.mpr herr, not_not.mpr hact⟩)) huse

/-- What a flush adds, on a connection that can be used. -/
theorem routed_flush (handed : SendCall → Prop) {outcome : Nat → SendOutcome} {blocked : Bool}
    (huse : s.usable conn.val = true)
    (h : s.tryFlushQueue conn.val outcome = .ok (blocked, s')) :
    Routed handed s' ↔ Routed handed s ∧ SendsOwn handed outcome s conn.val := by
  obtain ⟨herr, hact⟩ := not_or.mp ((usable_val s conn).mp huse)
  rw [not_not] at herr hact
  have hown : SendsOwn handed outcome s conn.val ↔ FlushOwn handed s conn outcome :=
    (sendsOwn_val handed outcome s conn).trans
      ⟨fun ho => ho herr hact, fun ho _ _ => ho⟩
  rw [hown]
  rcases tryFlushQueue_flushed herr h with ⟨hlen, -, rfl⟩ | ⟨-, hf⟩
  · unfold FlushOwn
    simp [waiting_nil hlen, offer]
  · rw [routed_append hf.sends, List.forall_mem_map]
    refine and_congr_right fun _ => forall_congr' fun p => forall_congr' fun _ => ?_
    exact ⟨fun hc hp => (hc hp).symm, fun hc hp => (hc hp).symm⟩

theorem routed_sendVia {connId : Nat} {addr : Option Address} {data : List UInt8}
    {os : SendAnswers} {r : SendResult} (h : s.sendVia connId addr data os = .ok (r, s')) :
    Routed handed s' ↔ Routed handed s ∧ SendsOwn handed os.outcome s connId := by
  obtain ⟨conn, rfl, hexit⟩ := sendVia_sends h
  -- the datagram itself goes out, if it does, on the connection it was given to
  have hself : ∀ {t u : Process} (ret : SendOutcome),
      u.sends = (t.handOver conn addr data ret).sends → (Routed handed u ↔ Routed handed t) := by
    intro t u ret hu
    rw [routed_append hu]
    simp [ownCall]
  cases hexit with
  | skipped huse => exact (and_iff_left (sendsOwn_of_not_usable huse)).symm
  | blocked huse ht hqueue =>
      exact (routed_of_sends (queuePacket_sends hqueue)).trans (routed_flush handed huse ht)
  | sent huse ht _ => exact (hself .sent rfl).trans (routed_flush handed huse ht)
  | refused huse ht _ hqueue =>
      exact (hself .wouldBlock (queuePacket_sends hqueue)).trans (routed_flush handed huse ht)
  | failed huse ht _ => exact (hself .failed rfl).trans (routed_flush handed huse ht)

theorem routed_updateOne {outcome : Nat → SendOutcome}
    (h : updateOne outcome s conn = .ok s') :
    Routed handed s' ↔ Routed handed s ∧ SendsOwn handed outcome s conn.val := by
  rcases updateOne_cases h with ⟨huse, rfl⟩ | ⟨huse, blocked, ht⟩
  · exact (and_iff_left (sendsOwn_of_not_usable huse)).symm
  · exact routed_flush handed huse ht

theorem routed_sendOneshot {host port : String} {data : List UInt8} {os : OneshotAnswers}
    {e : Error} (h : s.sendOneshot host port data os = .ok (e, s')) :
    Routed handed s' ↔ Routed handed s := by
  rcases sendOneshot_exits h with rfl | ⟨sockets, calls, id, hown, hclose⟩
  · exact Iff.rfl
  · rw [routed_append (close_sameQueue hclose).sends]
    exact and_iff_left fun c hc _ => hown c hc

/-- One operation keeps the routing exactly when its flushes do. -/
theorem routed_step (op : Op) (h : op.step s = .ok s') :
    Routed handed s' ↔ Routed handed s ∧ FlushesOwn handed s op := by
  have hquiet : SameQueue s s' → (Routed handed s' ↔ Routed handed s ∧ True) := by
    intro hq
    rw [and_true]
    exact routed_of_sends hq.sends
  unfold Op.step at h
  cases op with
  | create host port connect os =>
      obtain ⟨r, hr⟩ := snd_returns.mp h
      exact hquiet (create_sameQueue hr)
  | serve port os =>
      obtain ⟨r, hr⟩ := snd_returns.mp h
      exact hquiet (serve_sameQueue hr)
  | send connId data os =>
      obtain ⟨r, hr⟩ := snd_returns.mp h
      exact routed_sendVia hr
  | sendTo connId addr data os =>
      obtain ⟨r, hr⟩ := snd_returns.mp h
      exact routed_sendVia hr
  | sendToAll connIds data os =>
      refine Machine.ofStep_iff_meets ?_ connIds s s' h
      intro t id t' ht
      obtain ⟨r, hr⟩ := sendRound_returns ht
      exact routed_sendVia hr
  | recv connId os =>
      obtain ⟨r, hr⟩ := snd_returns.mp h
      exact hquiet (receive_sameQueue hr)
  | recvFrom connId os =>
      obtain ⟨r, hr⟩ := snd_returns.mp h
      exact hquiet (receive_sameQueue hr)
  | recvFromAll connIds os => exact hquiet (recvFromAll_sameQueue h)
  | update os =>
      refine Machine.ofStep_iff_meets ?_ _ s s' h
      intro t i t' ht
      exact routed_updateOne ht
  | close connId => exact hquiet (close_sameQueue h)
  | sendOneshot host port data os =>
      obtain ⟨r, hr⟩ := snd_returns.mp h
      rw [routed_sendOneshot hr]
      exact (and_true _).symm.to_iff

end Steps

/--
**Datagrams go out on their own connection exactly when every flush finds its own
packets.**  `handed` says which calls count as handing a datagram over: all of
them, or only those the operating system accepted.  The calls of a run are all on
the connection the datagram was given to if and only if every flush of the run,
whichever operation makes it, offers only packets queued for the connection it is
called for.
-/
theorem datagrams_routed_iff (handed : SendCall → Prop) (port : Nat) (os : OpenAnswers)
    (s₀ s : Process) (hstart : construct port os = .ok s₀) (ops : List Op)
    (hrun : ops.foldlM Op.step s₀ = .ok s) :
    (∀ c ∈ s.sends, handed c → c.via = c.owner) ↔
      (Machine.ofStep Op.step).Meets (FlushesOwn handed) s₀ ops := by
  have hempty : Routed handed s₀ := by
    intro c hc
    rw [(construct_sameQueue hstart).sends] at hc
    exact absurd hc (List.not_mem_nil)
  have h := Machine.ofStep_iff_meets (P := Routed handed)
    (fun _ op _ hs => routed_step op hs) ops s₀ s hrun
  exact h.trans ⟨fun hm => hm.2, fun hm => ⟨hempty, hm⟩⟩

/-- Two connections: the first datagram of one would block, and goes out with its second before
anything is sent on the other, which an update finds nothing for. -/
theorem datagrams_routed_two :
    construct 0 { socket := -1 } = .ok Process.empty ∧
      ∃ s, [Op.serve 9000 { socket := 3 }, .serve 9001 { socket := 4 },
          .send 0 [1] { outcome := fun _ => .wouldBlock }, .send 0 [2] {}, .update {},
          .send 1 [3] {}].foldlM Op.step Process.empty = .ok s ∧
        s.sends.length = 4 ∧ ∀ c ∈ s.sends, c.outcome = .sent → c.via = c.owner := by
  have hstart : construct 0 { socket := -1 } = .ok Process.empty := rfl
  have hrun : checkResult ([Op.serve 9000 { socket := 3 }, .serve 9001 { socket := 4 },
      .send 0 [1] { outcome := fun _ => .wouldBlock }, .send 0 [2] {}, .update {},
      .send 1 [3] {}].foldlM Op.step Process.empty) (fun s => decide (s.sends.length = 4)) =
        true := by
    decide +kernel
  obtain ⟨s, hs, hlen⟩ := returns_of_checkResult hrun
  exact ⟨hstart, s, hs, of_decide_eq_true hlen,
    (datagrams_routed_iff (fun c => c.outcome = .sent) 0 _ _ s hstart _ hs).mpr (by decide +kernel)⟩

/-- Two connections: the datagram given to the first would block; when something is
sent on the second, it goes out on the socket of the second. -/
theorem datagram_misrouted :
    construct 0 { socket := -1 } = .ok Process.empty ∧
      ∃ s, [Op.serve 9000 { socket := 3 }, .serve 9001 { socket := 4 },
          .send 0 [1] { outcome := fun _ => .wouldBlock }, .send 1 [2] {}].foldlM
            Op.step Process.empty = .ok s ∧
        { via := ⟨some 1, 4⟩, owner := ⟨some 0, 3⟩, serial := some 0, bytes := [1],
          dest := none, outcome := .sent } ∈ s.sends := by
  refine ⟨rfl, ?_⟩
  have hbad : checkResult ([Op.serve 9000 { socket := 3 }, .serve 9001 { socket := 4 },
      .send 0 [1] { outcome := fun _ => .wouldBlock }, .send 1 [2] {}].foldlM
        Op.step Process.empty) (fun s => decide (
      ({ via := ⟨some 1, 4⟩, owner := ⟨some 0, 3⟩, serial := some 0, bytes := [1],
         dest := none, outcome := .sent } : SendCall) ∈ s.sends)) = true := by
    decide +kernel
  obtain ⟨s, hs, hmem⟩ := returns_of_checkResult hbad
  exact ⟨s, hs, of_decide_eq_true hmem⟩

end Ytl.Udp
