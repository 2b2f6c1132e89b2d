/-
When a datagram overtakes the ones that were queued before it.

`try_flush_queue` says false both when the queue is empty and when the system has refused a
packet for good, and `send` goes on in the same way after either.  In the second case the
packets are still there, and the connection has got an error that the call does not report.

Apart from that the queue is empty when the system is called, as long as the packets in the
ring are those of the window that a flush goes through; and that is so while `length` can count
them.
-/
import Ytl.Proofs.Udp.Window

namespace Ytl.Udp

open Process

/-- After the flush that has led to `t`, the system is called with the new datagram. -/
def HandsOver (s : Process) (connId : Nat) (os : SendAnswers) (t s' : Process) : Prop :=
  s.tryFlushQueue connId os.outcome = .ok (false, t) ∧
    ∃ c, s'.sends = t.sends ++ [c] ∧ c.serial = none

/-- The new datagram was not handed over before those in the ring, and a result that is not a
failure leaves the connection without an error. -/
structure SentInOrder (s : Process) (connId : Nat) (os : SendAnswers) (r : SendResult)
    (s' : Process) : Prop where
  order : ∀ t, HandsOver s connId os t s' → ∀ k, (t.packetQueue.packets k).len = 0
  error : r ≠ .failed → ∀ conn : Fin maxConnections, conn.val = connId →
    (s'.conns conn).error = .none

/-- A call of `send`, or of `send_to` with an address. -/
def SendInOrder (s : Process) (connId : Nat) (addr : Option Address) (data : List UInt8)
    (os : SendAnswers) : Prop :=
  ∀ r s', s.sendVia connId addr data os = .ok (r, s') → SentInOrder s connId os r s'

/-- The system refuses no packet for good when the queue is flushed; and if it takes them all,
there were no others in the ring. -/
def FlushClears (s : Process) (connId : Nat) (outcome : Nat → SendOutcome) : Prop :=
  s.usable connId = true →
    refusal outcome SendOutcome.isSent s.sends.length s.waiting ≠ some .failed ∧
      (refusal outcome SendOutcome.isSent s.sends.length s.waiting = none → s.InWindow)

/-! ### The flush

After a flush that got through nothing waits in the window; after one that was refused the
packet that was refused is still there.  `send` cannot tell the one from the other.
-/

section Flush

variable {s t : Process} {conn : Fin maxConnections} {outcome : Nat → SendOutcome}
  {blocked : Bool}

theorem error_of_usable (huse : s.usable conn.val = true) : (s.conns conn).error = .none :=
  not_not.mp (not_or.mp ((usable_val s conn).mp huse)).1

/-- A flush only adds calls. -/
theorem tryFlushQueue_sends (h : s.tryFlushQueue conn.val outcome = .ok (blocked, t)) :
    ∃ calls, t.sends = s.sends ++ calls := by
  by_cases herr : (s.conns conn).error = .none
  · rcases tryFlushQueue_flushed herr h with ⟨-, -, rfl⟩ | ⟨-, hf⟩
    · exact ⟨[], (List.append_nil _).symm⟩
    · exact ⟨_, hf.sends⟩
  · rw [(tryFlushQueue_skipped herr h).2]
    exact ⟨[], (List.append_nil _).symm⟩

/-- All packets have been sent. -/
theorem flush_cleared (herr : (s.conns conn).error = .none)
    (h : s.tryFlushQueue conn.val outcome = .ok (blocked, t))
    (hr : refusal outcome SendOutcome.isSent s.sends.length s.waiting = none) :
    t.conns = s.conns ∧ ∀ k, (t.packetQueue.packets k).len = 0 ↔
      ((s.packetQueue.packets k).len ≠ 0 → k ∈ s.waiting) := by
  rcases tryFlushQueue_flushed herr h with ⟨hlen, -, rfl⟩ | ⟨-, hf⟩
  · rw [waiting_nil hlen]
    simp
  · have hends := hf.ends
    rw [hr] at hends
    refine ⟨hends.2.1, fun k => ?_⟩
    rw [hf.packets, accepted_of_refusal_none _ _ hr]
    by_cases hk : k ∈ s.waiting
    · simp [hk]
    · simp [hk]

/-- The packet that was refused is still there. -/
theorem flush_refused (herr : (s.conns conn).error = .none)
    (h : s.tryFlushQueue conn.val outcome = .ok (blocked, t)) {ret : SendOutcome}
    (hr : refusal outcome SendOutcome.isSent s.sends.length s.waiting = some ret) :
    FlushEnds s conn blocked t (some ret) ∧ ∃ k, (t.packetQueue.packets k).len ≠ 0 := by
  rcases tryFlushQueue_flushed herr h with ⟨hlen, -, -⟩ | ⟨-, hf⟩
  · rw [waiting_nil hlen] at hr
    cases hr
  · obtain ⟨-, k, rest, hsplit⟩ := refused_of_refusal _ _ hr
    refine ⟨hr ▸ hf.ends, k, ?_⟩
    have hk : k ∈ s.waiting := by
      rw [hsplit]
      exact List.mem_append_right _ List.mem_cons_self
    have hnot : k ∉ accepted outcome SendOutcome.isSent s.sends.length s.waiting := by
      have hnd := waiting_nodup s
      rw [hsplit] at hnd
      intro hc
      exact (List.nodup_append.mp hnd).2.2 k hc k List.mem_cons_self rfl
    rw [hf.packets, if_neg hnot]
    exact len_of_waiting hk

end Flush

/-! ### One call

Both conditions are about the ring and the answers before the call, and the call decides
between its exits by the same answers.
-/

section Call

variable {s s' t : Process} {conn : Fin maxConnections} {os : SendAnswers} {r : SendResult}

/-- The system has been called with the datagram. -/
theorem sentInOrder_of_handed (huse : s.usable conn.val = true)
    (hflush : s.tryFlushQueue conn.val os.outcome = .ok (false, t))
    (hsends : ∃ c, s'.sends = t.sends ++ [c] ∧ c.serial = none)
    (herror : t.conns = s.conns → r ≠ .failed → (s'.conns conn).error = .none) :
    SentInOrder s conn.val os r s' ↔ FlushClears s conn.val os.outcome := by
  have herr := error_of_usable huse
  have horder : SentInOrder s conn.val os r s' → ∀ k, (t.packetQueue.packets k).len = 0 :=
    fun h => h.order t ⟨hflush, hsends⟩
  cases hr : refusal os.outcome SendOutcome.isSent s.sends.length s.waiting with
  | none =>
      obtain ⟨hconns, hlen⟩ := flush_cleared herr hflush hr
      constructor
      · intro h _
        rw [hr]
        exact ⟨nofun, fun _ k => (hlen k).mp (horder h k)⟩
      · intro h
        refine ⟨fun u hu k => ?_, fun hne i hi => ?_⟩
        · cases Except.ok.inj (hflush.symm.trans hu.1)
          exact (hlen k).mpr ((h huse).2 hr k)
        · rw [Fin.ext hi]
          exact herror hconns hne
  | some ret =>
      obtain ⟨hends, k, hk⟩ := flush_refused herr hflush hr
      refine iff_of_false (fun h => hk (horder h k)) fun h => ?_
      have hno := (refused_of_refusal _ _ hr).1
      cases ret with
      | sent => cases hno
      | wouldBlock => cases hends.1
      | failed => exact (h huse).1 hr

/-- **One call.** -/
theorem sentInOrder_iff {connId : Nat} {addr : Option Address} {data : List UInt8}
    (h : s.sendVia connId addr data os = .ok (r, s')) :
    SentInOrder s connId os r s' ↔ FlushClears s connId os.outcome := by
  obtain ⟨conn, rfl, hexit⟩ := sendVia_sends h
  cases hexit with
  | skipped huse =>
      refine iff_of_true ⟨fun t ht => ?_, fun hne => absurd rfl hne⟩ fun hc => absurd hc huse
      -- nothing has been sent, and a flush takes no call back
      obtain ⟨hflush, c, hc, -⟩ := ht
      obtain ⟨calls, hcalls⟩ := tryFlushQueue_sends hflush
      rw [hcalls, List.append_assoc] at hc
      have hlen := congrArg List.length hc
      simp only [List.length_append, List.length_cons, List.length_nil] at hlen
      omega
  | @blocked t _ _ huse hflush hqueue =>
      have herr := error_of_usable huse
      cases hr : refusal os.outcome SendOutcome.isSent s.sends.length s.waiting with
      | none =>
          rcases tryFlushQueue_flushed herr hflush with ⟨-, hc, -⟩ | ⟨-, hf⟩
          · cases hc
          · have hends := hf.ends
            rw [hr] at hends
            cases hends.1
      | some ret =>
          obtain ⟨hends, -⟩ := flush_refused herr hflush hr
          cases ret with
          | sent => cases hends.1
          | failed => cases hends.1
          | wouldBlock =>
              refine iff_of_true ⟨fun u hu => ?_, fun _ i hi => ?_⟩ fun _ => ?_
              · cases hflush.symm.trans hu.1
              · rw [Fin.ext hi, (queuePacket_untouched hqueue).2, hends.2.1]
                exact herr
              · rw [hr]
                exact ⟨nofun, nofun⟩
  | @sent t huse hflush hret =>
      refine sentInOrder_of_handed huse hflush ⟨_, rfl, rfl⟩ fun hconns _ => ?_
      show (t.conns conn).error = .none
      rw [hconns]
      exact error_of_usable huse
  | @refused t _ _ huse hflush hret hqueue =>
      obtain ⟨hsends, hsame⟩ := queuePacket_untouched hqueue
      refine sentInOrder_of_handed huse hflush ⟨_, hsends, rfl⟩ fun hconns _ => ?_
      rw [hsame]
      show (t.conns conn).error = .none
      rw [hconns]
      exact error_of_usable huse
  | @failed t huse hflush hret =>
      exact sentInOrder_of_handed huse hflush ⟨_, rfl, rfl⟩ fun _ hne => absurd rfl hne

theorem sendInOrder_iff {connId : Nat} {addr : Option Address} {data : List UInt8}
    (h : s.sendVia connId addr data os = .ok (r, s')) :
    SendInOrder s connId addr data os ↔ FlushClears s connId os.outcome := by
  rw [← sentInOrder_iff h]
  constructor
  · intro hall
    exact hall r s' h
  · intro hsent r' u hu
    cases Except.ok.inj (h.symm.trans hu)
    exact hsent

end Call

/-! ### Whole runs

A run is in order if each of its calls is, and no invariant is needed to say when it is.
-/

/-- Every datagram that the operation sends is sent in order. -/
def OrderKept (s : Process) (op : Op) : Prop := SendsMeet SendInOrder s op

/-- Every flush before a datagram clears the queue. -/
def FlushesClear (s : Process) (op : Op) : Prop :=
  SendsMeet (fun s connId _ _ os => FlushClears s connId os.outcome) s op

/--
**When no datagram is overtaken and no error hidden.**  In a run every datagram that is given
to the system goes behind those queued before it, and every result other than a failure is
that of a connection without an error, if and only if no flush before a datagram has a packet
refused for good, and those that get through have cleared the ring.
-/
theorem sends_in_order_iff (ops : List Op) (s : Process)
    (hrun : ops.foldlM Op.step Process.empty = .ok s) :
    (Machine.ofStep Op.step).Meets OrderKept Process.empty ops ↔
      (Machine.ofStep Op.step).Meets FlushesClear Process.empty ops :=
  Machine.meets_congr (m := Machine.ofStep Op.step)
    (fun _ _ _ hs => sendsMeet_congr (fun _ _ _ _ _ _ _ h => sendInOrder_iff h) hs)
    ops Process.empty s hrun

/-- A datagram that had to wait, and goes out before the next one. -/
theorem sends_in_order_two :
    ∃ (ops : List Op) (s : Process), ops.foldlM Op.step Process.empty = .ok s ∧
      (s.sends.map fun c => (c.bytes, c.outcome)) =
        [([1], .wouldBlock), ([1], .sent), ([2], .sent)] ∧
      ((Machine.ofStep Op.step).Meets OrderKept Process.empty ops ↔
        (Machine.ofStep Op.step).Meets FlushesClear Process.empty ops) := by
  obtain ⟨s, hs, hP⟩ := returns_of_checkResult
    (x := [Op.serve 9000 { socket := 3 }, .send 0 [1] { outcome := fun _ => .wouldBlock },
      .send 0 [2] {}].foldlM Op.step Process.empty)
    (P := fun s => (s.sends.map fun c => (c.bytes, c.outcome)) =
      [([1], .wouldBlock), ([1], .sent), ([2], .sent)]) (by decide +kernel)
  exact ⟨_, s, hs, of_decide_eq_true hP, sends_in_order_iff _ s hs⟩

/-- The flush has the waiting datagram refused for good; the new one is sent all the same, and
the call says `OK`. -/
theorem send_not_in_order :
    ∃ (s : Process) (os : SendAnswers), (pool Fresh).Reachable s ∧
      (∃ s', s.send 0 [2] os = .ok (.ok, s') ∧ (s'.conns 0).error = .sendFailed ∧
        (s'.packetQueue.packets 0).len = 1) ∧
      ¬ SendInOrder s 0 none [2] os := by
  obtain ⟨s, hs, hP⟩ := Machine.exists_reachable start_empty
    [.serve 9000 { socket := 3 }, .send 0 [1] { outcome := fun _ => .wouldBlock }]
    (fun s => checkResult
      (s.send 0 [2] { outcome := fun n => if n = 1 then .failed else .sent })
      fun r => r.1 = .ok ∧ (r.2.conns 0).error = .sendFailed ∧
        (r.2.packetQueue.packets 0).len = 1) (by decide +kernel)
  obtain ⟨⟨r, s'⟩, hsend, hr⟩ := returns_of_checkResult hP
  obtain ⟨rfl, herr, hlen⟩ : r = .ok ∧ (s'.conns 0).error = .sendFailed ∧
    (s'.packetQueue.packets 0).len = 1 := of_decide_eq_true hr
  refine ⟨s, _, hs, ⟨s', hsend, herr, hlen⟩, fun h => ?_⟩
  have hnone := (h .ok s' hsend).error nofun 0 rfl
  rw [herr] at hnone
  cases hnone

/-! ### As long as the packets can be counted

Then the window holds everything that waits, and of the two conditions only the refusals are
left.
-/

/-- No flush before a datagram has a packet refused for good. -/
def NothingRefused (s : Process) (op : Op) : Prop :=
  SendsMeet (fun s connId _ _ os => s.usable connId = true →
    refusal os.outcome SendOutcome.isSent s.sends.length s.waiting ≠ some .failed) s op

/-- While `length` can count the packets, a flush that gets through clears the ring, and only a
packet that is refused for good is ever overtaken. -/
theorem sends_in_order_of_counted (ops : List Op) (s : Process)
    (hrun : ops.foldlM Op.step Process.empty = .ok s)
    (hcount : (Machine.ofStep Op.step).Meets (SendsMeet CanCount) Process.empty ops) :
    (Machine.ofStep Op.step).Meets OrderKept Process.empty ops ↔
      (Machine.ofStep Op.step).Meets NothingRefused Process.empty ops := by
  refine Machine.meets_congr_of_invariant (m := Machine.ofStep Op.step) ?_ ops Process.empty s
    InWindow.of_empty hcount hrun
  intro t op t' hI hc hs
  refine ⟨sendsMeet_congr_of_invariant ?_ hI hc hs, hI.of_step hc hs⟩
  intro u connId addr data os r u' hI hlen hu
  refine ⟨(sendInOrder_iff hu).trans ⟨fun h huse => (h huse).1, fun h huse => ?_⟩,
    hI.sendVia hlen hu⟩
  exact ⟨h huse, fun _ => hI⟩

end Ytl.Udp
