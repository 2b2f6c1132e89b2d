/-
Who touches the packet queue.

Opening, closing and receiving leave the queue and the record of what was sent
alone; `queue_packet` changes the queue and nothing else.  Together with the
description of a flush this says all there is to say about what any operation
does to the packets that wait.

`SameQueue` is about the fields that the queue lives in, and about the record of calls and of
queued packets that the model keeps beside them.  It is used for the operations that have
nothing to do with sending; an operation that sends is described by what its flush and its
call do.
-/
import Ytl.Proofs.Udp.Frame
import Ytl.Proofs.Udp.Open

namespace Ytl.Udp.Process

/-- The queue and the record of its packets are the same in both states. -/
structure SameQueue (s s' : Process) : Prop where
  queue : s'.packetQueue = s.packetQueue
  sends : s'.sends = s.sends
  queued : s'.queued = s.queued
  tags : s'.tags = s.tags
  drained : s'.drained = s.drained

namespace SameQueue

theorem refl (s : Process) : SameQueue s s := ⟨rfl, rfl, rfl, rfl, rfl⟩

theorem trans {s t u : Process} (h : SameQueue s t) (h' : SameQueue t u) : SameQueue s u :=
  ⟨h'.queue.trans h.queue, h'.sends.trans h.sends, h'.queued.trans h.queued,
    h'.tags.trans h.tags, h'.drained.trans h.drained⟩

end SameQueue

/-! ### Operations that leave the queue alone

Each of these is either a walk that releases slots, a call that opens one, or a call that
receives, and has been described as such; none of those descriptions mentions the queue.
-/

theorem setConn_sameQueue (s : Process) (i : Fin maxConnections) (c : ConnectionData) :
    SameQueue s (s.setConn i c) := ⟨rfl, rfl, rfl, rfl, rfl⟩

theorem release_sameQueue (s : Process) (i : Fin maxConnections) :
    SameQueue s (s.release i) := by
  unfold release free
  split <;> exact ⟨rfl, rfl, rfl, rfl, rfl⟩

theorem releaseAll_sameQueue (s : Process) (l : List (Fin maxConnections)) :
    SameQueue s (s.releaseAll l) := by
  induction l with
  | nil => exact SameQueue.refl s
  | cons i rest ih =>
      rw [releaseAll_cons]
      exact ih.trans (release_sameQueue _ i)

theorem close_sameQueue {s s' : Process} {id : Nat} (h : s.close id = .ok s') :
    SameQueue s s' := by
  obtain ⟨i, l, -, -, rfl⟩ := close_walk h
  exact releaseAll_sameQueue s l

theorem initSocket_sameQueue {s s' : Process} {sock : Int} {getfl : Bool}
    (h : s.initSocket sock getfl = .ok s') : SameQueue s s' := by
  obtain ⟨-, hrest⟩ := initSocket_conns h
  rw [hrest]
  exact ⟨rfl, rfl, rfl, rfl, rfl⟩

theorem Launch.sameQueue {s s' : Process} {i : Fin maxConnections} {a : Alloc} {fd : Int}
    {getfl done : Bool} {r : Except Fault (Nat × Process)} {index : Nat}
    (h : Launch s i a fd getfl done r) (hr : r = .ok (index, s')) : SameQueue s s' := by
  have hopening : ∀ {t : Process}, Opening s i a t → SameQueue s t := by
    intro t ht
    rw [ht.rest]
    exact ⟨rfl, rfl, rfl, rfl, rfl⟩
  cases h with
  | fail ht _ _ e _ =>
      cases hr
      exact (hopening ht).trans (setConn_sameQueue _ i _)
  | finish ht _ _ addr =>
      obtain ⟨t', ht', hlast⟩ := bind_returns.mp hr
      cases hlast
      exact (hopening ht).trans ((initSocket_sameQueue ht').trans (setConn_sameQueue _ i _))

theorem create_sameQueue {s s' : Process} {host port : String} {connect : Bool}
    {os : OpenAnswers} {index : Nat} (h : s.create host port connect os = .ok (index, s')) :
    SameQueue s s' := by
  rcases create_cases h with ⟨l, rfl⟩ | ⟨i, hl⟩
  · exact ⟨rfl, rfl, rfl, rfl, rfl⟩
  · exact hl.sameQueue rfl

theorem serve_sameQueue {s s' : Process} {port : Nat} {os : OpenAnswers} {index : Nat}
    (h : s.serve port os = .ok (index, s')) : SameQueue s s' := by
  rcases serve_cases h with ⟨l, rfl⟩ | ⟨i, hl⟩
  · exact ⟨rfl, rfl, rfl, rfl, rfl⟩
  · exact hl.sameQueue rfl

theorem construct_sameQueue {s : Process} {port : Nat} {os : OpenAnswers}
    (h : construct port os = .ok s) : SameQueue Process.empty s := by
  unfold construct at h
  split at h
  · obtain ⟨⟨index, t⟩, ht, h⟩ := bind_returns.mp h
    cases h
    exact serve_sameQueue ht
  · cases h
    exact SameQueue.refl _

theorem receive_sameQueue {s s' : Process} {connId : Nat} {os : RecvAnswers}
    {before after : Address → Address} {r : Bool}
    (h : s.receive connId os before after = .ok (r, s')) : SameQueue s s' := by
  obtain ⟨conn, -, hexit⟩ := receive_receives h
  have hset : ∀ (n : Nat) (c : ConnectionData),
      SameQueue s ((s.roomFor (s.conns conn) n os.realloc).2.setConn conn c) := by
    intro n c
    rw [roomFor_fields]
    exact ⟨rfl, rfl, rfl, rfl, rfl⟩
  cases hexit with
  | skipped _ => exact SameQueue.refl s
  | unread _ _ => exact setConn_sameQueue s conn _
  | empty _ _ => exact setConn_sameQueue s conn _
  | refused _ _ _ _ => exact setConn_sameQueue s conn _
  | failed _ _ _ _ _ => exact hset _ _
  | received _ _ _ _ _ _ => exact hset _ _

theorem recvFromAll_sameQueue {s s' : Process} {connIds : List Nat} {os : PollAnswers}
    (h : s.recvFromAll connIds os = .ok s') : SameQueue s s' :=
  recvFromAll_rel SameQueue.refl (fun _ _ _ => SameQueue.trans)
    (fun t conn => setConn_sameQueue t conn _) (fun _ _ _ _ _ => receive_sameQueue) h

/-- `send_oneshot` calls the system, but does not come near the queue. -/
theorem sendOneshot_queue {s s' : Process} {host port : String} {data : List UInt8}
    {os : OneshotAnswers} {e : Error} (h : s.sendOneshot host port data os = .ok (e, s')) :
    s'.packetQueue = s.packetQueue := by
  rcases sendOneshot_exits h with rfl | ⟨sockets, calls, id, -, hclose⟩
  · rfl
  · exact (close_sameQueue hclose).queue

/-! ### Queueing

Conversely a packet that is queued changes the queue, and may ask for a block, and does
nothing to the connections or to what was sent.
-/

/-- Only the queue and the count of blocks differ. -/
def QueueOnly (s s' : Process) : Prop :=
  s' = { s with packetQueue := s'.packetQueue, blocks := s'.blocks }

theorem QueueOnly.trans {s t u : Process} (h : QueueOnly s t) (h' : QueueOnly t u) :
    QueueOnly s u := by
  unfold QueueOnly at *
  rw [h', h]

theorem QueueOnly.queueSteps (k : Fin maxBufferedPackets) : QueueSteps k QueueOnly :=
  ⟨fun _ => rfl, fun _ _ _ => QueueOnly.trans, fun _ _ => rfl, fun _ _ => rfl, fun _ _ => rfl⟩

/-- `queue_packet` sends nothing and touches no connection. -/
theorem queuePacket_untouched {s s' : Process} {owner : Endpoint} {addr : Option Address}
    {data : List UInt8} {a : Alloc} {r : SendResult}
    (h : s.queuePacket owner addr data a = .ok (r, s')) :
    s'.sends = s.sends ∧ s'.conns = s.conns := by
  obtain ⟨t, ht, hs'⟩ := queuePacket_steps (QueueOnly.queueSteps _) h
  have hsame : t.sends = s.sends ∧ t.conns = s.conns := by
    rw [ht]
    exact ⟨rfl, rfl⟩
  rcases hs' with rfl | ⟨d, rfl⟩
  · exact hsame
  · exact hsame

theorem queuePacket_sends {s s' : Process} {owner : Endpoint} {addr : Option Address}
    {data : List UInt8} {a : Alloc} {r : SendResult}
    (h : s.queuePacket owner addr data a = .ok (r, s')) : s'.sends = s.sends :=
  (queuePacket_untouched h).1

end Ytl.Udp.Process
