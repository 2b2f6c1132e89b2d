/-
The sending half of the pool is one postbox for all its lines.

A datagram that cannot go out at once is kept under the next number, and no more than the last
eight numbers are kept.  Whoever sends on a line offers first what is kept, oldest first, until
one is refused.  That is all `Postbox` says; there is no ring in it, no count that wraps, no
buffer and no table of addresses.

The sending operations of the pool are the operations of its postbox, and no other operation
touches what is kept, as long as the datagrams have between 1 and 65535 bytes, addresses have a
length, the allocator grants the blocks and `length` can count the packets.
-/
import Ytl.Base.Simulation
import Ytl.Proofs.Udp.Ring
import Ytl.Proofs.Udp.Window

namespace Ytl.Udp

open Process

/-! ### The postbox

It is written down from what the sending half is for, and knows as little as possible: which
lines there are, what is kept, and what was called and taken so far.
-/

/-- The lines that can be used, what is kept with its numbers, and the record of what was taken
and of what the system was called with. -/
structure Postbox where
  /-- The connections that can be used, by their index. -/
  lines : Nat → Option Endpoint
  /-- The datagrams taken so far. -/
  taken : List Datagram := []
  /-- What is kept of them, oldest first, with its numbers. -/
  kept : List (Nat × Datagram) := []
  /-- What the operating system was called with. -/
  calls : List SendCall := []

namespace Postbox

/-- A line that cannot be used any more. -/
def fail (p : Postbox) (connId : Nat) : Postbox :=
  { p with lines := Function.update p.lines connId none }

/-- The line is offered what is kept; the answer is whether it asks to wait. -/
def flush (outcome : Nat → SendOutcome) (p : Postbox) (connId : Nat) : Bool × Postbox :=
  match p.lines connId with
  | none => (false, p)
  | some line =>
      let after : Postbox := { p with
        kept := p.kept.drop (accepted outcome SendOutcome.isSent p.calls.length p.kept).length
        calls := p.calls ++ (offer outcome SendOutcome.isSent p.calls.length p.kept).map
          fun c => callOf line c.1.1 c.1.2 c.2 }
      match refusal outcome SendOutcome.isSent p.calls.length p.kept with
      | none => (false, after)
      | some .wouldBlock => (true, after)
      | some _ => (false, after.fail connId)

/-- A datagram is kept, and of the others those that have one of the last eight numbers. -/
def keep (p : Postbox) (d : Datagram) : Postbox :=
  { p with
    taken := p.taken ++ [d]
    kept := (p.kept ++ [(p.taken.length, d)]).filter fun x => decide (p.taken.length < x.1 + 8) }

/-- The system is called with a datagram that has just come in; it is kept if it has to wait. -/
def hand (outcome : Nat → SendOutcome) (p : Postbox) (connId : Nat) (d : Datagram) :
    SendResult × Postbox :=
  let ret := outcome p.calls.length
  let called : Postbox :=
    { p with calls := p.calls ++ [⟨d.owner, d.owner, none, d.data, d.dest, ret⟩] }
  match ret with
  | .sent => (.ok, called)
  | .wouldBlock => (.buffered, called.keep d)
  | .failed => (.failed, called.fail connId)

/-- What is kept goes first, but nobody looks whether the line has failed over it. -/
def send (outcome : Nat → SendOutcome) (p : Postbox) (connId : Nat) (addr : Option Address)
    (data : List UInt8) : SendResult × Postbox :=
  match p.lines connId with
  | none => (.failed, p)
  | some line =>
      match p.flush outcome connId with
      | (true, p) => (.buffered, p.keep ⟨line, addr, data⟩)
      | (false, p) => p.hand outcome connId ⟨line, addr, data⟩

/-- Every line is offered what is kept, one after the other. -/
def update (outcome : Nat → SendOutcome) (p : Postbox) : Postbox :=
  (List.range maxConnections).foldl (fun p i => (p.flush outcome i).2) p

/-- What the postbox does for a call. -/
def step (p : Postbox) : Op → Postbox
  | .send connId data os => (p.send os.outcome connId none data).2
  | .sendTo connId addr data os => (p.send os.outcome connId (some addr) data).2
  | .sendToAll connIds data os =>
      connIds.foldl (fun p id => (p.send os.outcome id none data).2) p
  | .update os => p.update os.outcome
  | _ => p

end Postbox

/-- The operations that come to the postbox. -/
def Op.sends : Op → Bool
  | .send _ _ _ | .sendTo _ _ _ _ | .sendToAll _ _ _ | .update _ => true
  | _ => false

/-- Nothing was put in the postbox or taken out: lines may have changed, and the system may
have been called with something that was never kept. -/
structure Postbox.Aside (p p' : Postbox) : Prop where
  taken : p'.taken = p.taken
  kept : p'.kept = p.kept
  calls : ∃ calls, p'.calls = p.calls ++ calls ∧ ∀ c ∈ calls, c.serial = none ∧ c.via = c.owner

namespace Process

/-- The connection that can be used under an index, if there is one. -/
def line (s : Process) (connId : Nat) : Option Endpoint :=
  match ref connId with
  | .ok conn => if s.usable connId then some (s.endpoint conn) else none
  | .error _ => none

/-- The postbox of a pool. -/
def postbox (s : Process) : Postbox where
  lines := s.line
  taken := s.queued
  kept := s.unsent
  calls := s.sends

/-! ### What is kept

The ring keeps numbers only in the form of positions.  What is kept, with the numbers, is
computed from the record, and the invariant of the ring says that it is what waits there.
-/

variable {s t : Process} {conn : Fin maxConnections} {outcome : Nat → SendOutcome}

theorem line_val (s : Process) (conn : Fin maxConnections) :
    s.line conn.val = if s.usable conn.val then some (s.endpoint conn) else none := by
  unfold line
  rw [ref_val]

theorem line_of_usable (huse : s.usable conn.val = true) :
    s.line conn.val = some (s.endpoint conn) := by
  rw [line_val, if_pos huse]

theorem line_of_not_usable (huse : ¬ s.usable conn.val = true) : s.line conn.val = none := by
  rw [line_val, if_neg huse]

theorem line_of_conn {j : Fin maxConnections} (h : t.conns j = s.conns j) :
    t.line j.val = s.line j.val := by
  have huse : t.usable j.val = s.usable j.val := by
    unfold usable
    rw [ref_val]
    dsimp only
    rw [h]
  have hend : t.endpoint j = s.endpoint j := by
    unfold endpoint
    rw [h]
  rw [line_val, line_val, huse, hend]

/-- Lines are told apart by the indices of `conns_`. -/
theorem line_ext {f : Nat → Option Endpoint}
    (hin : ∀ j : Fin maxConnections, s.line j.val = f j.val)
    (hout : ∀ i, ¬ i < maxConnections → f i = none) : s.line = f := by
  funext i
  by_cases hi : i < maxConnections
  · exact hin ⟨i, hi⟩
  · rw [hout i hi]
    unfold line ref
    rw [dif_neg hi]

theorem line_outside (s : Process) {i : Nat} (hi : ¬ i < maxConnections) : s.line i = none := by
  unfold line ref
  rw [dif_neg hi]

theorem line_congr (h : t.conns = s.conns) : t.line = s.line :=
  line_ext (fun j => line_of_conn (congrFun h j)) fun _ hi => line_outside s hi

/-- The connection with an error is a line less. -/
theorem line_setError (s : Process) (conn : Fin maxConnections) {e : Error} (he : e ≠ .none)
    (h : t.conns = (s.setError conn e).conns) :
    t.line = Function.update s.line conn.val none := by
  rw [line_congr h]
  refine line_ext (fun j => ?_) fun i hi => ?_
  · by_cases hj : j = conn
    · subst hj
      rw [Function.update_self]
      refine line_of_not_usable fun huse => he ?_
      have herr : ((s.setError j e).conns j).error = .none :=
        not_not.mp (not_or.mp ((usable_val _ j).mp huse)).1
      unfold setError at herr
      rw [setConn_self] at herr
      exact herr
    · rw [Function.update_of_ne (fun hc => hj (Fin.ext hc))]
      exact line_of_conn (setConn_of_ne s _ hj)
  · rw [Function.update_of_ne (fun hc => hi (by rw [hc]; exact conn.isLt))]
    exact line_outside s hi

/-- A number with the datagram that was taken under it. -/
def numbered (queued : List Datagram) (n : Nat) : Nat × Datagram :=
  (n, queued.getD n ⟨⟨none, -1⟩, none, []⟩)

theorem unsent_eq_map (s : Process) :
    s.unsent = (s.outbox.pending 8).map (numbered s.queued) := by
  unfold unsent
  rw [← List.filterMap_eq_map]
  refine List.filterMap_congr fun n hn => ?_
  have hlt : n < s.queued.length := (Outbox.mem_pending.mp hn).1.2
  simp [numbered, hlt]

theorem numbered_append {queued : List Datagram} {d : Datagram} {n : Nat}
    (h : n < queued.length) : numbered (queued ++ [d]) n = numbered queued n := by
  simp [numbered, List.getElem?_append_left h]

/-- What a flush leaves. -/
theorem unsent_flushed {blocked : Bool} (h : RingOK s)
    (hf : Flushed s conn outcome s.waiting blocked t) :
    t.unsent = s.unsent.drop
      (accepted outcome SendOutcome.isSent s.sends.length s.unsent).length := by
  rw [unsent_eq_map, unsent_eq_map, h.flush_outbox hf, Outbox.pending_send, hf.queued,
    accepted_map, List.length_map, List.map_drop]

/-- A datagram that is queued. -/
theorem unsent_enqueued {d : Datagram} (h : RingOK s) (he : Enqueued s d t) :
    t.unsent = (s.unsent ++ [(s.queued.length, d)]).filter
      fun x => decide (s.queued.length < x.1 + 8) := by
  have hnew : numbered (s.queued ++ [d]) s.queued.length = (s.queued.length, d) := by
    simp [numbered]
  have hold : (s.outbox.pending 8).map (numbered (s.queued ++ [d])) = s.unsent := by
    rw [unsent_eq_map]
    refine List.map_congr_left fun n hn => ?_
    exact numbered_append (Outbox.mem_pending.mp hn).1.2
  have hmap : (s.outbox.pending 8 ++ [s.queued.length]).map (numbered (s.queued ++ [d])) =
      s.unsent ++ [(s.queued.length, d)] := by
    rw [List.map_append, hold, List.map_singleton, hnew]
  rw [unsent_eq_map, RingOK.enqueue_outbox he,
    Outbox.pending_push (by decide) h.order.bound, he.queued, ← hmap, List.filter_map]
  rfl

/-! ### The operations

One lemma for each function of the code that sends: what it does to the pool is, for the
postbox of the pool, what the postbox does.
-/

/-- What a flush of the pool is for its postbox. -/
theorem Flushed.postbox {blocked : Bool} (h : RingOK s) (huse : s.usable conn.val = true)
    (hf : Flushed s conn outcome s.waiting blocked t) :
    s.postbox.flush outcome conn.val = (blocked, t.postbox) := by
  have hcalls : t.sends = s.sends ++ (offer outcome SendOutcome.isSent s.sends.length
      s.unsent).map fun c => callOf (s.endpoint conn) c.1.1 c.1.2 c.2 := by
    rw [hf.sends, ← h.waiting_eq_unsent, offer_map, List.map_map]
    rfl
  have hrefusal : refusal outcome SendOutcome.isSent s.sends.length s.unsent =
      refusal outcome SendOutcome.isSent s.sends.length s.waiting := by
    rw [← h.waiting_eq_unsent, refusal_map]
  have hends := hf.ends
  unfold Postbox.flush
  show (match s.line conn.val with | none => _ | some line => _) = _
  rw [line_of_usable huse]
  show (match refusal outcome SendOutcome.isSent s.sends.length s.unsent with
    | none => _ | some .wouldBlock => _ | some _ => _) = _
  rw [hrefusal]
  unfold Process.postbox
  rw [hf.queued, hcalls, unsent_flushed h hf]
  cases hr : refusal outcome SendOutcome.isSent s.sends.length s.waiting with
  | none =>
      rw [hr] at hends
      rw [hends.1, line_congr hends.2.1]
  | some ret =>
      rw [hr] at hends
      cases ret with
      | wouldBlock => rw [hends.1, line_congr hends.2.1]
      | sent => exact absurd (refused_of_refusal _ _ hr).1 (by decide)
      | failed =>
          rw [hends.1, line_setError s conn (e := .sendFailed) nofun hends.2.1]
          rfl

/-- A flush of an active connection. -/
theorem flush_postbox (h : RingOK s) (hact : (s.conns conn).state = .active)
    (outcome : Nat → SendOutcome) :
    ∃ blocked t, s.tryFlushQueue conn.val outcome = .ok (blocked, t) ∧ RingOK t ∧
      s.postbox.flush outcome conn.val = (blocked, t.postbox) := by
  obtain ⟨blocked, t, ht⟩ := tryFlushQueue_returns h.storage.entry conn outcome
  refine ⟨blocked, t, ht, h.of_tryFlushQueue ht, ?_⟩
  by_cases herr : (s.conns conn).error = .none
  · have huse : s.usable conn.val = true :=
      (usable_val s conn).mpr (not_or.mpr ⟨not_not.mpr herr, not_not.mpr hact⟩)
    rcases tryFlushQueue_flushed herr ht with ⟨hlen, rfl, rfl⟩ | ⟨-, hf⟩
    · have hnone : t.postbox.kept = [] := by
        show t.unsent = []
        rw [← h.waiting_eq_unsent, waiting_nil hlen]
        rfl
      have hline : t.postbox.lines conn.val = some (t.endpoint conn) := line_of_usable huse
      unfold Postbox.flush
      rw [hline, hnone]
      simp [offer, accepted, refusal, ← hnone]
    · exact hf.postbox h huse
  · obtain ⟨rfl, rfl⟩ := tryFlushQueue_skipped herr ht
    have hline : t.postbox.lines conn.val = none :=
      line_of_not_usable fun huse => (usable_val t conn).mp huse (Or.inl herr)
    unfold Postbox.flush
    rw [hline]

/-- A datagram that is queued is kept. -/
theorem Enqueued.postbox {d : Datagram} (h : RingOK s) (he : Enqueued s d t)
    (hconns : t.conns = s.conns) : t.postbox = s.postbox.keep d := by
  unfold Process.postbox Postbox.keep
  rw [he.queued, he.sends, line_congr hconns, unsent_enqueued h he]

/-- The queue could take the datagram: it has between 1 and 65535 bytes and no address or one
with a length, its block is granted, and there is a number for it. -/
def Mailable (s : Process) (connId : Nat) (addr : Option Address) (data : List UInt8)
    (os : SendAnswers) : Prop :=
  connId < maxConnections ∧ (0 < data.length ∧ data.length < 2 ^ 16) ∧
    (∀ a ∈ addr, 0 < a.addrLen) ∧ (os.realloc s.sends.length).granted = true ∧
    s.packetQueue.length + 1 < 2 ^ 32

/-- A state that has the same packets, and the same ones sent. -/
theorem RingOK.of_same (h : RingOK s) (hq : t.packetQueue = s.packetQueue)
    (hsent : t.sentSerials = s.sentSerials) (hqueued : t.queued = s.queued)
    (htags : t.tags = s.tags) (hdrained : t.drained = s.drained) : RingOK t := by
  have hholds : ∀ {k n}, s.SlotHolds k n → t.SlotHolds k n := by
    intro k n hw
    refine ⟨?_, ?_, ?_⟩
    · rw [htags]
      exact hw.serial
    · rw [hq, hsent]
      exact hw.sent
    · unfold held destOf
      rw [hq, hqueued, htags]
      exact hw.packet
  refine ⟨?_, ?_, ?_, ?_, ?_⟩
  · refine h.storage.of_packets (by rw [hq]) fun k => ⟨(s.packetQueue.packets k).len, ?_⟩
    rw [hq]
  · rw [hq, hdrained, hqueued]
    exact h.length
  · rw [hq, hdrained]
    exact fun i hlow hhigh => hholds (h.window i hlow hhigh)
  · rw [hqueued, hdrained, hsent]
    exact h.drained
  · unfold outbox
    rw [hqueued, hsent]
    exact h.order

/-- Calls with datagrams that were never queued. -/
theorem sentSerials_append {calls : List SendCall} (h : t.sends = s.sends ++ calls)
    (hnone : ∀ c ∈ calls, c.serial = none) : t.sentSerials = s.sentSerials := by
  have hnew : calls.filterMap (fun c => if c.outcome.isSent then c.serial else none) = [] := by
    refine List.filterMap_eq_nil_iff.mpr fun c hc => ?_
    rw [hnone c hc]
    exact ite_self none
  unfold sentSerials
  rw [h, List.filterMap_append, hnew, List.append_nil]

theorem unsent_congr (hqueued : t.queued = s.queued) (hsent : t.sentSerials = s.sentSerials) :
    t.unsent = s.unsent := by
  unfold unsent outbox
  rw [hqueued, hsent]

theorem queuePacket_postbox (h : RingOK s) {owner : Endpoint} {addr : Option Address}
    {data : List UInt8} {a : Alloc} (hsize : 0 < data.length ∧ data.length < 2 ^ 16)
    (hvalid : ∀ x ∈ addr, 0 < x.addrLen) (ha : a.granted = true)
    (hlen : s.packetQueue.length + 1 < 2 ^ 32) :
    ∃ t, s.queuePacket owner addr data a = .ok (.buffered, t) ∧ RingOK t ∧
      t.postbox = s.postbox.keep ⟨owner, addr, data⟩ := by
  obtain ⟨t, ht, he⟩ := queuePacket_spec h.storage owner ha hsize.1 hsize.2 hvalid hlen
  exact ⟨t, ht, h.enqueue hsize.1 he, he.postbox h (queuePacket_untouched ht).2⟩

/-- The call with the datagram that was given to `send`. -/
theorem handOver_postbox (h : RingOK s) (conn : Fin maxConnections) (addr : Option Address)
    (data : List UInt8) (ret : SendOutcome) :
    RingOK (s.handOver conn addr data ret) ∧ (s.handOver conn addr data ret).postbox =
      { s.postbox with calls := s.sends ++ [s.ownCall conn addr data ret] } := by
  have hsent : (s.handOver conn addr data ret).sentSerials = s.sentSerials := by
    refine sentSerials_append rfl fun c hc => ?_
    rw [List.mem_singleton.mp hc]
    rfl
  refine ⟨h.of_same rfl hsent rfl rfl rfl, ?_⟩
  have hunsent : (s.handOver conn addr data ret).unsent = s.unsent := unsent_congr rfl hsent
  unfold Process.postbox
  rw [hunsent]
  rfl

theorem hand_postbox (h : RingOK s) {conn : Fin maxConnections} {addr : Option Address}
    {data : List UInt8} {os : SendAnswers} {a : Alloc}
    (hsize : 0 < data.length ∧ data.length < 2 ^ 16)
    (hvalid : ∀ x ∈ addr, 0 < x.addrLen) (ha : a.granted = true)
    (hlen : s.packetQueue.length + 1 < 2 ^ 32) :
    ∃ s', (match os.outcome s.sends.length with
        | .sent => .ok (.ok, s.handOver conn addr data (os.outcome s.sends.length))
        | .wouldBlock => (s.handOver conn addr data (os.outcome s.sends.length)).queuePacket
            (s.endpoint conn) addr data a
        | .failed => .ok (.failed, (s.handOver conn addr data
            (os.outcome s.sends.length)).setError conn .sendFailed)) =
        Except.ok ((s.postbox.hand os.outcome conn.val ⟨s.endpoint conn, addr, data⟩).1, s') ∧
      RingOK s' ∧
      s'.postbox = (s.postbox.hand os.outcome conn.val ⟨s.endpoint conn, addr, data⟩).2 := by
  obtain ⟨hok, hpost⟩ := handOver_postbox h conn addr data (os.outcome s.sends.length)
  have hcalls : s.postbox.calls = s.sends := rfl
  unfold Postbox.hand
  rw [hcalls]
  cases hret : os.outcome s.sends.length with
  | sent =>
      rw [hret] at hok hpost
      exact ⟨_, rfl, hok, hpost⟩
  | wouldBlock =>
      rw [hret] at hok hpost
      have hqueued : ∃ u, (s.handOver conn addr data .wouldBlock).queuePacket (s.endpoint conn)
          addr data a = .ok (.buffered, u) ∧ RingOK u ∧
          u.postbox = (s.handOver conn addr data .wouldBlock).postbox.keep
            ⟨s.endpoint conn, addr, data⟩ := queuePacket_postbox hok hsize hvalid ha hlen
      obtain ⟨u, hu, hoku, hkeep⟩ := hqueued
      rw [hpost] at hkeep
      exact ⟨u, hu, hoku, hkeep⟩
  | failed =>
      rw [hret] at hok hpost
      refine ⟨_, rfl, hok.of_same rfl rfl rfl rfl rfl, ?_⟩
      have hline : ((s.handOver conn addr data .failed).setError conn .sendFailed).line =
          Function.update s.line conn.val none :=
        line_setError s conn (e := .sendFailed) nofun rfl
      have hrest : ((s.handOver conn addr data .failed).setError conn .sendFailed).postbox =
          { (s.handOver conn addr data .failed).postbox with
            lines := Function.update s.line conn.val none } := by
        unfold Process.postbox
        rw [hline]
        rfl
      rw [hrest, hpost]
      rfl

/-- Flushing adds no packet. -/
theorem tryFlushQueue_length_le {connId : Nat} {blocked : Bool}
    (h : s.tryFlushQueue connId outcome = .ok (blocked, t)) :
    t.packetQueue.length ≤ s.packetQueue.length := by
  rcases tryFlushQueue_cases h with rfl | ⟨conn, -, hf⟩
  · exact Nat.le_refl _
  · exact hf.length_le

/-- **Sending on a connection is sending on its line.** -/
theorem sendVia_postbox (h : RingOK s) {connId : Nat} {addr : Option Address}
    {data : List UInt8} {os : SendAnswers} (hm : s.Mailable connId addr data os) :
    ∃ s', s.sendVia connId addr data os =
        .ok ((s.postbox.send os.outcome connId addr data).1, s') ∧
      RingOK s' ∧ s'.postbox = (s.postbox.send os.outcome connId addr data).2 := by
  obtain ⟨hlt, hsize, hvalid, ha, hlen⟩ := hm
  obtain ⟨conn, rfl⟩ : ∃ conn : Fin maxConnections, conn.val = connId := ⟨⟨connId, hlt⟩, rfl⟩
  by_cases huse : s.usable conn.val = true
  case neg =>
    have hline : s.postbox.lines conn.val = none := line_of_not_usable huse
    refine ⟨s, ?_, h, ?_⟩
    · unfold sendVia Postbox.send
      rw [ref_val, bind_of_ok, if_pos (not_not.mp fun hc => huse ((usable_val s conn).mpr hc)),
        hline]
      rfl
    · unfold Postbox.send
      rw [hline]
  obtain ⟨herr, hact⟩ := not_or.mp ((usable_val s conn).mp huse)
  obtain ⟨blocked, t, ht, hok, hflush⟩ := flush_postbox h (not_not.mp hact) os.outcome
  have hlength := tryFlushQueue_length_le ht
  have hline : s.postbox.lines conn.val = some (s.endpoint conn) := line_of_usable huse
  have hend : t.endpoint conn = s.endpoint conn := by
    unfold endpoint
    rw [(tryFlushQueue_onlyErrors ht).sameSlots.socket conn]
  have hroom : t.packetQueue.length + 1 < 2 ^ 32 := by omega
  cases blocked with
  | true =>
      have hsend : s.postbox.send os.outcome conn.val addr data =
          (.buffered, t.postbox.keep ⟨t.endpoint conn, addr, data⟩) := by
        unfold Postbox.send
        rw [hline, hflush, ← hend]
      rw [hsend]
      unfold sendVia
      rw [ref_val, bind_of_ok, if_neg ((usable_val s conn).mp huse), ht, bind_of_ok]
      exact queuePacket_postbox hok hsize hvalid ha hroom
  | false =>
      have hsend : s.postbox.send os.outcome conn.val addr data =
          t.postbox.hand os.outcome conn.val ⟨t.endpoint conn, addr, data⟩ := by
        unfold Postbox.send
        rw [hline, hflush, ← hend]
      rw [hsend]
      unfold sendVia
      rw [ref_val, bind_of_ok, if_neg ((usable_val s conn).mp huse), ht, bind_of_ok]
      exact hand_postbox hok hsize hvalid ha hroom

/-! ### The loops

`send_to_all` and `update` go from one line to the next, and the postbox with them.
-/

/-- The pool is in order, and this is its postbox. -/
def Posts (s : Process) (p : Postbox) : Prop := RingOK s ∧ s.postbox = p

theorem updateOne_posts (outcome : Nat → SendOutcome) {p : Postbox} (i : Fin maxConnections)
    (h : Posts s p) :
    ∃ s', updateOne outcome s i = .ok s' ∧ Posts s' (p.flush outcome i.val).2 := by
  obtain ⟨hok, rfl⟩ := h
  unfold updateOne
  split
  · rename_i hact
    have hline : s.postbox.lines i.val = none :=
      line_of_not_usable fun huse => (usable_val s i).mp huse (Or.inr hact)
    refine ⟨s, rfl, hok, ?_⟩
    unfold Postbox.flush
    rw [hline]
  · rename_i hact
    obtain ⟨blocked, t, ht, hok', hflush⟩ := flush_postbox hok (not_not.mp hact) outcome
    refine ⟨t, ?_, hok', ?_⟩
    · rw [ht]
      rfl
    · rw [hflush]

theorem update_posts {p : Postbox} (os : SendAnswers) (h : Posts s p) :
    ∃ s', s.update os = .ok s' ∧ Posts s' (p.update os.outcome) := by
  have hloop : ∃ s', s.update os = .ok s' ∧ Posts s' ((List.finRange maxConnections).foldl
      (fun p i => (p.flush os.outcome i.val).2) p) :=
    Machine.simulates_foldlM (fun _ _ i hR => updateOne_posts os.outcome i hR) _ s p h
  unfold Postbox.update
  rw [← List.map_coe_finRange_eq_range, List.foldl_map]
  exact hloop

theorem sendVia_posts {p : Postbox} (h : Posts s p) {connId : Nat} {addr : Option Address}
    {data : List UInt8} {os : SendAnswers} (hm : s.Mailable connId addr data os) :
    ∃ s', s.sendVia connId addr data os = .ok ((p.send os.outcome connId addr data).1, s') ∧
      Posts s' (p.send os.outcome connId addr data).2 := by
  obtain ⟨hok, rfl⟩ := h
  exact sendVia_postbox hok hm

theorem sendToAll_posts {p : Postbox} (h : Posts s p) (connIds : List Nat) {data : List UInt8}
    {os : SendAnswers} (hm : SendsMeet Mailable s (.sendToAll connIds data os)) :
    ∃ s', s.sendToAll connIds data os = .ok s' ∧
      Posts s' (p.step (.sendToAll connIds data os)) := by
  refine Machine.simulates_of_meets (fun s p id hR hid => ?_) connIds s p h hm
  obtain ⟨s', hs', hR'⟩ := sendVia_posts hR hid
  refine ⟨s', ?_, hR'⟩
  unfold send
  rw [hs']
  rfl

end Process

/-! ### Runs

The promise is about the datagrams and the memory for them.  It is asked for at each call that
may queue something, in the state in which it may do so.
-/

section Steps

variable {s s' : Process}

/-- An operation that sends does what the postbox does. -/
theorem Op.step_posts (h : RingOK s) {op : Op} (hsends : op.sends = true)
    (hm : SendsMeet Mailable s op) :
    ∃ s', op.step s = .ok s' ∧ Posts s' (s.postbox.step op) := by
  have hself : Posts s s.postbox := ⟨h, rfl⟩
  cases op with
  | send connId data os =>
      obtain ⟨s', hs', hR⟩ := sendVia_posts hself hm
      exact ⟨s', snd_returns.mpr ⟨_, hs'⟩, hR⟩
  | sendTo connId addr data os =>
      obtain ⟨s', hs', hR⟩ := sendVia_posts hself hm
      exact ⟨s', snd_returns.mpr ⟨_, hs'⟩, hR⟩
  | sendToAll connIds data os => exact sendToAll_posts hself connIds hm
  | update os => exact update_posts os hself
  | _ => cases hsends

/-- The packets, and what was sent of them, are as before. -/
theorem aside_of_sameQueue (hq : SameQueue s s') : Postbox.Aside s.postbox s'.postbox := by
  have hsent : s'.sentSerials = s.sentSerials := by
    unfold sentSerials
    rw [hq.sends]
  refine ⟨hq.queued, unsent_congr hq.queued hsent, [], ?_, fun _ hc => absurd hc List.not_mem_nil⟩
  rw [List.append_nil]
  exact hq.sends

theorem Process.RingOK.of_sameQueue (h : RingOK s) (hq : SameQueue s s') : RingOK s' := by
  refine h.of_same hq.queue ?_ hq.queued hq.tags hq.drained
  unfold sentSerials
  rw [hq.sends]

/-- `send_oneshot` calls the system with a datagram that is never kept. -/
theorem sendOneshot_aside (h : RingOK s) {host port : String} {data : List UInt8}
    {os : OneshotAnswers} {e : Error} (hs : s.sendOneshot host port data os = .ok (e, s')) :
    RingOK s' ∧ Postbox.Aside s.postbox s'.postbox := by
  rcases sendOneshot_calls hs with rfl | ⟨-, calls, hcalls, -, hclose⟩
  · exact ⟨h, aside_of_sameQueue (SameQueue.refl _)⟩
  have hq := close_sameQueue hclose
  have hsent : s'.sentSerials = s.sentSerials :=
    sentSerials_append hq.sends fun c hc => (hcalls c hc).1
  refine ⟨h.of_same hq.queue hsent hq.queued hq.tags hq.drained, hq.queued,
    unsent_congr hq.queued hsent, calls, hq.sends, fun c hc => ?_⟩
  obtain ⟨hserial, howner, hvia⟩ := hcalls c hc
  exact ⟨hserial, hvia.trans howner.symm⟩

/-- Any other operation leaves what is kept alone. -/
theorem Op.step_aside (h : RingOK s) {op : Op} (hsends : op.sends = false)
    (hs : op.step s = .ok s') : RingOK s' ∧ Postbox.Aside s.postbox s'.postbox := by
  have hquiet : SameQueue s s' → RingOK s' ∧ Postbox.Aside s.postbox s'.postbox :=
    fun hq => ⟨h.of_sameQueue hq, aside_of_sameQueue hq⟩
  unfold Op.step at hs
  cases op with
  | create host port connect os =>
      obtain ⟨r, hr⟩ := snd_returns.mp hs
      exact hquiet (create_sameQueue hr)
  | serve port os =>
      obtain ⟨r, hr⟩ := snd_returns.mp hs
      exact hquiet (serve_sameQueue hr)
  | recv connId os =>
      obtain ⟨r, hr⟩ := snd_returns.mp hs
      exact hquiet (receive_sameQueue hr)
  | recvFrom connId os =>
      obtain ⟨r, hr⟩ := snd_returns.mp hs
      exact hquiet (receive_sameQueue hr)
  | recvFromAll connIds os => exact hquiet (recvFromAll_sameQueue hs)
  | close connId => exact hquiet (close_sameQueue hs)
  | sendOneshot host port data os =>
      obtain ⟨r, hr⟩ := snd_returns.mp hs
      exact sendOneshot_aside h hr
  | _ => cases hsends

end Steps

/-- The pool, given nothing to send that its queue could not take. -/
def mailing : Machine Process Op Fault where
  start s := ∃ port os, construct port os = .ok s
  admits := SendsMeet Mailable
  step := Op.step

theorem Process.RingOK.of_step {s s' : Process} (h : RingOK s) {op : Op}
    (hm : SendsMeet Mailable s op) (hs : op.step s = .ok s') : RingOK s' := by
  cases hsends : op.sends with
  | true =>
      obtain ⟨t, ht, hok, -⟩ := Op.step_posts h hsends hm
      rw [← Except.ok.inj (ht.symm.trans hs)]
      exact hok
  | false => exact (Op.step_aside h hsends hs).1

theorem ringOK_of_mailing {s : Process} (h : mailing.Reachable s) : RingOK s := by
  refine h.invariant (I := RingOK) ?_ fun s op s' hI hm hs => hI.of_step hm hs
  rintro s ⟨port, os, hs⟩
  have hempty : RingOK Process.empty := RingOK.of_empty rfl rfl rfl rfl
  exact hempty.of_sameQueue (construct_sameQueue hs)

/--
**The pool is a postbox.**  In every state that a run of the public operations can lead to, an
operation that sends returns, with the result the postbox gives, and does to what is kept and
to what the system is called with just what the postbox does; every other operation leaves what
is kept alone.
-/
theorem pool_refines_postbox (s : Process) (h : mailing.Reachable s) :
    (∀ connId addr data os, s.Mailable connId addr data os →
      ∃ s', s.sendVia connId addr data os =
          .ok ((s.postbox.send os.outcome connId addr data).1, s') ∧
        s'.postbox = (s.postbox.send os.outcome connId addr data).2) ∧
      (∀ op : Op, op.sends = true → mailing.admits s op →
        ∃ s', op.step s = .ok s' ∧ s'.postbox = s.postbox.step op) ∧
      ∀ (op : Op) (s' : Process), op.sends = false → op.step s = .ok s' →
        Postbox.Aside s.postbox s'.postbox := by
  have hok := ringOK_of_mailing h
  refine ⟨fun connId addr data os hm => ?_, fun op hsends hm => ?_, fun op s' hsends hs => ?_⟩
  · obtain ⟨s', hs', -, hpost⟩ := sendVia_postbox hok hm
    exact ⟨s', hs', hpost⟩
  · obtain ⟨s', hs', -, hpost⟩ := Op.step_posts hok hsends hm
    exact ⟨s', hs', hpost⟩
  · exact (Op.step_aside hok hsends hs).2

instance instDecidableMailable (s : Process) (connId : Nat) (addr : Option Address)
    (data : List UInt8) (os : SendAnswers) : Decidable (s.Mailable connId addr data os) :=
  inferInstanceAs (Decidable (_ ∧ _ ∧ _ ∧ _ ∧ _))

instance instDecidableMailingAdmits (s : Process) (op : Op) : Decidable (mailing.admits s op) :=
  match op with
  | .send connId data os => inferInstanceAs (Decidable (s.Mailable connId none data os))
  | .sendTo connId addr data os =>
      inferInstanceAs (Decidable (s.Mailable connId (some addr) data os))
  | .sendToAll connIds data os => inferInstanceAs (Decidable
      ((Machine.ofStep (sendRound data os)).Meets (fun t id => Mailable t id none data os) s
        connIds))
  | .create .. | .serve .. | .recv .. | .recvFrom .. | .recvFromAll .. | .update .. | .close ..
  | .sendOneshot .. => isTrue trivial

theorem mailing_start_empty : mailing.start Process.empty := ⟨0, { socket := -1 }, rfl⟩

/-- Two lines; what could not be sent on the first is kept, and an update sends it. -/
theorem pool_refines_postbox_kept :
    ∃ s, mailing.Reachable s ∧ s.postbox.kept = [(0, ⟨⟨some 0, 3⟩, none, [1]⟩)] ∧
      ∃ s', s.update {} = .ok s' ∧ s'.postbox = s.postbox.update fun _ => .sent := by
  obtain ⟨s, hs, hcheck⟩ := Machine.exists_reachable mailing_start_empty
    [.serve 9000 { socket := 3 }, .serve 9001 { socket := 4 },
      .send 0 [1] { outcome := fun _ => .wouldBlock }]
    (fun s => decide (s.postbox.kept = [(0, ⟨⟨some 0, 3⟩, none, [1]⟩)])) (by decide +kernel)
  exact ⟨s, hs, of_decide_eq_true hcheck,
    (pool_refines_postbox s hs).2.1 (.update {}) rfl trivial⟩

end Ytl.Udp
