/-
The packet queue is an outbox of the last eight packets.

The code counts positions up in `length`, masks them to find the ring slot, marks
a sent packet by `len = 0` and sets `length` back to 0 when everything was sent.
Abstractly, it is an `Outbox` of width eight: packets are numbered as they are
queued, and what waits is what has not been sent of the last eight.

`RingOK` connects the two.  Position `i` of the window holds the packet number
`drained + i`; the numbers below `drained` that are still among the last eight
have all been sent, for the queue was empty then.  Queueing refines `push`, and
a flush refines `send`.
-/
import Ytl.Base.Machine
import Ytl.Proofs.Udp.Storage

namespace Ytl.Udp

namespace Process

/-! ### Queueing, as a whole

The three steps of `queue_packet` are put together: the slot whose turn it is holds the
datagram, and the others what they held.
-/

/-- The datagram `d` has been put in the next ring slot. -/
structure Enqueued (s : Process) (d : Datagram) (t : Process) : Prop where
  storage : StorageOK t
  length : t.packetQueue.length = s.packetQueue.length + 1
  payload : (t.packetQueue.packets (ringSlot s.packetQueue.length)).payload = d.data
  len : (t.packetQueue.packets (ringSlot s.packetQueue.length)).len = d.data.length
  dest : t.destOf (t.packetQueue.packets (ringSlot s.packetQueue.length)) = d.dest
  others : ∀ j, j ≠ ringSlot s.packetQueue.length →
    t.packetQueue.packets j = s.packetQueue.packets j
  destOthers : ∀ j, j ≠ ringSlot s.packetQueue.length →
    t.destOf (t.packetQueue.packets j) = s.destOf (s.packetQueue.packets j)
  tags : t.tags =
    Function.update s.tags (ringSlot s.packetQueue.length) ⟨s.queued.length, d.owner⟩
  queued : t.queued = s.queued ++ [d]
  sends : t.sends = s.sends
  drained : t.drained = s.drained

/-- **`queue_packet` takes the packet** when the allocator grants the block. -/
theorem queuePacket_spec {s : Process} (h : StorageOK s) (owner : Endpoint)
    {addr : Option Address} {data : List UInt8} {a : Alloc} (ha : a.granted = true)
    (hpos : 0 < data.length) (hsize : data.length < 2 ^ 16)
    (hvalid : ∀ x, addr = some x → 0 < x.addrLen)
    (hlen : s.packetQueue.length + 1 < 2 ^ 32) :
    ∃ t, s.queuePacket owner addr data a = .ok (.buffered, t) ∧
      Enqueued s ⟨owner, addr, data⟩ t := by
  have h1 : StorageOK s.counted := h.of_packets rfl fun _ => ⟨_, rfl⟩
  obtain ⟨t1, hroom, hr⟩ := reserves_spec (k := ringSlot s.packetQueue.length) h1 ha hpos hsize
  obtain ⟨t2, hstore, hst⟩ := stores_spec hr hsize
  obtain ⟨t3, hto, hA⟩ := addresses_spec (k := ringSlot s.packetQueue.length) (hst.storage h1)
    hvalid
  have hsteps := QueueOnly.queueSteps (ringSlot s.packetQueue.length)
  have honly : QueueOnly s.counted t3 :=
    (hroom.steps hsteps).trans ((hstore.steps hsteps).trans (hto.steps hsteps))
  have hrec : t3.queued = s.queued ∧ t3.tags = s.tags ∧ t3.sends = s.sends ∧
      t3.drained = s.drained := by
    rw [honly]
    exact ⟨rfl, rfl, rfl, rfl⟩
  obtain ⟨e, he⟩ := hA.self
  refine ⟨_, queuePacket_eq_ok.mpr (.buffered hroom hstore hto),
    hA.storage.of_packets rfl fun _ => ⟨_, rfl⟩, ?_, ?_, ?_, hA.dest, ?_, ?_, ?_, ?_,
    hrec.2.2.1, hrec.2.2.2⟩
  · show t3.packetQueue.length = _
    rw [hA.length, hst.length]
    exact Nat.mod_eq_of_lt hlen
  · show (t3.packetQueue.packets _).payload = data
    rw [he]
    exact hst.payload
  · show (t3.packetQueue.packets _).len = data.length
    rw [he]
    exact hst.len
  · intro j hj
    show t3.packetQueue.packets j = _
    rw [hA.others j hj, hst.others j hj]
    rfl
  · intro j hj
    show t3.destOf (t3.packetQueue.packets j) = _
    rw [hA.destOthers j hj, hst.others j hj]
    unfold destOf
    rw [hst.addrStorage]
    rfl
  · show Function.update t3.tags _ _ = _
    rw [hrec.2.1, hrec.1]
  · show t3.queued ++ _ = _
    rw [hrec.1]

/-! ### The abstract outbox

The outbox is computed from the record of what was queued and what was sent, not from the
ring.  `RingOK` is what the ring has to do with it.
-/

/-- The numbers of the queued packets that were sent, in the order of the calls. -/
def sentSerials (s : Process) : List Nat :=
  s.sends.filterMap fun c => if c.outcome.isSent then c.serial else none

/-- The outbox that the queue stands for, read off what was queued and what was sent. -/
def outbox (s : Process) : Outbox := ⟨s.queued.length, s.sentSerials⟩

/-- The packet in a ring slot: its bytes and its destination are read from the slot. -/
def held (s : Process) (k : Fin maxBufferedPackets) : Datagram :=
  ⟨(s.tags k).owner, s.destOf (s.packetQueue.packets k), (s.packetQueue.packets k).payload⟩

/-- What has not been sent of the last eight packets, each with its number. -/
def unsent (s : Process) : List (Nat × Datagram) :=
  (s.outbox.pending 8).filterMap fun n => s.queued[n]?.map fun d => (n, d)

/-- The call that offers packet number `n`: by `sendto` if it has a destination. -/
def callOf (via : Endpoint) (n : Nat) (d : Datagram) (ret : SendOutcome) : SendCall where
  via := via
  owner := d.owner
  serial := some n
  bytes := d.data
  dest := d.dest
  outcome := ret

/-- Slot `k` was last used for packet number `n`, and it is marked if that was sent. -/
structure SlotHolds (s : Process) (k : Fin maxBufferedPackets) (n : Nat) : Prop where
  serial : (s.tags k).serial = n
  sent : (s.packetQueue.packets k).len = 0 ↔ n ∈ s.sentSerials
  packet : (s.packetQueue.packets k).len ≠ 0 → s.queued[n]? = some (s.held k)

/-- The queue represents its outbox. -/
structure RingOK (s : Process) : Prop where
  storage : StorageOK s
  length : s.packetQueue.length + s.drained = s.queued.length
  window : ∀ i, s.packetQueue.length - 8 ≤ i → i < s.packetQueue.length →
    s.SlotHolds (ringSlot i) (s.drained + i)
  drained : ∀ n, s.queued.length - 8 ≤ n → n < s.drained → n ∈ s.sentSerials
  order : s.outbox.InOrder 8

namespace RingOK

variable {s t : Process}

theorem of_empty (hq : s.packetQueue = {}) (hsends : s.sends = []) (hqueued : s.queued = [])
    (hdrained : s.drained = 0) : RingOK s := by
  have hsent : s.sentSerials = [] := by
    unfold sentSerials
    rw [hsends]
    rfl
  refine ⟨StorageOK.of_empty hq, ?_, ?_, ?_, ?_⟩
  · rw [hq, hdrained, hqueued]
    rfl
  · intro i _ hi
    rw [hq] at hi
    exact absurd hi (Nat.not_lt_zero i)
  · intro n _ hn
    omega
  · unfold outbox
    rw [hsent, hqueued]
    exact Outbox.InOrder.init

/-- The window of positions is the part of the last eight that lies behind the last
drain. -/
theorem recent_eq (h : RingOK s) :
    Outbox.recent 8 s.queued.length =
      List.range' (s.queued.length - 8) (s.drained - (s.queued.length - 8)) ++
        (List.range' (s.packetQueue.length - 8)
          (s.packetQueue.length - (s.packetQueue.length - 8))).map (s.drained + ·) := by
  have hlen := h.length
  rw [List.map_add_range', Outbox.recent]
  by_cases hd : s.queued.length - 8 ≤ s.drained
  · have hsplit := @List.range'_append (s.queued.length - 8)
      (s.drained - (s.queued.length - 8)) (s.packetQueue.length - (s.packetQueue.length - 8)) 1
    rw [show s.drained + (s.packetQueue.length - 8) =
      s.queued.length - 8 + 1 * (s.drained - (s.queued.length - 8)) by omega, hsplit]
    congr 1
    omega
  · rw [show s.drained - (s.queued.length - 8) = 0 by omega]
    rw [show s.drained + (s.packetQueue.length - 8) = s.queued.length - 8 by omega,
      show s.packetQueue.length - (s.packetQueue.length - 8) =
        s.queued.length - (s.queued.length - 8) by omega]
    rfl

/-- **What waits in the ring is what is pending in the outbox.** -/
theorem waiting_serials (h : RingOK s) :
    s.waiting.map (fun k => (s.tags k).serial) = s.outbox.pending 8 := by
  have hold : (List.range' (s.queued.length - 8) (s.drained - (s.queued.length - 8))).filter
      (fun n => decide (n ∉ s.sentSerials)) = [] := by
    refine List.filter_eq_nil_iff.mpr fun n hn => ?_
    rw [List.mem_range'_1] at hn
    have hmem := h.drained n hn.1 (by omega)
    simp [hmem]
  have hwin : ∀ i ∈ List.range' (s.packetQueue.length - 8)
      (s.packetQueue.length - (s.packetQueue.length - 8)),
      s.SlotHolds (ringSlot i) (s.drained + i) := by
    intro i hi
    rw [List.mem_range'_1] at hi
    exact h.window i hi.1 (by omega)
  show _ = (Outbox.recent 8 s.queued.length).filter (fun n => decide (n ∉ s.sentSerials))
  rw [h.recent_eq, List.filter_append, hold, List.nil_append, List.filter_map]
  unfold waiting waitingIn windowSlots
  rw [List.filter_map, List.map_map]
  have hfilter : (List.range' (s.packetQueue.length - 8)
      (s.packetQueue.length - (s.packetQueue.length - 8))).filter
        ((fun k => decide ((s.packetQueue.packets k).len ≠ 0)) ∘ ringSlot) =
      (List.range' (s.packetQueue.length - 8)
        (s.packetQueue.length - (s.packetQueue.length - 8))).filter
        ((fun n => decide (n ∉ s.sentSerials)) ∘ (s.drained + ·)) := by
    refine List.filter_congr fun i hi => ?_
    simp [(hwin i hi).sent]
  rw [hfilter]
  refine List.map_congr_left fun i hi => ?_
  exact (hwin i (List.mem_filter.mp hi).1).serial

/-- A waiting slot holds the packet its number says. -/
theorem queued_of_waiting (h : RingOK s) {k : Fin maxBufferedPackets} (hk : k ∈ s.waiting) :
    s.queued[(s.tags k).serial]? = some (s.held k) := by
  obtain ⟨hmem, hlen⟩ := List.mem_filter.mp hk
  obtain ⟨i, hi, rfl⟩ := List.mem_map.mp hmem
  rw [List.mem_range'_1] at hi
  have hw := h.window i hi.1 (by omega)
  rw [hw.serial]
  exact hw.packet (by simpa using hlen)

/-! ### Queueing refines `push`

The new packet gets the next number and the slot whose turn it is.  What that slot held before
has been sent, or it is the packet eight numbers back, which is given up.
-/

section Enqueue

variable {d : Datagram}

theorem enqueue_sentSerials (he : Enqueued s d t) : t.sentSerials = s.sentSerials := by
  unfold sentSerials
  rw [he.sends]

theorem enqueue_queued_length (he : Enqueued s d t) :
    t.queued.length = s.queued.length + 1 := by
  rw [he.queued]
  simp

/-- The slot that was taken holds the new packet. -/
theorem enqueue_holds_new (h : RingOK s) (hd : 0 < d.data.length) (he : Enqueued s d t) :
    t.SlotHolds (ringSlot s.packetQueue.length) s.queued.length := by
  refine ⟨?_, ?_, ?_⟩
  · rw [he.tags, Function.update_self]
  · rw [he.len, enqueue_sentSerials he]
    constructor
    · intro hz
      omega
    · intro hc
      exact absurd (h.order.bound _ hc) (Nat.lt_irrefl _)
  · intro _
    rw [he.queued, List.getElem?_concat_length]
    unfold held
    rw [he.tags, Function.update_self, he.payload, he.dest]

/-- A slot that was not taken holds what it held. -/
theorem enqueue_holds_old {k : Fin maxBufferedPackets} {n : Nat} (he : Enqueued s d t)
    (hk : k ≠ ringSlot s.packetQueue.length) (hn : n < s.queued.length)
    (hw : s.SlotHolds k n) : t.SlotHolds k n := by
  have htags : t.tags k = s.tags k := by
    rw [he.tags, Function.update_of_ne hk]
  refine ⟨?_, ?_, ?_⟩
  · rw [htags]
    exact hw.serial
  · rw [he.others _ hk, enqueue_sentSerials he]
    exact hw.sent
  · intro hne
    rw [he.others _ hk] at hne
    have hheld : t.held k = s.held k := by
      unfold held
      rw [htags, he.destOthers _ hk, he.others _ hk]
    rw [hheld, he.queued, List.getElem?_append_left hn]
    exact hw.packet hne

theorem enqueue_outbox (he : Enqueued s d t) : t.outbox = s.outbox.push := by
  unfold outbox Outbox.push
  rw [enqueue_sentSerials he, enqueue_queued_length he]

theorem enqueue (h : RingOK s) (hd : 0 < d.data.length) (he : Enqueued s d t) : RingOK t := by
  have hlen := h.length
  have hcount := enqueue_queued_length he
  refine ⟨he.storage, ?_, ?_, ?_, ?_⟩
  · rw [he.length, he.drained, hcount]
    omega
  · intro i hlow hhigh
    rw [he.length] at hlow hhigh
    rw [he.drained]
    by_cases hi : i = s.packetQueue.length
    · rw [hi, show s.drained + s.packetQueue.length = s.queued.length by omega]
      exact h.enqueue_holds_new hd he
    · -- the window is as wide as the ring, so its other slots are not the one taken
      have hslot : ringSlot i ≠ ringSlot s.packetQueue.length := by
        rw [Ne, ringSlot_eq_iff]
        omega
      exact enqueue_holds_old he hslot (by omega) (h.window i (by omega) (by omega))
  · intro n hlow hn
    rw [enqueue_sentSerials he]
    rw [he.drained] at hn
    exact h.drained n (by omega) hn
  · rw [enqueue_outbox he]
    exact h.order.push

end Enqueue

/-! ### A flush refines `send`

A flush that gets through sets `length` back, and the window is empty then because everything
in it has been sent.  One that is refused leaves `length` as it is, and marks what has gone
out.
-/

section Flush

variable {conn : Fin maxConnections} {outcome : Nat → SendOutcome} {blocked : Bool}

theorem flush_sentSerials (h : RingOK s) (hf : Flushed s conn outcome s.waiting blocked t) :
    t.sentSerials = s.sentSerials ++
      accepted outcome SendOutcome.isSent s.sends.length (s.outbox.pending 8) := by
  unfold sentSerials
  rw [hf.sends, List.filterMap_append]
  congr 1
  rw [← h.waiting_serials, accepted_map, accepted_eq_offer, List.filterMap_map]
  induction offer outcome SendOutcome.isSent s.sends.length s.waiting with
  | nil => rfl
  | cons p rest ih =>
      rw [List.filterMap_cons, ih]
      by_cases hp : p.2.isSent = true
      · simp [callAt, hp]
      · simp [callAt, hp]

theorem flush_outbox (h : RingOK s) (hf : Flushed s conn outcome s.waiting blocked t) :
    t.outbox = s.outbox.send 8 outcome SendOutcome.isSent s.sends.length := by
  unfold outbox Outbox.send
  rw [h.flush_sentSerials hf, hf.queued]
  rfl

/-- A slot of the window is marked by a flush exactly when its packet was accepted. -/
theorem mem_accepted_iff (h : RingOK s) (outcome : Nat → SendOutcome) {i : Nat}
    (hlow : s.packetQueue.length - 8 ≤ i) (hhigh : i < s.packetQueue.length) (n : Nat) :
    ringSlot i ∈ accepted outcome SendOutcome.isSent n s.waiting ↔
      s.drained + i ∈ accepted outcome SendOutcome.isSent n (s.outbox.pending 8) := by
  rw [← h.waiting_serials, accepted_map, List.mem_map]
  constructor
  · intro hmem
    exact ⟨_, hmem, (h.window i hlow hhigh).serial⟩
  · rintro ⟨k, hk, hserial⟩
    obtain ⟨j, hj, rfl⟩ := List.mem_map.mp (List.mem_filter.mp (mem_of_mem_accepted hk)).1
    rw [List.mem_range'_1] at hj
    rw [(h.window j hj.1 (by omega)).serial] at hserial
    have hij : i = j := by omega
    rw [hij]
    exact hk

theorem flush_storage (h : RingOK s) (hf : Flushed s conn outcome s.waiting blocked t) :
    StorageOK t := by
  refine h.storage.of_packets hf.addrStorage fun k => ?_
  rw [hf.packets k]
  split
  · exact ⟨0, rfl⟩
  · exact ⟨(s.packetQueue.packets k).len, rfl⟩

/-- A flush that was refused leaves the window where it is. -/
theorem flush_window (h : RingOK s) (hf : Flushed s conn outcome s.waiting blocked t)
    {i : Nat} (hlow : s.packetQueue.length - 8 ≤ i) (hhigh : i < s.packetQueue.length) :
    t.SlotHolds (ringSlot i) (s.drained + i) := by
  have hw := h.window i hlow hhigh
  have hmark := h.mem_accepted_iff outcome hlow hhigh s.sends.length
  have hsent := h.flush_sentSerials hf
  refine ⟨?_, ?_, ?_⟩
  · rw [hf.tags]
    exact hw.serial
  · rw [hsent, List.mem_append, ← hmark, ← hw.sent, hf.packets]
    split
    · rename_i hacc
      simp [hacc]
    · rename_i hacc
      simp [hacc]
  · intro hne
    rw [hf.packets] at hne
    split at hne
    · exact absurd rfl hne
    · rename_i hacc
      have hheld : t.held (ringSlot i) = s.held (ringSlot i) := by
        unfold held destOf
        rw [hf.tags, hf.packets, if_neg hacc, hf.addrStorage]
      rw [hheld, hf.queued]
      exact hw.packet hne

theorem flush (h : RingOK s) (hf : Flushed s conn outcome s.waiting blocked t) : RingOK t := by
  have hsent := h.flush_sentSerials hf
  have horder : t.outbox.InOrder 8 := by
    rw [h.flush_outbox hf]
    exact h.order.send
  have hstays : t.packetQueue.length = s.packetQueue.length → t.drained = s.drained →
      RingOK t := by
    intro hl hd
    refine ⟨h.flush_storage hf, ?_, ?_, ?_, horder⟩
    · rw [hl, hd, hf.queued]
      exact h.length
    · intro i hlow hhigh
      rw [hl] at hlow hhigh
      rw [hd]
      exact h.flush_window hf hlow hhigh
    · intro n hlow hn
      rw [hf.queued] at hlow
      rw [hd] at hn
      rw [hsent]
      exact List.mem_append_left _ (h.drained n hlow hn)
  have hends := hf.ends
  unfold FlushEnds at hends
  split at hends
  · -- everything was accepted, and the count starts again
    rename_i hnone
    obtain ⟨-, -, hl, hd⟩ := hends
    have hall := accepted_of_refusal_none _ _ hnone
    refine ⟨h.flush_storage hf, ?_, ?_, ?_, horder⟩
    · rw [hl, hd, hf.queued]
      omega
    · intro i _ hi
      rw [hl] at hi
      exact absurd hi (Nat.not_lt_zero i)
    · intro n hlow hn
      rw [hf.queued] at hlow
      rw [hd] at hn
      rw [hsent, List.mem_append]
      by_cases hmem : n ∈ s.sentSerials
      · exact Or.inl hmem
      · have hpend : n ∈ s.outbox.pending 8 := Outbox.mem_pending.mpr ⟨⟨hlow, hn⟩, hmem⟩
        rw [← h.waiting_serials, accepted_map, hall, h.waiting_serials]
        exact Or.inr hpend
  · exact hstays hends.2.2.1 hends.2.2.2
  · exact hstays hends.2.2.1 hends.2.2.2

end Flush

/-! ### What the ring does, in terms of the outbox

Back to the code: what waits is listed with its bytes and destinations, which are read from
the slots and are those that were queued.
-/

theorem waiting_eq_unsent (h : RingOK s) :
    s.waiting.map (fun k => ((s.tags k).serial, s.held k)) = s.unsent := by
  unfold unsent
  rw [← h.waiting_serials, List.filterMap_map, ← List.filterMap_eq_map]
  refine List.filterMap_congr fun k hk => ?_
  simp [h.queued_of_waiting hk]

/-- A flush of a connection without an error returns, and offers what was not sent. -/
theorem flush_calls (h : RingOK s) (conn : Fin maxConnections) (outcome : Nat → SendOutcome)
    (herr : (s.conns conn).error = .none) :
    ∃ blocked t, s.tryFlushQueue conn.val outcome = .ok (blocked, t) ∧
      t.sends = s.sends ++ (offer outcome SendOutcome.isSent s.sends.length s.unsent).map
        fun p => callOf (s.endpoint conn) p.1.1 p.1.2 p.2 := by
  obtain ⟨blocked, t, ht⟩ := tryFlushQueue_returns h.storage.entry conn outcome
  refine ⟨blocked, t, ht, ?_⟩
  rcases tryFlushQueue_flushed herr ht with ⟨hlen, -, rfl⟩ | ⟨-, hf⟩
  · have hnone : t.unsent = [] := by
      rw [← h.waiting_eq_unsent]
      simp [waiting, waitingIn, windowSlots, hlen]
    simp [hnone, offer]
  · rw [hf.sends, ← h.waiting_eq_unsent, offer_map, List.map_map]
    rfl

theorem of_tryFlushQueue (h : RingOK s) {connId : Nat} {outcome : Nat → SendOutcome}
    {blocked : Bool} (ht : s.tryFlushQueue connId outcome = .ok (blocked, t)) : RingOK t := by
  rcases tryFlushQueue_cases ht with rfl | ⟨conn, -, hf⟩
  · exact h
  · exact h.flush hf

end RingOK

end Process

open Process

/-! ### Runs

Connections may be opened, closed and broken in between as anyone likes, so a step may also
replace the connections by any others.
-/

/-- What happens to the queue.  Other operations matter to it only by what they do to
the connections. -/
inductive RingOp where
  | queue (owner : Endpoint) (addr : Option Address) (data : List UInt8) (a : Alloc)
  | flush (connId : Nat) (outcome : Nat → SendOutcome)
  | elsewhere (conns : Fin maxConnections → ConnectionData)

namespace RingOp

/-- A packet is queued, or the queue is flushed, or the connections change. -/
def step (s : Process) : RingOp → Except Fault Process
  | .queue owner addr data a => Prod.snd <$> s.queuePacket owner addr data a
  | .flush connId outcome => Prod.snd <$> s.tryFlushQueue connId outcome
  | .elsewhere conns => .ok { s with conns := conns }

/-- A packet has between 1 and 65535 bytes and no address or one with a length, the
allocator grants its block, and fewer than 2^32 packets come between two drains. -/
def admits (s : Process) : RingOp → Prop
  | .queue _ addr data a => (0 < data.length ∧ data.length < 2 ^ 16) ∧ a.granted = true ∧
      (∀ x ∈ addr, 0 < x.addrLen) ∧ s.queued.length + 1 - s.drained < 2 ^ 32
  | .flush _ _ => True
  | .elsewhere _ => True

end RingOp

/-- The queue starts empty; the connections may be in any state. -/
def ring : Machine Process RingOp Fault where
  start s := s.packetQueue = {} ∧ s.sends = [] ∧ s.queued = [] ∧ s.drained = 0
  admits := RingOp.admits
  step := RingOp.step

instance (s : Process) (op : RingOp) : Decidable (ring.admits s op) :=
  match op with
  | .queue _ addr data a =>
      inferInstanceAs (Decidable ((0 < data.length ∧ data.length < 2 ^ 16) ∧ a.granted = true ∧
        (∀ x ∈ addr, 0 < x.addrLen) ∧ s.queued.length + 1 - s.drained < 2 ^ 32))
  | .flush _ _ => inferInstanceAs (Decidable True)
  | .elsewhere _ => inferInstanceAs (Decidable True)

theorem queue_returns {s : Process} (h : RingOK s) {owner : Endpoint} {addr : Option Address}
    {data : List UInt8} {a : Alloc} (hadm : RingOp.admits s (.queue owner addr data a)) :
    ∃ t, s.queuePacket owner addr data a = .ok (.buffered, t) ∧
      t.queued = s.queued ++ [⟨owner, addr, data⟩] ∧ RingOK t := by
  obtain ⟨⟨hpos, hsize⟩, ha, hvalid, hbound⟩ := hadm
  have hlen := h.length
  obtain ⟨t, ht, he⟩ := queuePacket_spec h.storage owner ha hpos hsize hvalid (by omega)
  exact ⟨t, ht, he.queued, h.enqueue hpos he⟩

theorem ringOK_of_reachable {s : Process} (h : ring.Reachable s) : RingOK s := by
  refine h.invariant (I := RingOK) ?_ ?_
  · rintro s ⟨hq, hsends, hqueued, hdrained⟩
    exact RingOK.of_empty hq hsends hqueued hdrained
  · intro s op s' hI hadm hs
    cases op with
    | queue owner addr data a =>
        obtain ⟨t, ht, -, hok⟩ := queue_returns hI hadm
        obtain ⟨r, hr⟩ := snd_returns.mp hs
        rw [ht] at hr
        cases hr
        exact hok
    | flush connId outcome =>
        obtain ⟨r, hr⟩ := snd_returns.mp hs
        exact hI.of_tryFlushQueue hr
    | elsewhere conns =>
        cases hs
        refine ⟨hI.storage.of_packets rfl fun _ => ⟨_, rfl⟩, hI.length, ?_, hI.drained, hI.order⟩
        intro i hlow hhigh
        have hw := hI.window i hlow hhigh
        exact ⟨hw.serial, hw.sent, hw.packet⟩

/--
**The ring keeps the last eight packets in order.**  In every state reached by
queueing and flushing, the packets that wait are those of the last eight that have
not been sent, each with its own bytes and destination; every flush of a connection
without an error offers them, oldest first, until one is refused; every packet that
is queued is taken, behind all others, with the connection, the address and the bytes it
was given with; and packets are sent in the order they were queued, none twice.
-/
theorem ring_queue_order (s : Process) (h : ring.Reachable s) :
    s.waiting.map (fun k => ((s.tags k).serial, s.held k)) = s.unsent ∧
      (∀ (conn : Fin maxConnections) (outcome : Nat → SendOutcome),
        (s.conns conn).error = .none →
        ∃ blocked t, s.tryFlushQueue conn.val outcome = .ok (blocked, t) ∧
          t.sends = s.sends ++ (offer outcome SendOutcome.isSent s.sends.length s.unsent).map
            fun p => callOf (s.endpoint conn) p.1.1 p.1.2 p.2) ∧
      (∀ owner addr data a, RingOp.admits s (.queue owner addr data a) →
        ∃ t, s.queuePacket owner addr data a = .ok (.buffered, t) ∧
          t.queued = s.queued ++ [⟨owner, addr, data⟩]) ∧
      s.sentSerials.Pairwise (· < ·) := by
  have hok := ringOK_of_reachable h
  refine ⟨hok.waiting_eq_unsent, hok.flush_calls, ?_, hok.order.sorted⟩
  intro owner addr data a hadm
  obtain ⟨t, ht, hqueued, -⟩ := queue_returns hok hadm
  exact ⟨t, ht, hqueued⟩

/-- Two packets are queued, the first is sent and the second refused: the second waits
with the address it was given. -/
theorem ring_queue_order_refused :
    ∃ s, ring.Reachable s ∧ s.sentSerials = [0] ∧
      s.unsent = [(1, ⟨⟨some 0, 3⟩, some { addrLen := 16 }, [2, 3]⟩)] ∧
      s.waiting.map (fun k => ((s.tags k).serial, s.held k)) = s.unsent := by
  obtain ⟨s, hs, hcheck⟩ := Machine.exists_reachable (m := ring) (s := Process.empty)
    ⟨rfl, rfl, rfl, rfl⟩
    [.queue ⟨some 0, 3⟩ none [1] {}, .queue ⟨some 0, 3⟩ (some { addrLen := 16 }) [2, 3] {},
      .flush 0 fun n => if n = 0 then .sent else .wouldBlock]
    (fun s => decide (s.sentSerials = [0] ∧
      s.unsent = [(1, ⟨⟨some 0, 3⟩, some { addrLen := 16 }, [2, 3]⟩)])) (by decide +kernel)
  obtain ⟨hsent, hunsent⟩ := of_decide_eq_true hcheck
  exact ⟨s, hs, hsent, hunsent, (ring_queue_order s hs).1⟩

end Ytl.Udp
