/-
What becomes of one packet that is given to `queue_packet`.

If it is taken, the next flush hands it over with the bytes it was given, as long as its size
can be told by 16 bits: `len` is that narrow, and a slot with `len = 0` counts as sent, so
packets of 0 and of 65536 bytes are never handed over and longer ones are cut.  If it is not
taken because there is no memory, the queue is not what it was: the packet is counted all the
same, and the block the slot had is lost.

Both statements start from any state of the queue and speak of one call, so nothing is known
of how the state came about.  What they need of it is that pointers of the ring are good, for
the first, and that the slots own what they say, for the second.
-/
import Ytl.Proofs.Udp.Entries
import Ytl.Proofs.Udp.Window

namespace Ytl.Udp

/-- How many bytes the block of a slot has. -/
def PacketData.room (p : PacketData) : Nat := ((p.data.map Block.bytes).getD []).length

namespace Process

variable {s t u : Process} {k : Fin maxBufferedPackets} {owner : Endpoint}
  {addr : Option Address} {data : List UInt8} {a : Alloc}

/-! ### Pointers -/

/-- Every pointer of the ring points at an entry of `addr_storage`. -/
def PointersOK (s : Process) : Prop :=
  ∀ k e, (s.packetQueue.packets k).toAddr = some e → e < s.packetQueue.addrStorage.length

theorem SameEntries.pointers (h : SameEntries s t) (hs : PointersOK s) : PointersOK t := by
  intro k e hk
  rw [h.toAddr k] at hk
  rw [h.addrStorage]
  exact hs k e hk

theorem Addresses.pointers (h : Addresses s k addr t) (hs : PointersOK s) : PointersOK t := by
  intro j e hj
  cases h with
  | again _ _ =>
      rw [List.length_set]
      exact hs j e hj
  | new hto =>
      rw [setPacket_addrStorage, List.length_append, List.length_singleton]
      by_cases hjk : j = k
      · rw [hjk, setPacket_self] at hj
        exact (Option.some.inj hj) ▸ Nat.lt_succ_self _
      · rw [setPacket_of_ne _ _ hjk] at hj
        exact Nat.lt_succ_of_lt (hs j e hj)
  | cleared _ _ =>
      rw [List.length_set]
      exact hs j e hj
  | left _ => exact hs j e hj

/-! ### A packet that is taken

What the slot holds afterwards is the packet cut to what 16 bits can tell.  That is compared
with the packet itself, and the flush that follows with a flush that finds the slot in its
window.
-/

/-- The bytes of a slot are those of the packet, as far as 16 bits count them. -/
structure Stamped (data : List UInt8) (p : PacketData) : Prop where
  len : p.len = data.length % 2 ^ 16
  payload : p.payload = data.take (data.length % 2 ^ 16)

theorem Stores.stamped (h : Stores s k data t) : Stamped data (t.packetQueue.packets k) := by
  cases h with
  | nothing _ hnil =>
      rw [setPacket_self, hnil]
      exact ⟨rfl, rfl⟩
  | copied _ hle =>
      rw [setPacket_self]
      refine ⟨rfl, ?_⟩
      show (data ++ _).take (data.length % 2 ^ 16) = _
      rw [List.take_append_of_le_length (Nat.mod_le _ _)]

theorem Addresses.stamped (h : Addresses s k addr t)
    (hs : Stamped data (s.packetQueue.packets k)) : Stamped data (t.packetQueue.packets k) := by
  cases h with
  | again _ _ => exact hs
  | new _ =>
      rw [setPacket_self]
      exact ⟨hs.len, hs.payload⟩
  | cleared _ _ => exact hs
  | left _ => exact hs

/-- The packet is in the slot whose turn it was. -/
structure Buffered (s : Process) (data : List UInt8) (t : Process) : Prop where
  stamped : Stamped data (t.packetQueue.packets (ringSlot s.packetQueue.length))
  length : t.packetQueue.length = (s.packetQueue.length + 1) % 2 ^ 32
  pointers : PointersOK s → PointersOK t
  conns : t.conns = s.conns

theorem queuePacket_buffered (h : s.queuePacket owner addr data a = .ok (.buffered, t)) :
    Buffered s data t := by
  have hlength := queuePacket_length h
  have hconns := (queuePacket_untouched h).2
  cases queuePacket_eq_ok.mp h with
  | buffered hroom hstore hto =>
      have hsame := hroom.sameEntries.trans hstore.sameEntries
      refine ⟨hto.stamped hstore.stamped, hlength, fun hs => ?_, hconns⟩
      exact hto.pointers (hsame.pointers hs)

/-- The flush makes a call for each packet that waits; the packet in slot `k` is one of them,
once, and the call for it hands over `data`. -/
structure HandsOver (t : Process) (conn : Fin maxConnections) (k : Fin maxBufferedPackets)
    (data : List UInt8) (u : Process) : Prop where
  calls : u.sends = t.sends ++ t.waiting.map fun j => t.callAt conn j .sent
  once : t.waiting.count k = 1
  bytes : (t.callAt conn k .sent).bytes = data

/-- The system takes every packet that is offered. -/
theorem offer_sent (ks : List (Fin maxBufferedPackets)) (n : Nat) :
    offer (fun _ => SendOutcome.sent) SendOutcome.isSent n ks = ks.map fun k => (k, .sent) := by
  induction ks generalizing n with
  | nil => rfl
  | cons k rest ih => simp [offer, ih, SendOutcome.isSent]

theorem flush_calls_sent (ht : PointersOK t) {conn : Fin maxConnections}
    (herr : (t.conns conn).error = .none) :
    ∃ blocked u, t.tryFlushQueue conn.val (fun _ => .sent) = .ok (blocked, u) ∧
      u.sends = t.sends ++ t.waiting.map fun j => t.callAt conn j .sent := by
  obtain ⟨blocked, u, hu⟩ := tryFlushQueue_returns ht conn fun _ => .sent
  refine ⟨blocked, u, hu, ?_⟩
  rcases tryFlushQueue_flushed herr hu with ⟨hzero, -, rfl⟩ | ⟨-, hf⟩
  · rw [waiting_nil hzero, List.map_nil, List.append_nil]
  · rw [hf.sends, offer_sent, List.map_map]
    rfl

/-- The newest packet waits, unless its length reads as 0 or the count has come round to 0. -/
theorem Buffered.waits_iff (h : Buffered s data t) :
    ringSlot s.packetQueue.length ∈ t.waiting ↔
      data.length % 2 ^ 16 ≠ 0 ∧ (s.packetQueue.length + 1) % 2 ^ 32 ≠ 0 := by
  rw [mem_waiting, h.stamped.len, h.length, and_comm]
  refine and_congr_right fun _ => ?_
  constructor
  · rintro ⟨i, -, hi, -⟩
    exact Nat.ne_zero_of_lt hi
  · intro hcount
    refine ⟨(s.packetQueue.length + 1) % 2 ^ 32 - 1, by omega, by omega, ?_⟩
    rw [ringSlot_eq_iff]
    omega

/-- Exactly the sizes from 1 to 65535 survive the 16 bits. -/
theorem Stamped.payload_eq_iff {p : PacketData} (h : Stamped data p) :
    p.payload = data ↔ data.length < 2 ^ 16 := by
  rw [h.payload]
  constructor
  · intro heq
    have hlen := congrArg List.length heq
    rw [List.length_take] at hlen
    omega
  · intro hsize
    rw [Nat.mod_eq_of_lt hsize, List.take_length]

/--
**A packet survives the queue exactly when its size fits in 16 bits.**  For every state of the
queue whose pointers are good, and every packet that `queue_packet` takes: the next flush of a
connection without an error, with the system taking everything, returns and hands over the
packet once and with its own bytes, if and only if it has between 1 and 65535 bytes and the
32-bit count of packets has not just come round to 0.
-/
theorem buffered_survives_iff (s t : Process) (owner : Endpoint) (addr : Option Address)
    (data : List UInt8) (a : Alloc) (conn : Fin maxConnections) (hs : PointersOK s)
    (h : s.queuePacket owner addr data a = .ok (.buffered, t))
    (herr : (t.conns conn).error = .none) :
    (∃ blocked u, t.tryFlushQueue conn.val (fun _ => .sent) = .ok (blocked, u) ∧
        HandsOver t conn (ringSlot s.packetQueue.length) data u) ↔
      (0 < data.length ∧ data.length < 2 ^ 16) ∧ (s.packetQueue.length + 1) % 2 ^ 32 ≠ 0 := by
  have hb := queuePacket_buffered h
  obtain ⟨blocked, u, hu, hcalls⟩ := flush_calls_sent (hb.pointers hs) herr
  constructor
  · rintro ⟨_, _, -, hover⟩
    have hmem : ringSlot s.packetQueue.length ∈ t.waiting :=
      List.count_pos_iff.mp (by rw [hover.once]; exact Nat.one_pos)
    obtain ⟨hne, hcount⟩ := hb.waits_iff.mp hmem
    have hsize := hb.stamped.payload_eq_iff.mp hover.bytes
    exact ⟨⟨by omega, hsize⟩, hcount⟩
  · rintro ⟨⟨hpos, hsize⟩, hcount⟩
    have hne : data.length % 2 ^ 16 ≠ 0 := by
      rw [Nat.mod_eq_of_lt hsize]
      omega
    refine ⟨blocked, u, hu, hcalls, ?_, hb.stamped.payload_eq_iff.mpr hsize⟩
    exact List.count_eq_one_of_mem t.waiting_nodup (hb.waits_iff.mpr ⟨hne, hcount⟩)

/-- Two bytes for an address are queued on the empty queue. -/
theorem buffered_survives_two :
    ∃ t, Process.empty.queuePacket ⟨some 0, 3⟩ (some { addrLen := 16 }) [1, 2] {} =
        .ok (.buffered, t) ∧
      ∃ blocked u, t.tryFlushQueue (0 : Fin maxConnections).val (fun _ => .sent) =
        .ok (blocked, u) ∧ HandsOver t 0 (ringSlot 0) [1, 2] u := by
  obtain ⟨⟨r, t⟩, ht, hcheck⟩ := returns_of_checkResult
    (x := Process.empty.queuePacket ⟨some 0, 3⟩ (some { addrLen := 16 }) [1, 2] {})
    (P := fun p => decide (p.1 = .buffered ∧ (p.2.conns 0).error = .none)) (by decide +kernel)
  obtain ⟨rfl, herr⟩ := of_decide_eq_true hcheck
  exact ⟨t, ht, (buffered_survives_iff Process.empty t _ _ _ _ 0 (fun _ _ => nofun) ht
    herr).mpr (by decide)⟩

/-- An empty packet is taken, and no flush hands it over. -/
theorem buffered_lost :
    ¬ ∀ (s t : Process) (owner : Endpoint) (addr : Option Address) (data : List UInt8)
      (a : Alloc) (conn : Fin maxConnections), PointersOK s →
      s.queuePacket owner addr data a = .ok (.buffered, t) → (t.conns conn).error = .none →
      ∃ blocked u, t.tryFlushQueue conn.val (fun _ => .sent) = .ok (blocked, u) ∧
        HandsOver t conn (ringSlot s.packetQueue.length) data u := by
  intro hall
  obtain ⟨⟨r, t⟩, ht, hcheck⟩ := returns_of_checkResult
    (x := Process.empty.queuePacket ⟨some 0, 3⟩ none [] {})
    (P := fun p => decide (p.1 = .buffered ∧ (p.2.conns 0).error = .none ∧
      p.2.waiting.count (ringSlot 0) = 0)) (by decide +kernel)
  obtain ⟨rfl, herr, hnone⟩ := of_decide_eq_true hcheck
  obtain ⟨_, _, -, hover⟩ := hall Process.empty t _ _ _ _ 0 (fun _ _ => nofun) ht herr
  have honce : t.waiting.count (ringSlot 0) = 1 := hover.once
  rw [hnone] at honce
  cases honce

/-! ### A packet that is not taken

There is one way to find no room, and on it the slot's pointer is overwritten with the null
that `realloc` has returned.
-/

/-- Every slot owns a block with room for its packet, and for as many bytes as it says. -/
def BlocksOwned (s : Process) : Prop :=
  ∀ k, (s.packetQueue.packets k).len ≤ (s.packetQueue.packets k).room ∧
    (s.packetQueue.packets k).maxLen ≤ (s.packetQueue.packets k).room

/-- The count, the slots and the destinations are the same in both states. -/
structure QueueIntact (s t : Process) : Prop where
  length : t.packetQueue.length = s.packetQueue.length
  packets : ∀ k, t.packetQueue.packets k = s.packetQueue.packets k
  dest : ∀ k, t.destOf (t.packetQueue.packets k) = s.destOf (s.packetQueue.packets k)

/-- The slot whose turn it was has no block any more. -/
structure Refused (s t : Process) : Prop where
  length : t.packetQueue.length = (s.packetQueue.length + 1) % 2 ^ 32
  lost : t.packetQueue.packets (ringSlot s.packetQueue.length) =
    { s.packetQueue.packets (ringSlot s.packetQueue.length) with data := none }
  others : ∀ j, j ≠ ringSlot s.packetQueue.length →
    t.packetQueue.packets j = s.packetQueue.packets j

/-- The one way to find no room: the block is too small, and there is no memory. -/
theorem Reserves.eq_of_refused {size : Nat} (h : Reserves s k size a false t) :
    t = s.setPacket k { s.packetQueue.packets k with data := none } := by
  cases h with
  | refused _ _ => rfl

/-- **`queue_packet` that fails** has counted the packet and dropped a block. -/
theorem queuePacket_refused (h : s.queuePacket owner addr data a = .ok (.failed, t)) :
    Refused s t := by
  have hlength := queuePacket_length h
  cases queuePacket_eq_ok.mp h with
  | failed hroom =>
      rw [hroom.eq_of_refused] at hlength ⊢
      exact ⟨hlength, setPacket_self _ _ _, fun j hj => setPacket_of_ne _ _ hj⟩

/-- What the slots own is in order afterwards only if the slot had nothing to lose. -/
theorem Refused.blocksOwned_iff (h : Refused s t) (hs : BlocksOwned s) :
    BlocksOwned t ↔ (s.packetQueue.packets (ringSlot s.packetQueue.length)).len = 0 ∧
      (s.packetQueue.packets (ringSlot s.packetQueue.length)).maxLen = 0 := by
  constructor
  · intro ht
    have hslot := ht (ringSlot s.packetQueue.length)
    rw [h.lost] at hslot
    exact ⟨Nat.le_zero.mp hslot.1, Nat.le_zero.mp hslot.2⟩
  · rintro ⟨hlen, hmax⟩ j
    by_cases hj : j = ringSlot s.packetQueue.length
    · rw [hj, h.lost]
      exact ⟨Nat.le_of_eq hlen, Nat.le_of_eq hmax⟩
    · rw [h.others j hj]
      exact hs j

/-- Runs keep the count within 32 bits. -/
theorem length_lt_of_reachable (h : queueing.Reachable s) : s.packetQueue.length < 2 ^ 32 := by
  refine h.invariant (I := fun s => s.packetQueue.length < 2 ^ 32) ?_ ?_
  · rintro s ⟨port, os, hs⟩
    rw [(construct_sameQueue hs).queue]
    exact Nat.two_pow_pos 32
  · intro s op t hs _ ht
    cases op with
    | queue owner addr data a =>
        obtain ⟨r, hr⟩ := snd_returns.mp ht
        show t.packetQueue.length < 2 ^ 32
        rw [queuePacket_length hr]
        exact Nat.mod_lt _ (Nat.two_pow_pos 32)
    | flush connId outcome =>
        obtain ⟨r, hr⟩ := snd_returns.mp ht
        rcases tryFlushQueue_cases hr with rfl | ⟨conn, -, hf⟩
        · exact hs
        · exact Nat.lt_of_le_of_lt hf.length_le hs
    | elsewhere conns =>
        cases ht
        exact hs

/--
**A failed enqueue never leaves the queue as it was.**  In every state that queueing and
flushing lead to, whenever `queue_packet` fails, the packet has been counted and the slot whose
turn it was has lost its block; and where all slots owned what they said before, they still do
if and only if that slot had neither a packet nor a size.
-/
theorem failed_enqueue_never_intact (s t : Process) (hs : queueing.Reachable s)
    (owner : Endpoint) (addr : Option Address) (data : List UInt8) (a : Alloc)
    (h : s.queuePacket owner addr data a = .ok (.failed, t)) :
    ¬ QueueIntact s t ∧ Refused s t ∧
      (BlocksOwned s → (BlocksOwned t ↔
        (s.packetQueue.packets (ringSlot s.packetQueue.length)).len = 0 ∧
          (s.packetQueue.packets (ringSlot s.packetQueue.length)).maxLen = 0)) := by
  have href := queuePacket_refused h
  refine ⟨fun hintact => ?_, href, href.blocksOwned_iff⟩
  have hlt := length_lt_of_reachable hs
  have hsame := hintact.length
  rw [href.length] at hsame
  omega

/-- Eight packets of one byte wait, and there is no memory for one of two bytes. -/
def fullQueue : List RingOp := List.replicate 8 (.queue ⟨some 0, 3⟩ none [7] {})

theorem failed_enqueue_reachable :
    ∃ s t, queueing.Reachable s ∧
      s.queuePacket ⟨some 0, 3⟩ none [8, 9] { granted := false } = .ok (.failed, t) ∧
      s.packetQueue.length = 8 ∧ (t.packetQueue.packets 0).len = 1 := by
  obtain ⟨s, hs, hcheck⟩ := Machine.exists_reachable (m := queueing) (s := Process.empty)
    ⟨0, { socket := -1 }, rfl⟩ fullQueue
    (fun s => decide (s.packetQueue.length = 8) &&
      checkResult (s.queuePacket ⟨some 0, 3⟩ none [8, 9] { granted := false }) fun p =>
        decide (p.1 = .failed ∧ (p.2.packetQueue.packets 0).len = 1)) (by decide +kernel)
  obtain ⟨hlen, hfails⟩ := Bool.and_eq_true_iff.mp hcheck
  obtain ⟨⟨r, t⟩, ht, hP⟩ := returns_of_checkResult hfails
  obtain ⟨rfl, hpacket⟩ := of_decide_eq_true hP
  exact ⟨s, t, hs, ht, of_decide_eq_true hlen, hpacket⟩

/-- In the full queue the oldest packet keeps its length and loses its bytes. -/
theorem failed_enqueue_never_intact_full :
    ∃ s t, queueing.Reachable s ∧ ¬ QueueIntact s t ∧ (t.packetQueue.packets 0).len = 1 := by
  obtain ⟨s, t, hs, ht, -, hpacket⟩ := failed_enqueue_reachable
  exact ⟨s, t, hs, (failed_enqueue_never_intact s t hs _ _ _ _ ht).1, hpacket⟩

theorem failed_enqueue_not_intact :
    ¬ ∀ (s t : Process) (owner : Endpoint) (addr : Option Address) (data : List UInt8)
      (a : Alloc), queueing.Reachable s → s.queuePacket owner addr data a = .ok (.failed, t) →
      QueueIntact s t ∧ BlocksOwned t := by
  intro hall
  obtain ⟨s, t, hs, ht, hlen, hpacket⟩ := failed_enqueue_reachable
  have hlost := (queuePacket_refused ht).lost
  have howned := ((hall s t _ _ _ _ hs ht).2 0).1
  have hslot : ringSlot s.packetQueue.length = 0 := by
    rw [hlen]
    rfl
  rw [hslot] at hlost
  rw [hpacket, hlost] at howned
  exact absurd howned (Nat.not_succ_le_zero 0)

end Process

end Ytl.Udp
