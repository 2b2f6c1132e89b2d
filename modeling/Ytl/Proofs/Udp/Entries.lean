/-
Where the destinations of queued packets are kept.

A slot of the ring holds a pointer into `addr_storage`, a vector that grows while other slots
hold theirs.  The pointers stay good because a slot that has an entry never asks for another:
there are as many entries as slots that point at one, so never more than the constructor has
reserved room for.  Nothing is asked of the packets for that, nor of the allocator.

What would go wrong otherwise is that the vector grows beyond its room and moves: then every
pointer into it would dangle, and a later flush would read addresses from memory that was
given back.  An index that stays in range, in a vector that stays within its room, is how the
model says that this does not happen.
-/
import Ytl.Proofs.Udp.Ring

namespace Ytl.Udp

namespace Process

variable {s t : Process} {k : Fin maxBufferedPackets}

/-! ### Writing to a slot

The steps of `queue_packet` keep the destinations as they are, all but the last one, which may
write an entry or add one.
-/

/-- Every slot that points at an entry still points at it. -/
def KeepsTo (s t : Process) : Prop :=
  ∀ k e, (s.packetQueue.packets k).toAddr = some e → (t.packetQueue.packets k).toAddr = some e

/-- The destinations are the same in both states. -/
structure SameEntries (s t : Process) : Prop where
  addrStorage : t.packetQueue.addrStorage = s.packetQueue.addrStorage
  toAddr : ∀ k, (t.packetQueue.packets k).toAddr = (s.packetQueue.packets k).toAddr

namespace SameEntries

theorem of_queue (h : t.packetQueue = s.packetQueue) : SameEntries s t :=
  ⟨by rw [h], fun _ => by rw [h]⟩

theorem trans {u : Process} (h : SameEntries s t) (h' : SameEntries t u) : SameEntries s u :=
  ⟨h'.addrStorage.trans h.addrStorage, fun k => (h'.toAddr k).trans (h.toAddr k)⟩

theorem entries (h : SameEntries s t) (hs : EntriesOK s) : EntriesOK t :=
  hs.of_same (by rw [h.addrStorage]) h.toAddr

theorem keepsTo (h : SameEntries s t) : KeepsTo s t := fun k _ hk => (h.toAddr k).trans hk

end SameEntries

/-- A packet is written to slot `k`, which keeps its destination. -/
theorem setPacket_sameEntries (s : Process) {p : PacketData}
    (hto : p.toAddr = (s.packetQueue.packets k).toAddr) : SameEntries s (s.setPacket k p) := by
  refine ⟨setPacket_addrStorage s k p, fun j => ?_⟩
  by_cases hj : j = k
  · rw [hj, setPacket_self, hto]
  · rw [setPacket_of_ne _ _ hj]

theorem Reserves.sameEntries {size : Nat} {a : Alloc} {room : Bool}
    (h : Reserves s k size a room t) : SameEntries s t := by
  cases h with
  | enough _ => exact SameEntries.of_queue rfl
  | refused _ _ => exact setPacket_sameEntries s rfl
  | granted _ _ _ _ =>
      have hblocks : SameEntries s { s with blocks := s.blocks + 1 } := SameEntries.of_queue rfl
      exact hblocks.trans (setPacket_sameEntries _ rfl)

theorem Stores.sameEntries {data : List UInt8} (h : Stores s k data t) : SameEntries s t := by
  cases h with
  | nothing _ _ => exact setPacket_sameEntries s rfl
  | copied _ _ => exact setPacket_sameEntries s rfl

namespace Addresses

variable {addr : Option Address}

theorem entries (h : Addresses s k addr t) (hs : EntriesOK s) : EntriesOK t := by
  cases h with
  | again _ _ => exact hs.of_same (by simp) fun _ => rfl
  | new hto =>
      refine hs.of_new hto ?_ (by rw [setPacket_self]) fun j hj => by rw [setPacket_of_ne _ _ hj]
      rw [setPacket_addrStorage, List.length_append, List.length_singleton]
  | cleared _ _ => exact hs.of_same (by simp) fun _ => rfl
  | left _ => exact hs

theorem keepsTo (h : Addresses s k addr t) : KeepsTo s t := by
  intro j e hj
  cases h with
  | again _ _ => exact hj
  | new hto =>
      have hjk : j ≠ k := by
        rintro rfl
        rw [hto] at hj
        cases hj
      rw [setPacket_of_ne _ _ hjk]
      exact hj
  | cleared _ _ => exact hj
  | left _ => exact hj

end Addresses

/-! ### The two operations

Both are compositions of steps that have been treated.
-/

/-- **`queue_packet`** keeps the destinations in order, also when it fails. -/
theorem queuePacket_entries {owner : Endpoint} {addr : Option Address} {data : List UInt8}
    {a : Alloc} {r : SendResult} (hs : EntriesOK s)
    (h : s.queuePacket owner addr data a = .ok (r, t)) : EntriesOK t ∧ KeepsTo s t := by
  have hcount : SameEntries s s.counted := ⟨rfl, fun _ => rfl⟩
  cases queuePacket_eq_ok.mp h with
  | failed hroom =>
      have hsame := hcount.trans hroom.sameEntries
      exact ⟨hsame.entries hs, hsame.keepsTo⟩
  | buffered hroom hstore hto =>
      have hsame := (hcount.trans hroom.sameEntries).trans hstore.sameEntries
      exact ⟨(hto.entries (hsame.entries hs)).of_same rfl fun _ => rfl,
        fun j e hj => hto.keepsTo j e (hsame.keepsTo j e hj)⟩

theorem tryFlushQueue_sameEntries {connId : Nat} {outcome : Nat → SendOutcome} {blocked : Bool}
    (h : s.tryFlushQueue connId outcome = .ok (blocked, t)) : SameEntries s t := by
  rcases tryFlushQueue_cases h with rfl | ⟨conn, -, hf⟩
  · exact SameEntries.of_queue rfl
  · refine ⟨hf.addrStorage, fun j => ?_⟩
    rw [hf.packets j]
    split <;> rfl

end Process

open Process

/-! ### Runs

Nothing is promised about the packets, so the invariant has to survive every answer.
-/

/-- The queue of a pool that has been constructed; nothing is promised about its packets. -/
def queueing : Machine Process RingOp Fault where
  start s := ∃ port os, construct port os = .ok s
  admits _ _ := True
  step := RingOp.step

instance (s : Process) (op : RingOp) : Decidable (queueing.admits s op) :=
  inferInstanceAs (Decidable True)

theorem ringOp_entries {s t : Process} {op : RingOp} (hs : EntriesOK s) (h : op.step s = .ok t) :
    EntriesOK t ∧ KeepsTo s t := by
  cases op with
  | queue owner addr data a =>
      obtain ⟨r, hr⟩ := snd_returns.mp h
      exact queuePacket_entries hs hr
  | flush connId outcome =>
      obtain ⟨r, hr⟩ := snd_returns.mp h
      have hsame := tryFlushQueue_sameEntries hr
      exact ⟨hsame.entries hs, hsame.keepsTo⟩
  | elsewhere conns =>
      cases h
      exact ⟨hs.of_same rfl fun _ => rfl, fun _ _ hj => hj⟩

theorem entriesOK_of_reachable {s : Process} (h : queueing.Reachable s) : EntriesOK s := by
  refine h.invariant (I := EntriesOK) ?_ fun _ _ _ hs _ ht => (ringOp_entries hs ht).1
  rintro s ⟨port, os, hs⟩
  exact (StorageOK.of_empty (construct_sameQueue hs).queue).toEntriesOK

/--
**Destinations never dangle.**  In every state that queueing and flushing lead to, with packets
of any size and an allocator that may fail, `addr_storage` has as many entries as slots that
point at one, no more than the constructor reserves; different slots point at different
entries; and no step of the pool makes a slot point elsewhere.
-/
theorem destinations_never_dangle (s : Process) (h : queueing.Reachable s) :
    s.packetQueue.addrStorage.length = s.addressed.card ∧
      s.packetQueue.addrStorage.length ≤ maxBufferedPackets ∧
      (∀ k e, (s.packetQueue.packets k).toAddr = some e →
        e < s.packetQueue.addrStorage.length) ∧
      (∀ j k, j ≠ k → (s.packetQueue.packets j).toAddr ≠ none →
        (s.packetQueue.packets j).toAddr ≠ (s.packetQueue.packets k).toAddr) ∧
      ∀ op t, RingOp.step s op = .ok t →
        t.packetQueue.addrStorage.length ≤ maxBufferedPackets ∧ KeepsTo s t := by
  have hok := entriesOK_of_reachable h
  refine ⟨hok.card_addressed.symm, hok.addrStorage_length, hok.entry, fun j k hjk hj hsame => ?_,
    fun op t ht => ?_⟩
  · obtain ⟨e, he⟩ := Option.ne_none_iff_exists'.mp hj
    exact hjk (hok.distinct j k e he (hsame ▸ he))
  · obtain ⟨hok', hkeep⟩ := ringOp_entries hok ht
    exact ⟨hok'.addrStorage_length, hkeep⟩

/-- An empty packet with an address, one of two bytes without, one that finds no memory, and a
flush: one slot has a destination. -/
theorem destinations_never_dangle_one :
    ∃ s, queueing.Reachable s ∧ s.packetQueue.addrStorage.length = 1 ∧
      s.packetQueue.addrStorage.length = s.addressed.card := by
  obtain ⟨s, hs, hlen⟩ := Machine.exists_reachable (m := queueing) (s := Process.empty)
    ⟨0, { socket := -1 }, rfl⟩
    [.queue ⟨some 0, 3⟩ (some { addrLen := 16 }) [] {},
      .queue ⟨some 0, 3⟩ none [7, 8] {}, .queue ⟨some 0, 3⟩ none [9] { granted := false },
      .flush 0 fun _ => .sent]
    (fun s => decide (s.packetQueue.addrStorage.length = 1)) (by decide +kernel)
  exact ⟨s, hs, of_decide_eq_true hlen, (destinations_never_dangle s hs).1⟩

end Ytl.Udp
