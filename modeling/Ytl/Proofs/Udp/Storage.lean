/-
Where the queue keeps its packets.

A ring slot owns a block for the bytes and, once it has been used for a packet
with an address, an entry of `addr_storage`; both are used again by later packets.
Two slots never share an entry, so writing the destination of one packet leaves
the destinations of the others alone, and the entries never outnumber the slots,
so the vector stays inside the room reserved for it and no entry moves.

Nothing of this is about the order of the packets.  It is what makes the contents of a slot a
function of the last packet that was queued in it, so that the module about the ring can speak
of datagrams instead of blocks and pointers.
-/
import Mathlib.Data.Fintype.Card
import Ytl.Proofs.Udp.Queue

namespace Ytl.Udp.Process

/-! ### Destinations

A slot gets an entry when it is first used with an address and keeps it, also for packets
without one, for which the length of the address is set to 0.  So there are never more entries
than slots.
-/

/-- The slots that have used a destination. -/
def addressed (s : Process) : Finset (Fin maxBufferedPackets) :=
  Finset.univ.filter fun k => (s.packetQueue.packets k).toAddr ≠ none

/-- Every destination is an entry of `addr_storage`, and every entry that of one slot. -/
structure EntriesOK (s : Process) : Prop where
  entry : ∀ k e, (s.packetQueue.packets k).toAddr = some e →
    e < s.packetQueue.addrStorage.length
  distinct : ∀ j k e, (s.packetQueue.packets j).toAddr = some e →
    (s.packetQueue.packets k).toAddr = some e → j = k
  used : ∀ e, e < s.packetQueue.addrStorage.length →
    ∃ k, (s.packetQueue.packets k).toAddr = some e

namespace EntriesOK

variable {s t : Process} {k : Fin maxBufferedPackets}

/-- There are as many entries as slots that point at one. -/
theorem card_addressed (h : EntriesOK s) :
    s.addressed.card = s.packetQueue.addrStorage.length := by
  choose slot hslot using fun e : Fin s.packetQueue.addrStorage.length => h.used e.val e.isLt
  have hinj : Function.Injective slot := by
    intro e e' heq
    have he := hslot e
    rw [heq, hslot e'] at he
    exact Fin.ext (Option.some.inj he).symm
  have himage : s.addressed = Finset.univ.image slot := by
    ext k
    simp only [addressed, Finset.mem_filter, Finset.mem_univ, true_and, Finset.mem_image]
    constructor
    · intro hk
      obtain ⟨e, he⟩ := Option.ne_none_iff_exists'.mp hk
      exact ⟨⟨e, h.entry k e he⟩, h.distinct _ k e (hslot ⟨e, h.entry k e he⟩) he⟩
    · rintro ⟨e, rfl⟩
      rw [hslot e]
      exact Option.some_ne_none _
  rw [himage, Finset.card_image_of_injective _ hinj, Finset.card_univ, Fintype.card_fin]

/-- The entries fit in the room the constructor reserves, so pointers stay valid. -/
theorem addrStorage_length (h : EntriesOK s) :
    s.packetQueue.addrStorage.length ≤ maxBufferedPackets := by
  rw [← h.card_addressed]
  exact (Finset.card_le_univ _).trans_eq (Fintype.card_fin _)

/-- The destinations are where they were. -/
theorem of_same (h : EntriesOK s)
    (hlen : t.packetQueue.addrStorage.length = s.packetQueue.addrStorage.length)
    (hto : ∀ k, (t.packetQueue.packets k).toAddr = (s.packetQueue.packets k).toAddr) :
    EntriesOK t := by
  refine ⟨fun k e he => ?_, fun j k e hj hk => ?_, fun e he => ?_⟩
  · rw [hlen]
    exact h.entry k e (by rw [← hto k]; exact he)
  · exact h.distinct j k e (by rw [← hto j]; exact hj) (by rw [← hto k]; exact hk)
  · rw [hlen] at he
    obtain ⟨k, hk⟩ := h.used e he
    exact ⟨k, by rw [hto k]; exact hk⟩

/-- A new entry behind the others, for a slot that had none. -/
theorem of_new (h : EntriesOK s) (hnone : (s.packetQueue.packets k).toAddr = none)
    (hlen : t.packetQueue.addrStorage.length = s.packetQueue.addrStorage.length + 1)
    (hself : (t.packetQueue.packets k).toAddr = some s.packetQueue.addrStorage.length)
    (hothers : ∀ j, j ≠ k →
      (t.packetQueue.packets j).toAddr = (s.packetQueue.packets j).toAddr) :
    EntriesOK t := by
  -- a slot has the new entry, or the one it had; the old ones lie below the new one
  have hto : ∀ j e, (t.packetQueue.packets j).toAddr = some e ↔
      j = k ∧ e = s.packetQueue.addrStorage.length ∨
        (s.packetQueue.packets j).toAddr = some e := by
    intro j e
    by_cases hjk : j = k
    · rw [hjk, hself, hnone]
      simp [eq_comm]
    · rw [hothers j hjk]
      simp [hjk]
  refine ⟨fun j e he => ?_, fun i j e hi hj => ?_, fun e he => ?_⟩
  · rcases (hto j e).mp he with ⟨-, hnew⟩ | hold
    · omega
    · have := h.entry j e hold
      omega
  · rcases (hto i e).mp hi with ⟨hik, hnew⟩ | hold
    · rcases (hto j e).mp hj with ⟨hjk, -⟩ | hold
      · rw [hik, hjk]
      · have := h.entry j e hold
        omega
    · rcases (hto j e).mp hj with ⟨-, hnew⟩ | hold'
      · have := h.entry i e hold
        omega
      · exact h.distinct i j e hold hold'
  · by_cases hnew : e = s.packetQueue.addrStorage.length
    · exact ⟨k, (hto k e).mpr (Or.inl ⟨rfl, hnew⟩)⟩
    · obtain ⟨j, hj⟩ := h.used e (by omega)
      exact ⟨j, (hto j e).mpr (Or.inr hj)⟩

end EntriesOK

/-! ### Blocks

With the blocks it is the whole of what a slot owns.
-/

/-- The slots' blocks are as large as they are said to be, and every slot points at
an entry of its own. -/
structure StorageOK (s : Process) : Prop extends EntriesOK s where
  room : ∀ k, (s.packetQueue.packets k).maxLen ≤
    (((s.packetQueue.packets k).data.map Block.bytes).getD []).length

theorem StorageOK.of_empty {s : Process} (h : s.packetQueue = {}) : StorageOK s := by
  refine ⟨⟨fun k e he => ?_, fun j k e he => ?_, fun e he => ?_⟩, fun k => ?_⟩
  · simp [h] at he
  · simp [h] at he
  · simp [h] at he
  · simp [h]

/-- The destinations are where they were, and the blocks have room. -/
theorem StorageOK.of_sameAddrs {s s' : Process} (h : StorageOK s)
    (haddr : s'.packetQueue.addrStorage = s.packetQueue.addrStorage)
    (hto : ∀ k, (s'.packetQueue.packets k).toAddr = (s.packetQueue.packets k).toAddr)
    (hroom : ∀ k, (s'.packetQueue.packets k).maxLen ≤
      (((s'.packetQueue.packets k).data.map Block.bytes).getD []).length) :
    StorageOK s' :=
  ⟨h.toEntriesOK.of_same (by rw [haddr]) hto, hroom⟩

/-- Only the connections and the record of calls differ, and packets may have been
marked as sent. -/
theorem StorageOK.of_packets {s s' : Process} (h : StorageOK s)
    (haddr : s'.packetQueue.addrStorage = s.packetQueue.addrStorage)
    (hpack : ∀ k, ∃ n, s'.packetQueue.packets k = { s.packetQueue.packets k with len := n }) :
    StorageOK s' := by
  refine h.of_sameAddrs haddr (fun k => ?_) fun k => ?_
  · obtain ⟨n, hn⟩ := hpack k
    rw [hn]
  · obtain ⟨n, hn⟩ := hpack k
    rw [hn]
    exact h.room k

/-! ### The bytes

Room is made first and the bytes are copied then, and each of the two steps leaves the other
slots alone.
-/

section Bytes

variable {s : Process} {k : Fin maxBufferedPackets} {data : List UInt8} {a : Alloc}

/-- Slot `k` has a block for `size` bytes, and all else is as before. -/
structure Reserved (s : Process) (k : Fin maxBufferedPackets) (size : Nat) (t : Process) :
    Prop where
  block : ∃ b, (t.packetQueue.packets k).data = some b ∧ size ≤ b.bytes.length ∧
    (t.packetQueue.packets k).maxLen ≤ b.bytes.length
  toAddr : (t.packetQueue.packets k).toAddr = (s.packetQueue.packets k).toAddr
  others : ∀ j, j ≠ k → t.packetQueue.packets j = s.packetQueue.packets j
  addrStorage : t.packetQueue.addrStorage = s.packetQueue.addrStorage
  length : t.packetQueue.length = s.packetQueue.length

theorem reserves_spec (h : StorageOK s) (ha : a.granted = true) {size : Nat}
    (hpos : 0 < size) (hsize : size < 2 ^ 16) :
    ∃ t, Reserves s k size a true t ∧ Reserved s k size t := by
  by_cases hlt : (s.packetQueue.packets k).maxLen < size
  · -- the block is replaced by one of the right size
    obtain ⟨b, hb, hid, hlen⟩ := realloc_granted s (s.packetQueue.packets k).data size ha
    refine ⟨_, .granted hlt hb hid hlen,
      ⟨b, by rw [setPacket_self], by omega, ?_⟩, by rw [setPacket_self], ?_, rfl, rfl⟩
    · rw [setPacket_self]
      show size % 2 ^ 16 ≤ b.bytes.length
      rw [Nat.mod_eq_of_lt hsize, hlen]
    · intro j hj
      rw [setPacket_of_ne _ _ hj]
  · -- the block is large enough, so there is one
    have hroom := h.room k
    cases hdata : (s.packetQueue.packets k).data with
    | none =>
        rw [hdata] at hroom
        simp at hroom
        omega
    | some b =>
        rw [hdata] at hroom
        have hb : (s.packetQueue.packets k).maxLen ≤ b.bytes.length := by simpa using hroom
        exact ⟨s, .enough hlt, ⟨b, hdata, by omega, hb⟩, rfl,
          fun _ _ => rfl, rfl, rfl⟩

/-- The bytes are in slot `k`, and all else is as before. -/
structure Stored (s : Process) (k : Fin maxBufferedPackets) (data : List UInt8) (t : Process) :
    Prop where
  payload : (t.packetQueue.packets k).payload = data
  len : (t.packetQueue.packets k).len = data.length
  room : (t.packetQueue.packets k).maxLen ≤
    (((t.packetQueue.packets k).data.map Block.bytes).getD []).length
  toAddr : (t.packetQueue.packets k).toAddr = (s.packetQueue.packets k).toAddr
  others : ∀ j, j ≠ k → t.packetQueue.packets j = s.packetQueue.packets j
  addrStorage : t.packetQueue.addrStorage = s.packetQueue.addrStorage
  length : t.packetQueue.length = s.packetQueue.length

theorem stores_spec {t : Process} (hr : Reserved s k data.length t)
    (hsize : data.length < 2 ^ 16) :
    ∃ u, Stores t k data u ∧ Stored s k data u := by
  obtain ⟨b, hb, hlen, hmax⟩ := hr.block
  refine ⟨_, .copied hb hlen, ?_, ?_, ?_, ?_, ?_, hr.addrStorage, hr.length⟩
  · rw [setPacket_self]
    have hcut : data.length % 2 ^ 16 = data.length := Nat.mod_eq_of_lt hsize
    simp only [PacketData.payload, hcut]
    simp
  · rw [setPacket_self]
    exact Nat.mod_eq_of_lt hsize
  · rw [setPacket_self]
    simp
    omega
  · rw [setPacket_self]
    exact hr.toAddr
  · intro j hj
    rw [setPacket_of_ne _ _ hj]
    exact hr.others j hj

/-- The slot's own block has room, so the storage is still in order. -/
theorem Stored.storage {t : Process} (hst : Stored s k data t) (h : StorageOK s) :
    StorageOK t := by
  refine h.of_sameAddrs hst.addrStorage (fun j => ?_) fun j => ?_
  · by_cases hj : j = k
    · rw [hj]
      exact hst.toAddr
    · rw [hst.others j hj]
  · by_cases hj : j = k
    · rw [hj]
      exact hst.room
    · rw [hst.others j hj]
      exact h.room j

end Bytes

/-! ### The destination

Writing an entry changes the destination of every slot that points at it, and that is one
slot.
-/

section Destination

variable {s t : Process} {k : Fin maxBufferedPackets} {addr : Option Address}

/-- Slot `k` goes to `addr`, the other slots where they went before. -/
structure Addressed (s : Process) (k : Fin maxBufferedPackets) (addr : Option Address)
    (t : Process) : Prop where
  storage : StorageOK t
  self : ∃ e, t.packetQueue.packets k = { s.packetQueue.packets k with toAddr := e }
  others : ∀ j, j ≠ k → t.packetQueue.packets j = s.packetQueue.packets j
  dest : t.destOf (t.packetQueue.packets k) = addr
  destOthers : ∀ j, j ≠ k →
    t.destOf (t.packetQueue.packets j) = s.destOf (s.packetQueue.packets j)
  length : t.packetQueue.length = s.packetQueue.length

theorem destOf_of_toAddr {packet : PacketData} {e : Nat} (h : packet.toAddr = some e) :
    s.destOf packet = (s.packetQueue.addrStorage[e]?).filter fun a => 0 < a.addrLen := by
  unfold destOf
  rw [h]
  rfl

theorem destOf_of_none {packet : PacketData} (h : packet.toAddr = none) :
    s.destOf packet = none := by
  unfold destOf
  rw [h]
  rfl

/-- Writing the entry of one slot. -/
theorem set_addressed (h : StorageOK s) {e : Nat}
    (he : (s.packetQueue.packets k).toAddr = some e) {x : Address}
    (hx : ((some x).filter fun a => decide (0 < a.addrLen)) = addr) :
    Addressed s k addr
      { s with packetQueue.addrStorage := s.packetQueue.addrStorage.set e x } := by
  have hlt : e < s.packetQueue.addrStorage.length := h.entry k e he
  refine ⟨⟨⟨?_, h.distinct, ?_⟩, h.room⟩, ⟨some e, ?_⟩, fun _ _ => rfl, ?_, ?_, rfl⟩
  · intro j e' he'
    have := h.entry j e' he'
    simpa using this
  · intro e' he'
    exact h.used e' (by simpa using he')
  · rw [← he]
  · rw [destOf_of_toAddr he]
    simp [hlt, hx]
  · intro j hj
    -- another slot has another entry
    cases hto : (s.packetQueue.packets j).toAddr with
    | none => rw [destOf_of_none hto, destOf_of_none hto]
    | some e' =>
        have hne : e ≠ e' := fun hc => hj (h.distinct j k e' hto (hc ▸ he))
        rw [destOf_of_toAddr hto, destOf_of_toAddr hto]
        simp [List.getElem?_set_ne hne]

/-- A new entry for a slot that had none. -/
theorem new_addressed (h : StorageOK s) (hnone : (s.packetQueue.packets k).toAddr = none)
    {x : Address} (hx : ((some x).filter fun a => decide (0 < a.addrLen)) = addr) :
    Addressed s k addr
      ({ s with packetQueue.addrStorage := s.packetQueue.addrStorage ++ [x] }.setPacket k
        { s.packetQueue.packets k with toAddr := some s.packetQueue.addrStorage.length }) := by
  refine ⟨⟨h.toEntriesOK.of_new hnone ?_ (by rw [setPacket_self]) fun j hj => ?_,
    fun j => ?_⟩, ⟨_, setPacket_self _ _ _⟩, fun j hj => setPacket_of_ne _ _ hj, ?_, ?_, rfl⟩
  · rw [setPacket_addrStorage, List.length_append, List.length_singleton]
  · rw [setPacket_of_ne _ _ hj]
  · by_cases hjk : j = k
    · rw [hjk, setPacket_self]
      exact h.room k
    · rw [setPacket_of_ne _ _ hjk]
      exact h.room j
  · rw [destOf_of_toAddr (by rw [setPacket_self]), setPacket_addrStorage,
      List.getElem?_concat_length]
    exact hx
  · intro j hj
    rw [setPacket_of_ne _ _ hj]
    -- the new entry is behind all the old ones
    cases hto : (s.packetQueue.packets j).toAddr with
    | none => rw [destOf_of_none hto, destOf_of_none hto]
    | some e =>
        rw [destOf_of_toAddr hto, destOf_of_toAddr hto, setPacket_addrStorage,
          List.getElem?_append_left (h.entry j e hto)]

/-- **The destination of one packet.**  An address that is given has a length. -/
theorem addresses_spec (h : StorageOK s) (hvalid : ∀ a, addr = some a → 0 < a.addrLen) :
    ∃ t, Addresses s k addr t ∧ Addressed s k addr t := by
  cases addr with
  | some a =>
      have ha : ((some a).filter fun a => decide (0 < a.addrLen)) = some a := by
        simp [Option.filter, hvalid a rfl]
      cases hto : (s.packetQueue.packets k).toAddr with
      | some e => exact ⟨_, .again hto (h.entry k e hto), set_addressed h hto ha⟩
      | none => exact ⟨_, .new hto, new_addressed h hto ha⟩
  | none =>
      cases hto : (s.packetQueue.packets k).toAddr with
      | some e =>
          have hx := List.getElem?_eq_getElem (h.entry k e hto)
          exact ⟨_, .cleared hto hx, set_addressed h hto (by simp [Option.filter])⟩
      | none =>
          exact ⟨s, .left hto, h, ⟨none, by rw [← hto]⟩, fun _ _ => rfl, destOf_of_none hto,
            fun _ _ => rfl, rfl⟩

end Destination

end Ytl.Udp.Process
