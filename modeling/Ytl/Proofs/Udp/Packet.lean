/-
What one call of `queue_packet` does.

It counts the packet, makes room for it in the slot whose turn it is, copies the bytes there
and writes the destination.  Each of these three steps has a predicate with a constructor for
every way it returns, with what is known there and what has been written, and `Queues` puts
them together.

The steps return exactly as their predicates say.  So the functions are unfolded here and
nowhere else: whatever is to be known of the queue after a call is read off the constructors.
-/
import Ytl.Proofs.Udp.Close

namespace Ytl.Udp.Process

variable {s t : Process} {k : Fin maxBufferedPackets} {size : Nat} {data : List UInt8}
  {addr : Option Address} {owner : Endpoint} {a : Alloc} {r : SendResult}

/-! ### Slots of the ring

A write to one slot leaves the others, and the table of addresses, as they are.
-/

@[simp] theorem setPacket_self (s : Process) (k : Fin maxBufferedPackets) (p : PacketData) :
    (s.setPacket k p).packetQueue.packets k = p := Function.update_self ..

@[simp] theorem setPacket_of_ne (s : Process) {j k : Fin maxBufferedPackets} (p : PacketData)
    (h : j ≠ k) : (s.setPacket k p).packetQueue.packets j = s.packetQueue.packets j :=
  Function.update_of_ne h _ _

@[simp] theorem setPacket_addrStorage (s : Process) (k : Fin maxBufferedPackets)
    (p : PacketData) :
    (s.setPacket k p).packetQueue.addrStorage = s.packetQueue.addrStorage := rfl

/-! ### Room

The code asks for a block only when the size that was noted is too small, and notes what
`realloc` returns before it looks at it.
-/

theorem realloc_granted (s : Process) (old : Option Block) (size : Nat)
    (ha : a.granted = true) :
    ∃ b, s.realloc old size a = (some b, { s with blocks := s.blocks + 1 }) ∧
      b.id = s.blocks ∧ b.bytes.length = size := by
  unfold realloc malloc
  rw [if_pos ha]
  exact ⟨_, rfl, rfl, by simp⟩

theorem realloc_refused (s : Process) (old : Option Block) (size : Nat)
    (ha : a.granted = false) : s.realloc old size a = (none, s) := by
  unfold realloc malloc
  rw [if_neg (by simp [ha])]

/-- The slot has room already, or the allocator is asked for a block and answers. -/
inductive Reserves (s : Process) (k : Fin maxBufferedPackets) (size : Nat) (a : Alloc) :
    Bool → Process → Prop
  | enough (hle : ¬ (s.packetQueue.packets k).maxLen < size) : Reserves s k size a true s
  | refused (hlt : (s.packetQueue.packets k).maxLen < size) (ha : a.granted = false) :
      Reserves s k size a false (s.setPacket k { s.packetQueue.packets k with data := none })
  | granted {b : Block} (hlt : (s.packetQueue.packets k).maxLen < size)
      (hb : s.realloc (s.packetQueue.packets k).data size a =
        (some b, { s with blocks := s.blocks + 1 }))
      (hid : b.id = s.blocks) (hlen : b.bytes.length = size) :
      Reserves s k size a true ({ s with blocks := s.blocks + 1 }.setPacket k
        { s.packetQueue.packets k with data := some b, maxLen := size % 2 ^ 16 })

theorem reservePacket_eq {room : Bool} :
    s.reservePacket k size a = (room, t) ↔ Reserves s k size a room t := by
  have hsome : ∀ {b : Block}, (s.packetQueue.packets k).maxLen < size →
      s.realloc (s.packetQueue.packets k).data size a =
        (some b, { s with blocks := s.blocks + 1 }) →
      s.reservePacket k size a = (true, { s with blocks := s.blocks + 1 }.setPacket k
        { s.packetQueue.packets k with data := some b, maxLen := size % 2 ^ 16 }) := by
    intro b hlt hb
    unfold reservePacket
    dsimp only
    rw [if_pos hlt, hb]
    rfl
  have hnone : (s.packetQueue.packets k).maxLen < size → a.granted = false →
      s.reservePacket k size a =
        (false, s.setPacket k { s.packetQueue.packets k with data := none }) := by
    intro hlt ha
    unfold reservePacket
    dsimp only
    rw [if_pos hlt, realloc_refused s _ size ha]
    rfl
  have hsame : ¬ (s.packetQueue.packets k).maxLen < size →
      s.reservePacket k size a = (true, s) := fun hle => if_neg hle
  constructor
  · intro h
    by_cases hlt : (s.packetQueue.packets k).maxLen < size
    · cases ha : a.granted with
      | false =>
          rw [hnone hlt ha] at h
          cases h
          exact .refused hlt ha
      | true =>
          obtain ⟨b, hb, hid, hlen⟩ := realloc_granted s (s.packetQueue.packets k).data size ha
          rw [hsome hlt hb] at h
          cases h
          exact .granted hlt hb hid hlen
    · rw [hsame hlt] at h
      cases h
      exact .enough hlt
  · intro h
    cases h with
    | enough hle => exact hsame hle
    | refused hlt ha => exact hnone hlt ha
    | granted hlt hb _ _ => exact hsome hlt hb

/-! ### The bytes

An empty packet may be stored in a slot without a block, because nothing is copied then.
-/

/-- The bytes are copied into the block of the slot; without one there must be none. -/
inductive Stores (s : Process) (k : Fin maxBufferedPackets) (data : List UInt8) :
    Process → Prop
  | nothing (hdata : (s.packetQueue.packets k).data = none) (hnil : data = []) :
      Stores s k data (s.setPacket k { s.packetQueue.packets k with len := 0 })
  | copied {b : Block} (hdata : (s.packetQueue.packets k).data = some b)
      (hle : data.length ≤ b.bytes.length) :
      Stores s k data (s.setPacket k { s.packetQueue.packets k with
        data := some { b with bytes := data ++ b.bytes.drop data.length }
        len := data.length % 2 ^ 16 })

theorem storePacket_eq_ok : s.storePacket k data = .ok t ↔ Stores s k data t := by
  unfold storePacket
  dsimp only
  constructor
  · intro h
    split at h
    · rename_i hdata
      split at h
      · rename_i hnil
        cases h
        exact .nothing hdata (List.eq_nil_of_length_eq_zero hnil)
      · cases h
    · rename_i b hdata
      split at h
      · rename_i hle
        cases h
        exact .copied hdata hle
      · cases h
  · intro h
    cases h with
    | nothing hdata hnil => simp [hdata, hnil, pure_is_ok]
    | copied hdata hle =>
        rw [hdata]
        exact if_pos hle

/-! ### The destination

An entry is made once for a slot and written again after that; a packet without an address has
the length of the old one set to 0.
-/

/-- The entry the slot points at is written, or a new one is made for it. -/
inductive Addresses (s : Process) (k : Fin maxBufferedPackets) : Option Address → Process → Prop
  | again {e : Nat} {x : Address} (hto : (s.packetQueue.packets k).toAddr = some e)
      (he : e < s.packetQueue.addrStorage.length) :
      Addresses s k (some x)
        { s with packetQueue.addrStorage := s.packetQueue.addrStorage.set e x }
  | new {x : Address} (hto : (s.packetQueue.packets k).toAddr = none) :
      Addresses s k (some x)
        ({ s with packetQueue.addrStorage := s.packetQueue.addrStorage ++ [x] }.setPacket k
          { s.packetQueue.packets k with toAddr := some s.packetQueue.addrStorage.length })
  | cleared {e : Nat} {x : Address} (hto : (s.packetQueue.packets k).toAddr = some e)
      (hx : s.packetQueue.addrStorage[e]? = some x) :
      Addresses s k none { s with packetQueue.addrStorage :=
        s.packetQueue.addrStorage.set e { x with addrLen := 0 } }
  | left (hto : (s.packetQueue.packets k).toAddr = none) : Addresses s k none s

theorem writeAddr_eq_ok {e : Nat} {f : Address → Address} :
    s.writeAddr e f = .ok t ↔ ∃ x, s.packetQueue.addrStorage[e]? = some x ∧
      t = { s with packetQueue.addrStorage := s.packetQueue.addrStorage.set e (f x) } := by
  unfold writeAddr
  cases s.packetQueue.addrStorage[e]? with
  | none => simp
  | some x =>
      constructor
      · intro h
        exact ⟨x, rfl, (Except.ok.inj h).symm⟩
      · rintro ⟨x', hx, rfl⟩
        rw [← Option.some.inj hx]
        rfl

theorem addressPacket_eq_ok : s.addressPacket k addr = .ok t ↔ Addresses s k addr t := by
  have hnew : ∀ x : Address,
      (({ s with packetQueue.addrStorage :=
        s.packetQueue.addrStorage ++ [({} : Address)] } : Process).setPacket k
          { s.packetQueue.packets k with
            toAddr := some s.packetQueue.addrStorage.length }).writeAddr
        s.packetQueue.addrStorage.length (fun _ => x) =
      .ok (({ s with packetQueue.addrStorage :=
        s.packetQueue.addrStorage ++ [x] } : Process).setPacket k
          { s.packetQueue.packets k with toAddr := some s.packetQueue.addrStorage.length }) := by
    intro x
    refine writeAddr_eq_ok.mpr ⟨{}, ?_, ?_⟩
    · rw [setPacket_addrStorage, List.getElem?_concat_length]
    · unfold setPacket
      simp
  unfold addressPacket
  dsimp only
  constructor
  · intro h
    split at h
    · rename_i x e hto
      obtain ⟨y, hy, rfl⟩ := writeAddr_eq_ok.mp h
      exact .again hto (List.getElem?_eq_some_iff.mp hy).1
    · rename_i x hto
      rw [hnew x] at h
      cases h
      exact .new hto
    · rename_i e hto
      obtain ⟨x, hx, rfl⟩ := writeAddr_eq_ok.mp h
      exact .cleared hto hx
    · rename_i hto
      cases h
      exact .left hto
  · intro h
    cases h with
    | again hto he =>
        rw [hto]
        exact writeAddr_eq_ok.mpr ⟨_, List.getElem?_eq_getElem he, rfl⟩
    | new hto =>
        rw [hto]
        exact hnew _
    | cleared hto hx =>
        rw [hto]
        exact writeAddr_eq_ok.mpr ⟨_, hx, rfl⟩
    | left hto =>
        rw [hto]
        rfl

/-! ### The whole call

`length` is counted up at the start, so also for a packet that is not taken in the end.
-/

/-- The packet is counted first, in 32 bits. -/
def counted (s : Process) : Process :=
  { s with packetQueue.length := (s.packetQueue.length + 1) % 2 ^ 32 }

/-- The packet is not taken for lack of room, or it goes through the three steps. -/
inductive Queues (s : Process) (owner : Endpoint) (addr : Option Address) (data : List UInt8)
    (a : Alloc) : SendResult → Process → Prop
  | failed {t : Process}
      (hroom : Reserves s.counted (ringSlot s.packetQueue.length) data.length a false t) :
      Queues s owner addr data a .failed t
  | buffered {t u v : Process}
      (hroom : Reserves s.counted (ringSlot s.packetQueue.length) data.length a true t)
      (hstore : Stores t (ringSlot s.packetQueue.length) data u)
      (hto : Addresses u (ringSlot s.packetQueue.length) addr v) :
      Queues s owner addr data a .buffered
        (v.noteQueued (ringSlot s.packetQueue.length) ⟨owner, addr, data⟩)

/-- **What a call has done.** -/
theorem queuePacket_eq_ok :
    s.queuePacket owner addr data a = .ok (r, t) ↔ Queues s owner addr data a r t := by
  unfold queuePacket
  dsimp only
  constructor
  · intro h
    obtain ⟨⟨room, t⟩, hroom⟩ : ∃ p, s.counted.reservePacket (ringSlot s.packetQueue.length)
        data.length a = p := ⟨_, rfl⟩
    rw [← counted, hroom] at h
    cases room with
    | false =>
        cases h
        exact .failed (reservePacket_eq.mp hroom)
    | true =>
        obtain ⟨u, hu, h⟩ := bind_returns.mp h
        obtain ⟨v, hv, h⟩ := bind_returns.mp h
        cases h
        exact .buffered (reservePacket_eq.mp hroom) (storePacket_eq_ok.mp hu)
          (addressPacket_eq_ok.mp hv)
  · intro h
    cases h with
    | failed hroom =>
        rw [← counted, reservePacket_eq.mpr hroom]
        rfl
    | buffered hroom hstore hto =>
        rw [← counted, reservePacket_eq.mpr hroom]
        simp only [Bool.not_true, Bool.false_eq_true, if_false]
        rw [storePacket_eq_ok.mpr hstore, bind_of_ok, addressPacket_eq_ok.mpr hto, bind_of_ok]
        rfl

end Ytl.Udp.Process
