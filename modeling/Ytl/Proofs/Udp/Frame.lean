/-
What sending and receiving leave alone.

None of these operations takes or returns a slot: the free list, the descriptors
and the `state` of every connection are as before, whatever the operating system
answers.  Sending writes nothing to a connection but an error, and no operation clears
one.  The relations are transitive, so each loop inherits them from its round.

Two relations are used, one stronger than the other.  `SameSlots` is what the free list and
the walks along descriptors depend on.  `OnlyErrors` says that the connections are the same
but for errors they may have got, which is all that sending can do to them; receiving also
writes the data of a connection.  Both are read off the exits and the steps of a call, as the
modules about these have them, and no function of the code is unfolded for them but
`init_socket`.
-/
import Ytl.Proofs.Udp.Flush
import Ytl.Proofs.Udp.Packet
import Ytl.Proofs.Udp.Send

namespace Ytl.Udp.Process

/-! ### The two relations -/

/-- The slots and their descriptors are the same in both states. -/
structure SameSlots (s s' : Process) : Prop where
  freeIndices : s'.freeIndices = s.freeIndices
  state : ∀ i, (s'.conns i).state = (s.conns i).state
  socket : ∀ i, (s'.conns i).socket = (s.conns i).socket

namespace SameSlots

theorem refl (s : Process) : SameSlots s s := ⟨rfl, fun _ => rfl, fun _ => rfl⟩

theorem trans {s t u : Process} (h : SameSlots s t) (h' : SameSlots t u) : SameSlots s u :=
  ⟨h'.freeIndices.trans h.freeIndices, fun i => (h'.state i).trans (h.state i),
    fun i => (h'.socket i).trans (h.socket i)⟩

/-- A record of what was sent or queued does not matter here. -/
theorem of_record {s t u : Process} (h : SameSlots t u) (hc : t.conns = s.conns)
    (hf : t.freeIndices = s.freeIndices) : SameSlots s u := by
  refine ⟨h.freeIndices.trans hf, fun i => ?_, fun i => ?_⟩
  · rw [h.state i, hc]
  · rw [h.socket i, hc]

/-- Writing a connection without touching its `state` and `socket`. -/
theorem setConn (s : Process) (i : Fin maxConnections) {c : ConnectionData}
    (hstate : c.state = (s.conns i).state) (hsock : c.socket = (s.conns i).socket) :
    SameSlots s (s.setConn i c) := by
  refine ⟨rfl, fun j => ?_, fun j => ?_⟩
  · by_cases hj : j = i
    · rw [hj, setConn_self, hstate]
    · rw [setConn_of_ne _ _ hj]
  · by_cases hj : j = i
    · rw [hj, setConn_self, hsock]
    · rw [setConn_of_ne _ _ hj]

theorem setError (s : Process) (i : Fin maxConnections) (e : Error) :
    SameSlots s (s.setError i e) := setConn s i rfl rfl

end SameSlots

/-- The connections have the same fields, but for an error that one may have got. -/
structure OnlyErrors (s s' : Process) : Prop where
  freeIndices : s'.freeIndices = s.freeIndices
  conns : ∀ i, ∃ e, s'.conns i = { s.conns i with error := e } ∧
    ((s.conns i).error ≠ .none → e ≠ .none)

namespace OnlyErrors

theorem of_conns {s s' : Process} (hc : s'.conns = s.conns)
    (hf : s'.freeIndices = s.freeIndices) : OnlyErrors s s' :=
  ⟨hf, fun i => ⟨(s.conns i).error, by rw [hc], id⟩⟩

theorem refl (s : Process) : OnlyErrors s s := of_conns rfl rfl

theorem trans {s t u : Process} (h : OnlyErrors s t) (h' : OnlyErrors t u) :
    OnlyErrors s u := by
  refine ⟨h'.freeIndices.trans h.freeIndices, fun i => ?_⟩
  obtain ⟨e, he, hkeep⟩ := h.conns i
  obtain ⟨e', he', hkeep'⟩ := h'.conns i
  rw [he] at he' hkeep'
  exact ⟨e', he', fun hne => hkeep' (hkeep hne)⟩

/-- A record of what was sent or queued does not matter here. -/
theorem of_record {s t u : Process} (h : OnlyErrors t u) (hc : t.conns = s.conns)
    (hf : t.freeIndices = s.freeIndices) : OnlyErrors s u := (of_conns hc hf).trans h

theorem setError (s : Process) (i : Fin maxConnections) {e : Error} (he : e ≠ .none) :
    OnlyErrors s (s.setError i e) := by
  refine ⟨rfl, fun j => ?_⟩
  by_cases hj : j = i
  · rw [hj]
    exact ⟨e, setConn_self s i _, fun _ => he⟩
  · exact ⟨(s.conns j).error, setConn_of_ne _ _ hj, id⟩

theorem sameSlots {s s' : Process} (h : OnlyErrors s s') : SameSlots s s' := by
  refine ⟨h.freeIndices, fun i => ?_, fun i => ?_⟩
  · obtain ⟨e, he, -⟩ := h.conns i
    rw [he]
  · obtain ⟨e, he, -⟩ := h.conns i
    rw [he]

end OnlyErrors

/-! ### The queue

A call of `queue_packet` writes to one slot of the ring and to the table of addresses.
Whatever is to be shown of it for a transitive relation is one obligation for each kind of
write, which is what `QueueSteps` collects.
-/

/-- A flush sets an error on the connection it is called for, or none. -/
theorem Flushed.onlyErrors {s s' : Process} {conn : Fin maxConnections}
    {outcome : Nat → SendOutcome} {ks : List (Fin maxBufferedPackets)} {blocked : Bool}
    (h : Flushed s conn outcome ks blocked s') : OnlyErrors s s' := by
  have hfree : s'.freeIndices = s.freeIndices := by rw [h.rest]
  have hends := h.ends
  unfold FlushEnds at hends
  split at hends
  · exact OnlyErrors.of_conns hends.2.1 hfree
  · exact OnlyErrors.of_conns hends.2.1 hfree
  · exact (OnlyErrors.setError s conn (e := .sendFailed) nofun).trans
      (OnlyErrors.of_conns hends.2.1 hfree)

theorem tryFlushQueue_onlyErrors {s s' : Process} {connId : Nat} {b : Bool}
    {outcome : Nat → SendOutcome} (h : s.tryFlushQueue connId outcome = .ok (b, s')) :
    OnlyErrors s s' := by
  rcases tryFlushQueue_cases h with rfl | ⟨conn, -, hf⟩
  · exact OnlyErrors.refl s'
  · exact hf.onlyErrors

/-- A relation that holds across each write of `queue_packet` to the ring slot `k`. -/
structure QueueSteps (k : Fin maxBufferedPackets) (R : Process → Process → Prop) : Prop where
  refl : ∀ s, R s s
  trans : ∀ s t u, R s t → R t u → R s u
  blocks : ∀ s n, R s { s with blocks := n }
  packet : ∀ s p, R s (s.setPacket k p)
  addrs : ∀ s l, R s { s with packetQueue.addrStorage := l }

section QueueSteps

variable {k : Fin maxBufferedPackets} {R : Process → Process → Prop} {s t : Process}

theorem Reserves.steps (hR : QueueSteps k R) {size : Nat} {a : Alloc} {room : Bool}
    (h : Reserves s k size a room t) : R s t := by
  cases h with
  | enough _ => exact hR.refl s
  | refused _ _ => exact hR.packet s _
  | granted _ _ _ _ => exact hR.trans _ _ _ (hR.blocks s _) (hR.packet _ _)

theorem Stores.steps (hR : QueueSteps k R) {data : List UInt8} (h : Stores s k data t) :
    R s t := by
  cases h with
  | nothing _ _ => exact hR.packet s _
  | copied _ _ => exact hR.packet s _

theorem Addresses.steps (hR : QueueSteps k R) {addr : Option Address}
    (h : Addresses s k addr t) : R s t := by
  cases h with
  | again _ _ => exact hR.addrs s _
  | new _ => exact hR.trans _ _ _ (hR.addrs s _) (hR.packet _ _)
  | cleared _ _ => exact hR.addrs s _
  | left _ => exact hR.refl s

end QueueSteps

/-- `queue_packet` counts the packet, writes to its slot, and has it recorded if it is taken. -/
theorem queuePacket_steps {s s' : Process} {R : Process → Process → Prop}
    (hR : QueueSteps (ringSlot s.packetQueue.length) R) {owner : Endpoint}
    {addr : Option Address} {data : List UInt8} {a : Alloc} {r : SendResult}
    (h : s.queuePacket owner addr data a = .ok (r, s')) :
    ∃ t, R s.counted t ∧
      (s' = t ∨ ∃ d, s' = t.noteQueued (ringSlot s.packetQueue.length) d) := by
  cases queuePacket_eq_ok.mp h with
  | failed hroom => exact ⟨s', hroom.steps hR, Or.inl rfl⟩
  | @buffered t u v hroom hstore hto =>
      exact ⟨v, hR.trans _ _ _ (hroom.steps hR)
        (hR.trans _ _ _ (hstore.steps hR) (hto.steps hR)), Or.inr ⟨_, rfl⟩⟩

theorem OnlyErrors.queueSteps (k : Fin maxBufferedPackets) : QueueSteps k OnlyErrors :=
  ⟨OnlyErrors.refl, fun _ _ _ => OnlyErrors.trans, fun _ _ => OnlyErrors.of_conns rfl rfl,
    fun _ _ => OnlyErrors.of_conns rfl rfl, fun _ _ => OnlyErrors.of_conns rfl rfl⟩

theorem queuePacket_onlyErrors {s s' : Process} {owner : Endpoint} {addr : Option Address}
    {data : List UInt8} {a : Alloc} {r : SendResult}
    (h : s.queuePacket owner addr data a = .ok (r, s')) : OnlyErrors s s' := by
  obtain ⟨t, ht, hs'⟩ := queuePacket_steps (OnlyErrors.queueSteps _) h
  have herr : OnlyErrors s t := ht.of_record rfl rfl
  rcases hs' with rfl | ⟨d, rfl⟩
  · exact herr
  · exact herr.trans (OnlyErrors.of_conns rfl rfl)

/-! ### Sending -/

theorem sendVia_onlyErrors {s s' : Process} {connId : Nat} {addr : Option Address}
    {data : List UInt8} {os : SendAnswers} {r : SendResult}
    (h : s.sendVia connId addr data os = .ok (r, s')) : OnlyErrors s s' := by
  obtain ⟨conn, -, hexit⟩ := sendVia_sends h
  cases hexit with
  | skipped _ => exact OnlyErrors.refl s
  | blocked _ hflush hqueue =>
      exact (tryFlushQueue_onlyErrors hflush).trans (queuePacket_onlyErrors hqueue)
  | sent _ hflush _ => exact (tryFlushQueue_onlyErrors hflush).trans (OnlyErrors.of_conns rfl rfl)
  | refused _ hflush _ hqueue =>
      exact (tryFlushQueue_onlyErrors hflush).trans
        ((queuePacket_onlyErrors hqueue).of_record rfl rfl)
  | failed _ hflush _ =>
      exact (tryFlushQueue_onlyErrors hflush).trans
        ((OnlyErrors.setError _ conn (e := .sendFailed) nofun).of_record rfl rfl)

theorem sendToAll_onlyErrors {s s' : Process} {connIds : List Nat} {data : List UInt8}
    {os : SendAnswers} (h : s.sendToAll connIds data os = .ok s') : OnlyErrors s s' :=
  sendToAll_rel OnlyErrors.refl (fun _ _ _ => OnlyErrors.trans)
    (fun _ _ _ _ => sendVia_onlyErrors) h

theorem update_onlyErrors {s s' : Process} {os : SendAnswers} (h : s.update os = .ok s') :
    OnlyErrors s s' :=
  update_rel OnlyErrors.refl (fun _ _ _ => OnlyErrors.trans)
    (fun _ _ _ _ => tryFlushQueue_onlyErrors) h

/-! ### Opening

The failure branch of `init_socket` indexes `conns_` by the descriptor, so it may leave its
error on another connection, and it may only do that.
-/

theorem initSocket_onlyErrors {s s' : Process} {sock : Int} {getfl : Bool}
    (h : s.initSocket sock getfl = .ok s') : OnlyErrors s s' := by
  unfold initSocket at h
  split at h
  · cases h
    exact OnlyErrors.refl s
  · obtain ⟨conn, -, h⟩ := bind_returns.mp h
    cases h
    exact OnlyErrors.setError s conn nofun

/-! ### Receiving

A call of `recv` may replace the buffer of its connection, and a poll that fails leaves an
error on every connection of the list, whether it is in use or not.
-/

theorem receive_sameSlots {s s' : Process} {connId : Nat} {os : RecvAnswers}
    {before after : Address → Address} {r : Bool}
    (h : s.receive connId os before after = .ok (r, s')) : SameSlots s s' := by
  obtain ⟨conn, -, hexit⟩ := receive_receives h
  -- the buffer may have been enlarged; the connections are as before
  have hset : ∀ (n : Nat) (c : ConnectionData), c.state = (s.conns conn).state →
      c.socket = (s.conns conn).socket →
      SameSlots s ((s.roomFor (s.conns conn) n os.realloc).2.setConn conn c) := by
    intro n c hstate hsock
    rw [roomFor_fields]
    exact SameSlots.of_record (t := { s with blocks := _ }) (SameSlots.setConn _ conn hstate hsock)
      rfl rfl
  cases hexit with
  | skipped _ => exact SameSlots.refl s
  | unread _ _ => exact SameSlots.setError s conn _
  | empty _ _ => exact SameSlots.setConn s conn rfl rfl
  | refused _ _ _ _ => exact SameSlots.setConn s conn rfl rfl
  | failed _ _ _ _ _ => exact hset _ _ rfl rfl
  | received _ _ _ _ _ _ => exact hset _ _ rfl rfl

/-- A failed poll leaves an error on every connection of the list. -/
theorem pollFailed_onlyErrors {s s' : Process} {connIds : List Nat}
    (h : connIds.foldlM (fun s id => do let conn ← ref id; return s.setError conn .pollFailed) s =
      .ok s') : OnlyErrors s s' :=
  pollFailed_rel OnlyErrors.refl (fun _ _ _ => OnlyErrors.trans)
    (fun t conn => OnlyErrors.setError t conn nofun) h

theorem recvFromAll_sameSlots {s s' : Process} {connIds : List Nat} {os : PollAnswers}
    (h : s.recvFromAll connIds os = .ok s') : SameSlots s s' :=
  recvFromAll_rel SameSlots.refl (fun _ _ _ => SameSlots.trans)
    (fun t conn => SameSlots.setError t conn _) (fun _ _ _ _ _ => receive_sameSlots) h

end Ytl.Udp.Process
