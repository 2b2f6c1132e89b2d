/-
Who owns the blocks of the C heap.

The receive buffer of every connection and the buffer of every ring slot is a block of its own.
Whatever the pool is asked to do, short of the destructor, no block has two owners, none that
an owner has was passed to `std::free`, and none was passed to it twice.

The pool is an instance of blocks with owners.  A place is a pointer of the pool, a
connection's or a ring slot's; what the operations do to the heap is a sequence of its three
steps, where a `realloc` is a new block for the place that held the old one.  So nothing has
to be proved here about owners: every operation is taken apart into steps, and that steps keep
the blocks in order is known of any heap.

No bound on the number of blocks is promised, and the allocator may refuse whenever it likes.
-/
import Ytl.Base.Owning
import Ytl.Proofs.Udp.Routing
import Ytl.Proofs.Udp.Slots

namespace Ytl.Udp

open Owning

/-- Where the pool keeps a pointer to a block. -/
inductive Place where
  | conn (i : Fin maxConnections)
  | packet (k : Fin maxBufferedPackets)
deriving DecidableEq

namespace Process

/-! ### The heap of the pool -/

/-- The block a pointer of the pool points to. -/
def blockAt (s : Process) : Place → Option Nat
  | .conn i => (s.conns i).recvBuffer.map Block.id
  | .packet k => (s.packetQueue.packets k).data.map Block.id

/-- The heap as far as the pool knows it. -/
def heap (s : Process) : Heap Place := ⟨s.blocks, s.freed, s.blockAt⟩

/-- The heap may have been changed step by step. -/
abbrev Handles (s s' : Process) : Prop := Steps s.heap s'.heap

variable {s s' t : Process} {i conn : Fin maxConnections} {k : Fin maxBufferedPackets}

namespace Handles

theorem of_eq (h : s'.heap = s.heap) : Handles s s' := by
  unfold Handles
  rw [h]

theorem of_fields (hblocks : s'.blocks = s.blocks) (hfreed : s'.freed = s.freed)
    (hplaces : s'.blockAt = s.blockAt) : Handles s s' :=
  of_eq (by rw [heap, heap, hblocks, hfreed, hplaces])

theorem trans (h : Handles s t) (h' : Handles t s') : Handles s s' :=
  Relation.ReflTransGen.trans h h'

theorem of_step (h : Step s.heap s'.heap) : Handles s s' := Relation.ReflTransGen.single h

end Handles

/-! ### What is written

A place is written by `setConn` or `setPacket`.  As long as the pointer is the same the heap
is; otherwise the place gets a block that was just handed out, or loses the one it had.
-/

theorem blockAt_setConn (s : Process) (i : Fin maxConnections) (c : ConnectionData) :
    (s.setConn i c).blockAt =
      Function.update s.blockAt (.conn i) (c.recvBuffer.map Block.id) := by
  funext p
  cases p with
  | conn j =>
      by_cases hj : j = i
      · rw [hj, Function.update_self, blockAt, setConn_self]
      · rw [Function.update_of_ne (fun h => hj (Place.conn.inj h)), blockAt, blockAt,
          setConn_of_ne _ _ hj]
  | packet k =>
      rw [Function.update_of_ne (fun h => Place.noConfusion h)]
      rfl

theorem blockAt_setPacket (s : Process) (k : Fin maxBufferedPackets) (p : PacketData) :
    (s.setPacket k p).blockAt = Function.update s.blockAt (.packet k) (p.data.map Block.id) := by
  funext q
  cases q with
  | conn i =>
      rw [Function.update_of_ne (fun h => Place.noConfusion h)]
      rfl
  | packet j =>
      have hpackets : (s.setPacket k p).packetQueue.packets =
          Function.update s.packetQueue.packets k p := rfl
      rw [blockAt, hpackets]
      by_cases hj : j = k
      · rw [hj, Function.update_self, Function.update_self]
      · rw [Function.update_of_ne hj, Function.update_of_ne (fun h => hj (Place.packet.inj h))]
        rfl

theorem heap_setPacket (s : Process) (k : Fin maxBufferedPackets) (p : PacketData) :
    (s.setPacket k p).heap =
      { s.heap with holds := Function.update s.heap.holds (.packet k) (p.data.map Block.id) } := by
  rw [heap, blockAt_setPacket]
  rfl

theorem setConn_handles {c : ConnectionData}
    (hbuffer : c.recvBuffer.map Block.id = (s.conns i).recvBuffer.map Block.id) :
    Handles s (s.setConn i c) := by
  refine Handles.of_fields rfl rfl ?_
  rw [blockAt_setConn, hbuffer]
  exact Function.update_eq_self (.conn i) s.blockAt

theorem setPacket_handles {p : PacketData}
    (hdata : p.data.map Block.id = (s.packetQueue.packets k).data.map Block.id) :
    Handles s (s.setPacket k p) := by
  refine Handles.of_fields rfl rfl ?_
  rw [blockAt_setPacket, hdata]
  exact Function.update_eq_self (.packet k) s.blockAt

/-- A pointer to a block that was just asked for. -/
theorem malloc_handles (size : Nat) (a : Alloc) (p : Place)
    (hfreed : s'.freed = s.freed) (hblocks : s'.blocks = (s.malloc size a).2.blocks)
    (hplaces : s'.blockAt = Function.update s.blockAt p ((s.malloc size a).1.map Block.id)) :
    Handles s s' := by
  refine Handles.of_step ?_
  unfold heap
  rw [hfreed, hblocks, hplaces]
  unfold malloc
  split
  · exact Step.alloc p
  · exact Step.lose p

theorem release_handles (s : Process) (i : Fin maxConnections) : Handles s (s.release i) := by
  refine Handles.of_step ?_
  have hfree : ∀ b, (s.free b).blockAt = s.blockAt := by
    intro b
    cases b <;> rfl
  have hplaces : (s.release i).blockAt = Function.update s.blockAt (.conn i) none := by
    show ((s.free (s.conns i).recvBuffer).setConn i {}).blockAt = _
    rw [blockAt_setConn, hfree]
    rfl
  have hfreed : (s.release i).freed = s.freed ++ (s.blockAt (.conn i)).toList :=
    free_freed s _
  have hblocks : (s.release i).blocks = s.blocks := free_blocks s _
  unfold heap
  rw [hplaces, hfreed, hblocks]
  exact Step.free (h := s.heap) (.conn i)

theorem close_handles {id : Nat} (h : s.close id = .ok s') : Handles s s' := by
  obtain ⟨i, l, -, -, rfl⟩ := close_walk h
  clear h
  induction l with
  | nil => exact Handles.of_eq rfl
  | cons i rest ih => exact ih.trans (release_handles _ i)

theorem opened_handles {a : Alloc} {fd : Int} {done : Bool} (ho : Opened s i a fd done s') :
    Handles s s' := by
  refine malloc_handles defaultPacketSize a (.conn i) ho.freed ho.blocks ?_
  funext p
  cases p with
  | conn j =>
      by_cases hj : j = i
      · rw [hj, Function.update_self, blockAt, ho.buffer]
      · obtain ⟨e, he⟩ := ho.others j hj
        rw [Function.update_of_ne (fun h => hj (Place.conn.inj h)), blockAt, blockAt, he]
  | packet k =>
      rw [Function.update_of_ne (fun h => Place.noConfusion h), blockAt, blockAt, ho.queue]

/-! ### The queue

A flush only reads.  A packet that is queued may get its slot a larger block.
-/

/-- A flush reads the blocks of the packets and moves none. -/
theorem Flushed.handles {outcome : Nat → SendOutcome} {ks : List (Fin maxBufferedPackets)}
    {blocked : Bool} (h : Flushed s conn outcome ks blocked s') : Handles s s' := by
  refine Handles.of_fields (by rw [h.rest]) (by rw [h.rest]) (funext fun p => ?_)
  cases p with
  | conn i =>
      obtain ⟨e, he, -⟩ := h.onlyErrors.conns i
      rw [blockAt, blockAt, he]
  | packet k =>
      rw [blockAt, blockAt, h.packets k]
      split
      · rfl
      · rfl

theorem tryFlushQueue_handles {connId : Nat} {b : Bool} {outcome : Nat → SendOutcome}
    (h : s.tryFlushQueue connId outcome = .ok (b, s')) : Handles s s' := by
  rcases tryFlushQueue_cases h with rfl | ⟨conn, -, hf⟩
  · exact Handles.of_eq rfl
  · exact hf.handles

/-- A slot gets a block that no place had, or, where `realloc` refuses, loses the one it had. -/
theorem Reserves.handles {size : Nat} {a : Alloc} {room : Bool}
    (h : Reserves s k size a room t) : Handles s t := by
  cases h with
  | enough _ => exact Handles.of_eq rfl
  | refused _ _ =>
      refine Handles.of_step ?_
      rw [heap_setPacket]
      exact Step.lose (Place.packet k)
  | granted _ _ hid _ =>
      refine Handles.of_step ?_
      rw [heap_setPacket, Option.map_some, hid]
      exact Step.alloc (h := s.heap) (.packet k)

theorem Stores.handles {data : List UInt8} (h : Stores s k data t) : Handles s t := by
  cases h with
  | nothing _ _ => exact setPacket_handles rfl
  | copied hdata _ => exact setPacket_handles (by rw [hdata]; rfl)

theorem Addresses.handles {addr : Option Address} (h : Addresses s k addr t) : Handles s t := by
  cases h with
  | again _ _ => exact Handles.of_eq rfl
  | new _ => exact setPacket_handles rfl
  | cleared _ _ => exact Handles.of_eq rfl
  | left _ => exact Handles.of_eq rfl

theorem queuePacket_handles {owner : Endpoint} {addr : Option Address} {data : List UInt8}
    {a : Alloc} {r : SendResult} (h : s.queuePacket owner addr data a = .ok (r, s')) :
    Handles s s' := by
  have hcount : Handles s s.counted := Handles.of_eq rfl
  cases queuePacket_eq_ok.mp h with
  | failed hroom => exact hcount.trans hroom.handles
  | buffered hroom hstore hto =>
      exact ((hcount.trans hroom.handles).trans hstore.handles).trans hto.handles

theorem sendVia_handles {connId : Nat} {addr : Option Address} {data : List UInt8}
    {os : SendAnswers} {r : SendResult} (h : s.sendVia connId addr data os = .ok (r, s')) :
    Handles s s' := by
  obtain ⟨conn, -, hexit⟩ := sendVia_sends h
  cases hexit with
  | skipped _ => exact Handles.of_eq rfl
  | blocked _ hflush hqueue =>
      exact (tryFlushQueue_handles hflush).trans (queuePacket_handles hqueue)
  | sent _ hflush _ =>
      have hflushed := tryFlushQueue_handles hflush
      exact hflushed
  | refused _ hflush _ hqueue =>
      have hqueued := queuePacket_handles hqueue
      exact (tryFlushQueue_handles hflush).trans hqueued
  | failed _ hflush _ => exact (tryFlushQueue_handles hflush).trans (setConn_handles rfl)

/-! ### Receiving

The bytes of a block are no matter of its owner, so only the exits on which the buffer grows
do anything to the heap.
-/

theorem fillBuffer_id {buffer filled : Option Block} {bytes : List UInt8}
    (h : fillBuffer buffer bytes = .ok filled) :
    filled.map Block.id = buffer.map Block.id := by
  unfold fillBuffer at h
  split at h
  · cases h
  · split at h
    · cases h
      rfl
    · cases h

/-- The buffer may be another block with room for more. -/
theorem roomFor_handles {n : Nat} {a : Alloc} {c : ConnectionData}
    (hbuffer : c.recvBuffer.map Block.id =
      (s.roomFor (s.conns conn) n a).1.map Block.id) :
    Handles s ((s.roomFor (s.conns conn) n a).2.setConn conn c) := by
  unfold roomFor at hbuffer ⊢
  split at hbuffer
  · rename_i hn
    rw [if_pos hn]
    unfold realloc at hbuffer ⊢
    generalize { a with junk := _ } = a' at hbuffer ⊢
    refine malloc_handles n a' (.conn conn) ?_ rfl ?_
    · rw [malloc_fields]
      rfl
    · rw [blockAt_setConn, hbuffer, malloc_fields]
      rfl
  · rename_i hn
    rw [if_neg hn]
    exact setConn_handles hbuffer

theorem receive_handles {connId : Nat} {os : RecvAnswers} {before after : Address → Address}
    {r : Bool} (h : s.receive connId os before after = .ok (r, s')) : Handles s s' := by
  obtain ⟨conn, -, hexit⟩ := receive_receives h
  cases hexit with
  | skipped _ => exact Handles.of_eq rfl
  | unread _ _ => exact setConn_handles rfl
  | empty _ _ => exact setConn_handles rfl
  | refused _ _ _ _ => exact setConn_handles rfl
  | failed _ _ _ _ _ => exact roomFor_handles rfl
  | received _ _ _ _ _ hfill => exact roomFor_handles (fillBuffer_id hfill)

end Process

/-! ### Every operation

Each of the eleven operations is a composition of what was treated above, and the loops among
them are done with the rule for loops.
-/

open Process

section Operations

variable {s s' : Process}

theorem attempt_handles {a : Alloc} {fd : Int} {getfl done : Bool}
    {r : Except Fault (Nat × Process)} {index : Nat} (h : Attempt s a fd getfl done r)
    (hr : r = .ok (index, s')) : Handles s s' := by
  cases h with
  | full _ =>
      cases hr
      exact Handles.of_eq rfl
  | taken _ _ hl => exact opened_handles (hl.opened hr).2

theorem sendOneshot_handles {host port : String} {data : List UInt8} {os : OneshotAnswers}
    {e : Error} (h : s.sendOneshot host port data os = .ok (e, s')) : Handles s s' := by
  rcases sendOneshot_exits h with rfl | ⟨sockets, calls, id, -, hclose⟩
  · exact Handles.of_eq rfl
  · have hopened : Handles s { s with sockets := sockets, sends := s.sends ++ calls } :=
      Handles.of_eq rfl
    exact hopened.trans (close_handles hclose)

/-- **One step.**  No operation does anything to the heap that its steps do not allow. -/
theorem handles_step (hok : SlotsOK s) {op : Op} (h : op.step s = .ok s') : Handles s s' := by
  have hrefl : ∀ t, Handles t t := fun _ => Handles.of_eq rfl
  have htrans : ∀ t u v, Handles t u → Handles u v → Handles t v := fun _ _ _ => Handles.trans
  unfold Op.step at h
  cases op with
  | create host port connect os =>
      obtain ⟨index, hr⟩ := snd_returns.mp h
      exact attempt_handles (hok.create_attempt host port connect os) hr
  | serve port os =>
      obtain ⟨index, hr⟩ := snd_returns.mp h
      exact attempt_handles (hok.serve_attempt port os) hr
  | send connId data os =>
      obtain ⟨r, hr⟩ := snd_returns.mp h
      exact sendVia_handles hr
  | sendTo connId addr data os =>
      obtain ⟨r, hr⟩ := snd_returns.mp h
      exact sendVia_handles hr
  | sendToAll connIds data os =>
      exact sendToAll_rel hrefl htrans (fun _ _ _ _ => sendVia_handles) h
  | recv connId os =>
      obtain ⟨r, hr⟩ := snd_returns.mp h
      exact receive_handles hr
  | recvFrom connId os =>
      obtain ⟨r, hr⟩ := snd_returns.mp h
      exact receive_handles hr
  | recvFromAll connIds os =>
      exact recvFromAll_rel hrefl htrans (fun _ _ => setConn_handles rfl)
        (fun _ _ _ _ _ => receive_handles) h
  | update os => exact update_rel hrefl htrans (fun _ _ _ _ => tryFlushQueue_handles) h
  | close connId => exact close_handles h
  | sendOneshot host port data os =>
      obtain ⟨e, hr⟩ := snd_returns.mp h
      exact sendOneshot_handles hr

end Operations

theorem sound_of_reachable {promise : Process → Int → Prop} {s : Process}
    (h : (pool promise).Reachable s) : Sound s.heap := by
  have hempty : Sound Process.empty.heap := by
    refine ⟨fun p b hp => ?_, fun p q b hp => ?_, fun b hb => absurd hb List.not_mem_nil,
      List.nodup_nil⟩
    · cases p <;> cases hp
    · cases p <;> cases hp
  have hboth : SlotsOK s ∧ Sound s.heap := by
    refine h.invariant (I := fun s => SlotsOK s ∧ Sound s.heap) ?_ ?_
    · rintro s ⟨port, os, -, hs⟩
      refine ⟨SlotsOK.of_construct hs, ?_⟩
      rw [construct_eq] at hs
      split at hs
      · exact hempty.steps (handles_step SlotsOK.of_empty hs)
      · cases hs
        exact hempty
    · rintro s op s' ⟨hok, hsound⟩ - hs
      exact ⟨hok.of_step hs, hsound.steps (handles_step hok hs)⟩
  exact hboth.2

/--
**Every block has one owner.**  In every reachable state no block was passed to `std::free`
twice, and a block that a connection or a ring slot points to was handed out by the allocator,
was not freed, and is pointed to from nowhere else.
-/
theorem blocks_owned (promise : Process → Int → Prop) (s : Process)
    (h : (pool promise).Reachable s) :
    s.freed.Nodup ∧ (∀ b ∈ s.freed, b < s.blocks) ∧
      ∀ p b, s.blockAt p = some b →
        b < s.blocks ∧ b ∉ s.freed ∧ ∀ q, s.blockAt q = some b → q = p := by
  have hsound := sound_of_reachable h
  exact ⟨hsound.nodup, hsound.known, fun p b hp => ⟨(hsound.live p b hp).1,
    (hsound.live p b hp).2, fun q hq => hsound.once q p b hq hp⟩⟩

/-- Two connections, the first closed again, and a packet that waits for the second. -/
theorem blocks_owned_closed :
    ∃ s, (pool Fresh).Reachable s ∧ s.freed = [0] ∧ s.blockAt (.conn 1) = some 1 ∧
      s.blockAt (.packet 0) = some 2 ∧ s.freed.Nodup ∧
      ∀ q, s.blockAt q = some 2 → q = .packet 0 := by
  obtain ⟨s, hs, hP⟩ := Machine.exists_reachable start_empty
    [.serve 9000 { socket := 3 }, .serve 9001 { socket := 4 },
      .send 1 [1] { outcome := fun _ => .wouldBlock }, .close 0]
    (fun s => decide (s.freed = [0] ∧ s.blockAt (.conn 1) = some 1 ∧
      s.blockAt (.packet 0) = some 2)) (by decide +kernel)
  obtain ⟨hfreed, hconn, hpacket⟩ := of_decide_eq_true hP
  obtain ⟨hnodup, -, hown⟩ := blocks_owned Fresh s hs
  exact ⟨s, hs, hfreed, hconn, hpacket, hnodup, (hown _ _ hpacket).2.2⟩

end Ytl.Udp
