/-
What one flush of the packet queue does.

The window of the ring is made of at most as many positions as the ring has slots, so its
slots are all different, and marking one as sent does not change what the later rounds see.  A
flush therefore offers the packets that were waiting when it began, oldest first, until one is
refused (`Flushed`).

`Flushed` is said with the functions of an outbox: which calls are made, which packets are
marked and how the flush ends are those of a round in which the waiting packets are offered.
Everything else the flush leaves alone, which is a field of its own, so the facts about what
is not touched are read off it.  The loop is unfolded in this module only.
-/
import Ytl.Base.Outbox
import Ytl.Proofs.Udp.Receive

namespace Ytl.Udp

/-- The system has taken the datagram. -/
def SendOutcome.isSent : SendOutcome → Bool
  | .sent => true
  | _ => false

namespace Process

/-! ### The window

Positions are counted up and masked to find a slot.  Eight positions in a row have eight
different slots, so a slot of the window may be marked without a look at the other positions.
-/

theorem ringSlot_val (i : Nat) : (ringSlot i).val = i % 8 :=
  Nat.and_two_pow_sub_one_eq_mod i 3

theorem ringSlot_eq_iff {i j : Nat} : ringSlot i = ringSlot j ↔ i % 8 = j % 8 := by
  rw [Fin.ext_iff, ringSlot_val, ringSlot_val]

/-- Slots of a window of ring positions. -/
def windowSlots (start count : Nat) : List (Fin maxBufferedPackets) :=
  (List.range' start count).map ringSlot

theorem windowSlots_succ (start count : Nat) :
    windowSlots start (count + 1) = ringSlot start :: windowSlots (start + 1) count := by
  rw [windowSlots, List.range'_succ, List.map_cons]
  rfl

/-- A window no longer than the ring does not come back to its first slot. -/
theorem ringSlot_not_mem {start count : Nat} (h : count < 8) :
    ringSlot start ∉ windowSlots (start + 1) count := by
  rw [windowSlots, List.mem_map]
  rintro ⟨j, hj, heq⟩
  rw [List.mem_range'_1] at hj
  rw [ringSlot_eq_iff] at heq
  omega

/-- The slots of a window that hold a packet. -/
def waitingIn (s : Process) (start count : Nat) : List (Fin maxBufferedPackets) :=
  (windowSlots start count).filter fun k => (s.packetQueue.packets k).len ≠ 0

theorem waitingIn_succ (s : Process) (start count : Nat) :
    s.waitingIn start (count + 1) =
      if (s.packetQueue.packets (ringSlot start)).len = 0 then s.waitingIn (start + 1) count
      else ringSlot start :: s.waitingIn (start + 1) count := by
  rw [waitingIn, windowSlots_succ]
  by_cases h : (s.packetQueue.packets (ringSlot start)).len = 0
  · simp [waitingIn, h]
  · simp [waitingIn, h]

/-- The packets that wait in the queue, oldest first. -/
def waiting (s : Process) : List (Fin maxBufferedPackets) :=
  s.waitingIn (s.packetQueue.length - 8) (s.packetQueue.length - (s.packetQueue.length - 8))

theorem windowSlots_nodup : ∀ (count start : Nat), count ≤ 8 → (windowSlots start count).Nodup := by
  intro count
  induction count with
  | zero => exact fun _ _ => List.nodup_nil
  | succ count ih =>
      intro start hle
      rw [windowSlots_succ, List.nodup_cons]
      exact ⟨ringSlot_not_mem (by omega), ih (start + 1) (by omega)⟩

theorem waiting_nodup (s : Process) : s.waiting.Nodup :=
  (windowSlots_nodup _ _ (by omega)).filter _

theorem waiting_nil {s : Process} (h : s.packetQueue.length = 0) : s.waiting = [] := by
  simp [waiting, waitingIn, windowSlots, h]

/-- What waits has a length. -/
theorem len_of_waiting {s : Process} {k : Fin maxBufferedPackets} (h : k ∈ s.waiting) :
    (s.packetQueue.packets k).len ≠ 0 := of_decide_eq_true (List.mem_filter.mp h).2

/-! ### The calls

What a packet is sent with is read from the ring at the time of the flush: the bytes from its
block, the destination from the table of addresses.
-/

/-- The address in the entry a packet points at, if it is one. -/
def destOf (s : Process) (packet : PacketData) : Option Address :=
  (packet.toAddr.bind fun e => s.packetQueue.addrStorage[e]?).filter fun a => 0 < a.addrLen

theorem destination_eq_ok {s : Process} {packet : PacketData} {dest : Option Address}
    (h : s.destination packet = .ok dest) : dest = s.destOf packet := by
  unfold destination at h
  unfold destOf
  split at h
  · rename_i hnone
    rw [← Except.ok.inj h, hnone]
    rfl
  · rename_i e he
    split at h
    · cases h
    · rename_i a ha
      rw [← Except.ok.inj h, he, Option.bind_some, ha]
      by_cases hlen : 0 < a.addrLen
      · simp [hlen, Option.filter]
      · simp [hlen, Option.filter]

theorem destination_returns {s : Process} {packet : PacketData}
    (h : ∀ e, packet.toAddr = some e → e < s.packetQueue.addrStorage.length) :
    ∃ dest, s.destination packet = .ok dest := by
  unfold destination
  split
  · exact ⟨none, rfl⟩
  · rename_i e he
    rw [List.getElem?_eq_getElem (h e he)]
    exact ⟨_, rfl⟩

/-- The call that offers the packet in slot `k` on connection `conn`. -/
def callAt (s : Process) (conn : Fin maxConnections) (k : Fin maxBufferedPackets)
    (ret : SendOutcome) : SendCall where
  via := s.endpoint conn
  owner := (s.tags k).owner
  serial := some (s.tags k).serial
  bytes := (s.packetQueue.packets k).payload
  dest := s.destOf (s.packetQueue.packets k)
  outcome := ret

/-- How a flush ends: the queue is drained, or the refusal says what happened. -/
def FlushEnds (s : Process) (conn : Fin maxConnections) (blocked : Bool) (s' : Process) :
    Option SendOutcome → Prop
  | none => blocked = false ∧ s'.conns = s.conns ∧
      s'.packetQueue.length = 0 ∧ s'.drained = s.queued.length
  | some .wouldBlock => blocked = true ∧ s'.conns = s.conns ∧
      s'.packetQueue.length = s.packetQueue.length ∧ s'.drained = s.drained
  | some _ => blocked = false ∧ s'.conns = (s.setError conn .sendFailed).conns ∧
      s'.packetQueue.length = s.packetQueue.length ∧ s'.drained = s.drained

/-- A flush on `conn` that offers the packets in the slots `ks`. -/
structure Flushed (s : Process) (conn : Fin maxConnections) (outcome : Nat → SendOutcome)
    (ks : List (Fin maxBufferedPackets)) (blocked : Bool) (s' : Process) : Prop where
  sends : s'.sends = s.sends ++
    (offer outcome SendOutcome.isSent s.sends.length ks).map fun p => s.callAt conn p.1 p.2
  packets : ∀ k, s'.packetQueue.packets k =
    if k ∈ accepted outcome SendOutcome.isSent s.sends.length ks then
      { s.packetQueue.packets k with len := 0 } else s.packetQueue.packets k
  addrStorage : s'.packetQueue.addrStorage = s.packetQueue.addrStorage
  ends : s.FlushEnds conn blocked s' (refusal outcome SendOutcome.isSent s.sends.length ks)
  rest : s' = { s with conns := s'.conns, packetQueue := s'.packetQueue, sends := s'.sends,
                       drained := s'.drained }

/-- The state after the packet in slot `k` has been sent. -/
def sentAt (s : Process) (conn : Fin maxConnections) (k : Fin maxBufferedPackets) : Process :=
  { s with sends := s.sends ++ [s.callAt conn k .sent] }.setPacket k
    { s.packetQueue.packets k with len := 0 }

theorem sentAt_packets_of_ne (s : Process) (conn : Fin maxConnections)
    {k j : Fin maxBufferedPackets} (h : j ≠ k) :
    (s.sentAt conn k).packetQueue.packets j = s.packetQueue.packets j :=
  Function.update_of_ne h _ _

theorem callAt_sentAt (s : Process) (conn : Fin maxConnections) {k j : Fin maxBufferedPackets}
    (h : j ≠ k) (ret : SendOutcome) :
    (s.sentAt conn k).callAt conn j ret = s.callAt conn j ret := by
  unfold callAt
  rw [sentAt_packets_of_ne s conn h]
  rfl

theorem waitingIn_sentAt (s : Process) (conn : Fin maxConnections) {start count : Nat}
    (h : count < 8) :
    (s.sentAt conn (ringSlot start)).waitingIn (start + 1) count =
      s.waitingIn (start + 1) count := by
  refine List.filter_congr fun k hk => ?_
  have hne : k ≠ ringSlot start := fun hc => ringSlot_not_mem h (hc ▸ hk)
  rw [sentAt_packets_of_ne s conn hne]

/-! ### Putting the rounds together

The induction is on the rounds that are left.  A packet that is sent is marked, and the rest
of the loop runs in the state with the mark; that the rest sees the same packets there is what
the lemmas about `sentAt` are for.
-/

namespace Flushed

variable {s s' : Process} {conn : Fin maxConnections} {outcome : Nat → SendOutcome}
  {k : Fin maxBufferedPackets} {ks : List (Fin maxBufferedPackets)} {blocked : Bool}

theorem nil (s : Process) (conn : Fin maxConnections) (outcome : Nat → SendOutcome) :
    Flushed s conn outcome [] false
      { s with packetQueue.length := 0, drained := s.queued.length } := by
  refine ⟨?_, fun _ => rfl, rfl, ⟨rfl, rfl, rfl, rfl⟩, rfl⟩
  simp [offer]

/-- The first packet is refused, and the round is over. -/
theorem refused (s : Process) (conn : Fin maxConnections) (outcome : Nat → SendOutcome)
    (k : Fin maxBufferedPackets) (ks : List (Fin maxBufferedPackets)) {ret : SendOutcome}
    (hret : outcome s.sends.length = ret) (hno : ret.isSent = false)
    (hblocked : blocked = decide (ret = .wouldBlock)) (hconns : s'.conns =
      (if ret = .wouldBlock then s else s.setError conn .sendFailed).conns)
    (hrest : s' = { s with conns := s'.conns, sends := s.sends ++ [s.callAt conn k ret] }) :
    Flushed s conn outcome (k :: ks) blocked s' := by
  refine ⟨?_, ?_, ?_, ?_, ?_⟩
  · rw [hrest]
    simp [offer, hret, hno]
  · intro j
    rw [hrest]
    simp [accepted, hret, hno]
  · rw [hrest]
  · have hlen : s'.packetQueue.length = s.packetQueue.length := by rw [hrest]
    have hdr : s'.drained = s.drained := by rw [hrest]
    rw [refusal, hret, hno]
    cases ret with
    | sent => cases hno
    | wouldBlock => exact ⟨hblocked, hconns, hlen, hdr⟩
    | failed => exact ⟨hblocked, hconns, hlen, hdr⟩
  · rw [hrest]

/-- The first packet is sent, and the round goes on. -/
theorem cons (hk : k ∉ ks) (hret : outcome s.sends.length = .sent)
    (h : Flushed (s.sentAt conn k) conn outcome ks blocked s') :
    Flushed s conn outcome (k :: ks) blocked s' := by
  have hlen : (s.sentAt conn k).sends.length = s.sends.length + 1 := by
    simp [sentAt, setPacket]
  refine ⟨?_, ?_, h.addrStorage, ?_, h.rest⟩
  · rw [h.sends, hlen, offer, hret]
    have hmap : (offer outcome SendOutcome.isSent (s.sends.length + 1) ks).map
        (fun p => (s.sentAt conn k).callAt conn p.1 p.2) =
        (offer outcome SendOutcome.isSent (s.sends.length + 1) ks).map
          fun p => s.callAt conn p.1 p.2 := by
      refine List.map_congr_left fun p hp => ?_
      have hmem : p.1 ∈ ks := (offer_sublist _ ks).subset (List.mem_map_of_mem hp)
      have hne : p.1 ≠ k := fun hc => hk (hc ▸ hmem)
      exact callAt_sentAt s conn hne p.2
    rw [hmap]
    simp [sentAt, setPacket, SendOutcome.isSent]
  · intro j
    rw [h.packets j, hlen, accepted, hret]
    by_cases hj : j = k
    · subst hj
      have hnot : j ∉ accepted outcome SendOutcome.isSent (s.sends.length + 1) ks := by
        intro hc
        exact hk (mem_of_mem_accepted hc)
      simp [hnot, SendOutcome.isSent, sentAt, setPacket]
    · rw [sentAt_packets_of_ne s conn hj]
      simp [SendOutcome.isSent, hj]
  · have hends := h.ends
    rw [hlen] at hends
    rw [refusal, hret]
    exact hends

theorem tags (h : Flushed s conn outcome ks blocked s') : s'.tags = s.tags := by
  rw [h.rest]

theorem queued (h : Flushed s conn outcome ks blocked s') : s'.queued = s.queued := by
  rw [h.rest]

/-- A flush counts no packet. -/
theorem length_le (h : Flushed s conn outcome ks blocked s') :
    s'.packetQueue.length ≤ s.packetQueue.length := by
  have hends := h.ends
  unfold FlushEnds at hends
  split at hends
  · rw [hends.2.2.1]
    exact Nat.zero_le _
  · exact Nat.le_of_eq hends.2.2.1
  · exact Nat.le_of_eq hends.2.2.1

end Flushed

/-- **One flush.**  The loop over a window offers the packets that wait in it. -/
theorem flushLoop_flushed (conn : Fin maxConnections) (outcome : Nat → SendOutcome) :
    ∀ (remaining i : Nat) (s s' : Process) (blocked : Bool), remaining ≤ 8 →
      flushLoop conn outcome remaining i s = .ok (blocked, s') →
      Flushed s conn outcome (s.waitingIn i remaining) blocked s' := by
  intro remaining
  induction remaining with
  | zero =>
      intro i s s' blocked _ h
      cases h
      exact Flushed.nil s conn outcome
  | succ remaining ih =>
      intro i s s' blocked hle h
      rw [flushLoop] at h
      rw [waitingIn_succ]
      split at h
      · rename_i hzero
        rw [if_pos hzero]
        exact ih (i + 1) s s' blocked (by omega) h
      rename_i hne
      rw [if_neg hne]
      obtain ⟨dest, hdest, h⟩ := bind_returns.mp h
      rw [destination_eq_ok hdest] at h
      dsimp only at h
      split at h
      · rename_i hret
        cases h
        exact Flushed.refused s conn outcome _ _ hret rfl rfl rfl (by rw [hret]; rfl)
      · rename_i hret
        cases h
        exact Flushed.refused s conn outcome _ _ hret rfl rfl rfl (by rw [hret]; rfl)
      · rename_i hret
        rw [hret] at h
        have hrest := ih (i + 1) (s.sentAt conn (ringSlot i)) s' blocked (by omega) h
        rw [waitingIn_sentAt s conn (by omega)] at hrest
        refine Flushed.cons ?_ hret hrest
        intro hc
        exact ringSlot_not_mem (by omega) (List.mem_filter.mp hc).1

/-- The loop returns when every packet points at an entry of `addr_storage`. -/
theorem flushLoop_returns (conn : Fin maxConnections) (outcome : Nat → SendOutcome) :
    ∀ (remaining i : Nat) (s : Process),
      (∀ k e, (s.packetQueue.packets k).toAddr = some e →
        e < s.packetQueue.addrStorage.length) →
      ∃ r, flushLoop conn outcome remaining i s = .ok r := by
  intro remaining
  induction remaining with
  | zero => intro i s _; exact ⟨_, rfl⟩
  | succ remaining ih =>
      intro i s h
      rw [flushLoop]
      split
      · exact ih (i + 1) s h
      obtain ⟨dest, hdest⟩ := destination_returns (h (ringSlot i))
      rw [hdest, bind_of_ok]
      dsimp only
      split
      · exact ⟨_, rfl⟩
      · exact ⟨_, rfl⟩
      · refine ih (i + 1) _ fun k e he => h k e ?_
        rw [← he]
        by_cases hk : k = ringSlot i
        · subst hk
          simp [setPacket]
        · simp [setPacket, hk]

/-- A flush that is not skipped offers the waiting packets. -/
theorem tryFlushQueue_flushed {s s' : Process} {conn : Fin maxConnections} {blocked : Bool}
    {outcome : Nat → SendOutcome} (herr : (s.conns conn).error = .none)
    (h : s.tryFlushQueue conn.val outcome = .ok (blocked, s')) :
    (s.packetQueue.length = 0 ∧ blocked = false ∧ s' = s) ∨
      (s.packetQueue.length ≠ 0 ∧ Flushed s conn outcome s.waiting blocked s') := by
  unfold tryFlushQueue at h
  split at h
  · rename_i hzero
    cases h
    exact Or.inl ⟨hzero, rfl, rfl⟩
  rename_i hlen
  rw [ref_val, bind_of_ok, if_neg (not_not.mpr herr)] at h
  dsimp only at h
  have hstart : (if s.packetQueue.length > maxBufferedPackets then
      s.packetQueue.length - maxBufferedPackets else 0) = s.packetQueue.length - 8 := by
    unfold maxBufferedPackets
    split <;> omega
  rw [hstart] at h
  exact Or.inr ⟨hlen, flushLoop_flushed conn outcome _ _ s s' blocked (by omega) h⟩

theorem tryFlushQueue_returns {s : Process}
    (h : ∀ k e, (s.packetQueue.packets k).toAddr = some e →
      e < s.packetQueue.addrStorage.length)
    (conn : Fin maxConnections) (outcome : Nat → SendOutcome) :
    ∃ blocked s', s.tryFlushQueue conn.val outcome = .ok (blocked, s') := by
  unfold tryFlushQueue
  split
  · exact ⟨_, _, rfl⟩
  rw [ref_val, bind_of_ok]
  split
  · exact ⟨_, _, rfl⟩
  · obtain ⟨⟨blocked, s'⟩, hr⟩ := flushLoop_returns conn outcome _ _ s h
    exact ⟨blocked, s', hr⟩

/-- A flush on a connection with an error is skipped. -/
theorem tryFlushQueue_skipped {s s' : Process} {conn : Fin maxConnections} {blocked : Bool}
    {outcome : Nat → SendOutcome} (herr : (s.conns conn).error ≠ .none)
    (h : s.tryFlushQueue conn.val outcome = .ok (blocked, s')) : blocked = false ∧ s' = s := by
  unfold tryFlushQueue at h
  split at h
  · cases h
    exact ⟨rfl, rfl⟩
  rw [ref_val, bind_of_ok, if_pos herr] at h
  cases h
  exact ⟨rfl, rfl⟩

/-- **A flush of any connection** that returns has offered what waits, or done nothing. -/
theorem tryFlushQueue_cases {s s' : Process} {connId : Nat} {blocked : Bool}
    {outcome : Nat → SendOutcome} (h : s.tryFlushQueue connId outcome = .ok (blocked, s')) :
    s' = s ∨ ∃ conn : Fin maxConnections, conn.val = connId ∧
      Flushed s conn outcome s.waiting blocked s' := by
  by_cases hlen : s.packetQueue.length = 0
  · unfold tryFlushQueue at h
    rw [if_pos hlen] at h
    cases h
    exact Or.inl rfl
  · obtain ⟨conn, hconn⟩ : ∃ conn, ref connId = .ok conn := by
      unfold tryFlushQueue at h
      rw [if_neg hlen] at h
      obtain ⟨conn, hconn, -⟩ := bind_returns.mp h
      exact ⟨conn, hconn⟩
    rw [ref_eq_ok.mp hconn] at h ⊢
    by_cases herr : (s.conns conn).error = .none
    · rcases tryFlushQueue_flushed herr h with ⟨-, -, hsame⟩ | ⟨-, hf⟩
      · exact Or.inl hsame
      · exact Or.inr ⟨conn, rfl, hf⟩
    · exact Or.inl (tryFlushQueue_skipped herr h).2

/-- **One round of `update`** flushes on a connection that can be used, and passes over any
other. -/
theorem updateOne_cases {s s' : Process} {conn : Fin maxConnections}
    {outcome : Nat → SendOutcome} (h : updateOne outcome s conn = .ok s') :
    ¬ s.usable conn.val = true ∧ s' = s ∨ s.usable conn.val = true ∧
      ∃ blocked, s.tryFlushQueue conn.val outcome = .ok (blocked, s') := by
  unfold updateOne at h
  rw [usable_val, not_not]
  by_cases hact : (s.conns conn).state = .active
  · rw [if_neg (not_not.mpr hact)] at h
    obtain ⟨⟨blocked, t⟩, ht, h⟩ := bind_returns.mp h
    cases h
    by_cases herr : (s.conns conn).error = .none
    · exact Or.inr ⟨not_or.mpr ⟨not_not.mpr herr, not_not.mpr hact⟩, blocked, ht⟩
    · exact Or.inl ⟨Or.inl herr, (tryFlushQueue_skipped herr ht).2⟩
  · rw [if_pos hact] at h
    exact Or.inl ⟨Or.inr hact, (Except.ok.inj h).symm⟩

/-- What every flush does, `update` does. -/
theorem update_rel {s s' : Process} {os : SendAnswers} {R : Process → Process → Prop}
    (hrefl : ∀ t, R t t) (htrans : ∀ t u v, R t u → R u v → R t v)
    (hflush : ∀ (t : Process) (conn : Fin maxConnections) (blocked : Bool) (t' : Process),
      t.tryFlushQueue conn.val os.outcome = .ok (blocked, t') → R t t')
    (h : s.update os = .ok s') : R s s' := by
  refine foldlM_rel hrefl htrans (fun t conn t' ht => ?_) _ s s' h
  rcases updateOne_cases ht with ⟨-, rfl⟩ | ⟨-, blocked, hr⟩
  · exact hrefl t'
  · exact hflush t conn blocked t' hr

end Process

end Ytl.Udp
