/-
On which sockets the system is called.

A descriptor is never given back, so the numbers `socket` returns are all different.  Every call
is made on one of them, and all the calls on one are made for the same connection.

A socket on which a call has failed is not called again, with one exception: `send` does not
look whether the flush at its start has failed, and calls the system with its own datagram all
the same.

The invariant names, for every descriptor that was opened, the connection it was opened for.
That function is not in the code and cannot be: the pool forgets the descriptor of a slot it
resets.  It grows by one entry for each call that gets a socket, and no entry ever changes,
because `socket` is promised to return a number it has not returned before.
-/
import Ytl.Proofs.Udp.Routing
import Ytl.Proofs.Udp.Slots

namespace Ytl.Udp

namespace Process

variable {s s' t : Process} {conn : Fin maxConnections} {outcome : Nat → SendOutcome}
  {blocked : Bool} {calls : List SendCall}

/-! ### The calls on one connection

`Spoke` is what a call of the pool comes to that sends on one connection: some calls of the
system, all on the socket of that connection, and a connection that has an error if the last
of them has failed.
-/

theorem OnlyErrors.usable (h : OnlyErrors s s') {i : Fin maxConnections}
    (huse : s'.usable i.val = true) : s.usable i.val = true := by
  obtain ⟨e, he, hkeep⟩ := h.conns i
  obtain ⟨herr, hact⟩ := not_or.mp ((usable_val s' i).mp huse)
  rw [he] at herr hact
  rw [usable_val, not_or, not_not]
  refine ⟨?_, hact⟩
  by_contra hne
  exact herr (hkeep hne)

theorem OnlyErrors.endpoint (h : OnlyErrors s s') (i : Fin maxConnections) :
    s'.endpoint i = s.endpoint i := by
  unfold Process.endpoint
  rw [h.sameSlots.socket i]

/-- The system was called on `conn`, and no connection has changed but for an error.  When a
call has failed the connection cannot be used any more; if there is one after it, that is not
for a packet of the queue. -/
structure Spoke (s : Process) (conn : Fin maxConnections) (calls : List SendCall)
    (s' : Process) : Prop where
  errors : OnlyErrors s s'
  sockets : s'.sockets = s.sockets
  sends : s'.sends = s.sends ++ calls
  via : ∀ c ∈ calls, c.via = s.endpoint conn ∧ s.usable conn.val = true
  failed : ∀ pre c post, calls = pre ++ c :: post → c.outcome = .failed →
    ¬ s'.usable conn.val = true ∧
      (post = [] ∨ ∃ d, post = [d] ∧ c.serial ≠ none ∧ d.serial = none)

/-- Nothing was called. -/
theorem Spoke.silent (herrors : OnlyErrors s s') (hsockets : s'.sockets = s.sockets)
    (hsends : s'.sends = s.sends) (conn : Fin maxConnections) : Spoke s conn [] s' := by
  refine ⟨herrors, hsockets, ?_, fun _ hc => absurd hc List.not_mem_nil, fun pre c post h => ?_⟩
  · rw [hsends, List.append_nil]
  · exact absurd h.symm (List.append_ne_nil_of_right_ne_nil pre (List.cons_ne_nil c post))

/-- What a step that only notes something adds to it. -/
theorem Spoke.trans_silent (h : Spoke s conn calls t) (herrors : OnlyErrors t s')
    (hsockets : s'.sockets = t.sockets) (hsends : s'.sends = t.sends) :
    Spoke s conn calls s' := by
  refine ⟨h.errors.trans herrors, hsockets.trans h.sockets, hsends.trans h.sends, h.via, ?_⟩
  intro pre c post hsplit hc
  obtain ⟨huse, hpost⟩ := h.failed pre c post hsplit hc
  exact ⟨fun huse' => huse (herrors.usable huse'), hpost⟩

/-! ### A flush

A failed call ends the flush, so it is the last one.
-/

theorem tryFlushQueue_sockets {connId : Nat}
    (h : s.tryFlushQueue connId outcome = .ok (blocked, t)) : t.sockets = s.sockets := by
  rcases tryFlushQueue_cases h with rfl | ⟨conn, -, hf⟩
  · rfl
  · rw [hf.rest]

/-- All calls of a flush are for packets of the queue, and one that has failed is the last. -/
theorem tryFlushQueue_spoke (huse : s.usable conn.val = true)
    (h : s.tryFlushQueue conn.val outcome = .ok (blocked, t)) :
    ∃ calls, Spoke s conn calls t ∧ (∀ c ∈ calls, c.serial ≠ none) ∧
      ∀ pre c post, calls = pre ++ c :: post → c.outcome = .failed → post = [] := by
  have herrors := tryFlushQueue_onlyErrors h
  have hsockets := tryFlushQueue_sockets h
  have herr := not_not.mp (not_or.mp ((usable_val s conn).mp huse)).1
  rcases tryFlushQueue_flushed herr h with ⟨-, -, rfl⟩ | ⟨-, hf⟩
  · refine ⟨[], Spoke.silent (OnlyErrors.refl t) rfl rfl conn,
      fun _ hc => absurd hc List.not_mem_nil, fun pre c post hsplit => ?_⟩
    exact absurd hsplit.symm (List.append_ne_nil_of_right_ne_nil pre (List.cons_ne_nil c post))
  have hlast : ∀ pre c post, (offer outcome SendOutcome.isSent s.sends.length s.waiting).map
      (fun p => s.callAt conn p.1 p.2) = pre ++ c :: post → c.outcome = .failed →
      post = [] ∧ ¬ t.usable conn.val = true := by
    intro pre c post hsplit hc
    obtain ⟨pre', rest', hoffer, -, hmap⟩ := List.map_eq_append_iff.mp hsplit
    obtain ⟨p, post', rfl, rfl, rfl⟩ := List.map_eq_cons_iff.mp hmap
    obtain ⟨hpost, hrefusal⟩ := refused_last _ _ _ hoffer (by rw [show p.2 = .failed from hc]; rfl)
    rw [hpost]
    refine ⟨rfl, fun huse' => ?_⟩
    have hends := hf.ends
    rw [hrefusal, show p.2 = .failed from hc] at hends
    have herr' := not_not.mp (not_or.mp ((usable_val t conn).mp huse')).1
    rw [hends.2.1] at herr'
    unfold setError at herr'
    rw [setConn_self] at herr'
    cases herr'
  refine ⟨_, ⟨herrors, hsockets, hf.sends, fun c hc => ?_, fun pre c post hsplit hc => ?_⟩,
    fun c hc => ?_, fun pre c post hsplit hc => (hlast pre c post hsplit hc).1⟩
  · obtain ⟨p, -, rfl⟩ := List.mem_map.mp hc
    exact ⟨rfl, huse⟩
  · obtain ⟨hpost, huse'⟩ := hlast pre c post hsplit hc
    exact ⟨huse', Or.inl hpost⟩
  · obtain ⟨p, -, rfl⟩ := List.mem_map.mp hc
    exact nofun

/-! ### Sending

The flush at the start of `send` may fail and the datagram that was given is offered all the
same.  This is the one case in which a call follows a failed one on the same socket.
-/

/-- The call after the flush, with the datagram that was given to `send`. -/
theorem Spoke.hand (h : Spoke s conn calls t) (huse : s.usable conn.val = true)
    (hserial : ∀ c ∈ calls, c.serial ≠ none)
    (hlast : ∀ pre c post, calls = pre ++ c :: post → c.outcome = .failed → post = [])
    (addr : Option Address) (data : List UInt8) {ret : SendOutcome}
    (herrors : OnlyErrors (t.handOver conn addr data ret) s') (hsockets : s'.sockets = t.sockets)
    (hsends : s'.sends = (t.handOver conn addr data ret).sends)
    (hfail : ret = .failed → ¬ s'.usable conn.val = true) :
    Spoke s conn (calls ++ [t.ownCall conn addr data ret]) s' := by
  have herrors' : OnlyErrors t s' := herrors.of_record rfl rfl
  refine ⟨h.errors.trans herrors', hsockets.trans h.sockets, ?_, ?_, ?_⟩
  · rw [hsends, ← List.append_assoc, ← h.sends]
    rfl
  · intro c hc
    rcases List.mem_append.mp hc with hc | hc
    · exact h.via c hc
    · rw [List.mem_singleton.mp hc]
      exact ⟨h.errors.endpoint conn, huse⟩
  · intro pre c post hsplit hc
    -- the failed call is one of the flush, or the last
    rcases List.append_eq_append_iff.mp hsplit with ⟨mid, rfl, hmid⟩ | ⟨mid, hcalls, hmid⟩
    · obtain ⟨rfl, hcons⟩ | ⟨mid', rfl, hnil⟩ := List.cons_eq_append_iff.mp hmid
      · obtain ⟨rfl, rfl⟩ := List.cons.inj hcons
        exact ⟨hfail hc, Or.inl rfl⟩
      · exact absurd hnil.symm
          (List.append_ne_nil_of_right_ne_nil mid' (List.cons_ne_nil c post))
    · obtain ⟨rfl, hcons⟩ | ⟨mid', rfl, rfl⟩ := List.cons_eq_append_iff.mp hmid
      · obtain ⟨rfl, rfl⟩ := List.cons.inj hcons
        exact ⟨hfail hc, Or.inl rfl⟩
      · obtain ⟨hgone, -⟩ := h.failed pre c mid' hcalls hc
        have hnone : mid' = [] := hlast pre c mid' hcalls hc
        refine ⟨fun huse' => hgone (herrors'.usable huse'), Or.inr ⟨t.ownCall conn addr data ret,
          ?_, hserial c (by rw [hcalls]; simp), rfl⟩⟩
        rw [hnone, List.nil_append]

theorem queuePacket_sockets {owner : Endpoint} {addr : Option Address} {data : List UInt8}
    {a : Alloc} {r : SendResult} (h : s.queuePacket owner addr data a = .ok (r, s')) :
    s'.sockets = s.sockets := by
  obtain ⟨t, ht, hs'⟩ := queuePacket_steps (QueueOnly.queueSteps _) h
  have hsame : t.sockets = s.sockets := by
    rw [ht]
    rfl
  rcases hs' with rfl | ⟨d, rfl⟩
  · exact hsame
  · exact hsame

/-- **A call of `send` or `send_to`.** -/
theorem sendVia_spoke {connId : Nat} {addr : Option Address} {data : List UInt8}
    {os : SendAnswers} {r : SendResult} (h : s.sendVia connId addr data os = .ok (r, s')) :
    ∃ conn calls, Spoke s conn calls s' := by
  obtain ⟨conn, -, hexit⟩ := sendVia_sends h
  refine ⟨conn, ?_⟩
  cases hexit with
  | skipped _ => exact ⟨[], Spoke.silent (OnlyErrors.refl s) rfl rfl conn⟩
  | blocked huse hflush hqueue =>
      obtain ⟨calls, hspoke, -, -⟩ := tryFlushQueue_spoke huse hflush
      exact ⟨calls, hspoke.trans_silent (queuePacket_onlyErrors hqueue)
        (queuePacket_sockets hqueue) (queuePacket_sends hqueue)⟩
  | sent huse hflush _ =>
      obtain ⟨calls, hspoke, hserial, hlast⟩ := tryFlushQueue_spoke huse hflush
      exact ⟨_, hspoke.hand huse hserial hlast addr data (OnlyErrors.refl _) rfl rfl nofun⟩
  | refused huse hflush _ hqueue =>
      obtain ⟨calls, hspoke, hserial, hlast⟩ := tryFlushQueue_spoke huse hflush
      have hsockets := queuePacket_sockets hqueue
      exact ⟨_, hspoke.hand huse hserial hlast addr data (queuePacket_onlyErrors hqueue)
        hsockets (queuePacket_sends hqueue) nofun⟩
  | @failed t huse hflush _ =>
      obtain ⟨calls, hspoke, hserial, hlast⟩ := tryFlushQueue_spoke huse hflush
      refine ⟨_, hspoke.hand huse hserial hlast addr data
        (OnlyErrors.setError _ conn (e := .sendFailed) nofun) rfl rfl fun _ huse' => ?_⟩
      have herr := not_not.mp (not_or.mp ((usable_val _ conn).mp huse')).1
      unfold setError at herr
      rw [setConn_self] at herr
      cases herr

/-- One round of `update`. -/
theorem updateOne_spoke (h : updateOne outcome s conn = .ok s') :
    ∃ calls, Spoke s conn calls s' := by
  rcases updateOne_cases h with ⟨-, rfl⟩ | ⟨huse, blocked, ht⟩
  · exact ⟨[], Spoke.silent (OnlyErrors.refl s') rfl rfl conn⟩
  · obtain ⟨calls, hspoke, -, -⟩ := tryFlushQueue_spoke huse ht
    exact ⟨calls, hspoke⟩

/-! ### Opening, receiving and closing

None of these calls the system to send.  `Muted` is for the ones that get no new descriptor
either, and `Wires` for those that do.
-/

theorem releaseAll_sockets (s : Process) (l : List (Fin maxConnections)) :
    (s.releaseAll l).sockets = s.sockets := by
  have hfree : ∀ (t : Process) (b : Option Block), (t.free b).sockets = t.sockets := by
    intro t b
    cases b <;> rfl
  induction l with
  | nil => rfl
  | cons i rest ih => exact (hfree _ _).trans ih

/-- The system was not called to send, no descriptor is new, and connections that are in use
were so before, with the same descriptor and any error they had. -/
structure Muted (s s' : Process) : Prop where
  sends : s'.sends = s.sends
  sockets : s'.sockets = s.sockets
  busy : ∀ i, ¬ s'.IsFree i → ¬ s.IsFree i
  socket : ∀ i, ¬ s'.IsFree i → (s'.conns i).socket = (s.conns i).socket
  usable : ∀ i : Fin maxConnections, s'.usable i.val = true → s.usable i.val = true

namespace Muted

theorem refl (s : Process) : Muted s s := ⟨rfl, rfl, fun _ h => h, fun _ _ => rfl, fun _ h => h⟩

theorem trans (h : Muted s t) (h' : Muted t s') : Muted s s' :=
  ⟨h'.sends.trans h.sends, h'.sockets.trans h.sockets, fun i hi => h.busy i (h'.busy i hi),
    fun i hi => (h'.socket i hi).trans (h.socket i (h'.busy i hi)),
    fun i hi => h.usable i (h'.usable i hi)⟩

theorem of_errors (h : OnlyErrors s s') (hsends : s'.sends = s.sends)
    (hsockets : s'.sockets = s.sockets) : Muted s s' := by
  refine ⟨hsends, hsockets, fun i hi hfree => hi ?_, fun i _ => h.sameSlots.socket i,
    fun i hi => h.usable hi⟩
  exact (h.sameSlots.state i).trans hfree

/-- Writing a connection that can be used, and leaving its descriptor alone. -/
theorem setConn (huse : s.usable conn.val = true) {c : ConnectionData}
    (hsock : c.socket = (s.conns conn).socket) : Muted s (s.setConn conn c) := by
  have hbusy : ¬ s.IsFree conn :=
    not_isFree_of_active (not_not.mp (not_or.mp ((usable_val s conn).mp huse)).2)
  have hother : ∀ i, i ≠ conn → (s.setConn conn c).conns i = s.conns i :=
    fun i hi => setConn_of_ne s c hi
  refine ⟨rfl, rfl, fun i hi => ?_, fun i _ => ?_, fun i hi => ?_⟩
  · by_cases hic : i = conn
    · rw [hic]
      exact hbusy
    · unfold IsFree at hi ⊢
      rw [hother i hic] at hi
      exact hi
  · by_cases hic : i = conn
    · rw [hic, setConn_self, hsock]
    · rw [hother i hic]
  · by_cases hic : i = conn
    · rw [hic]
      exact huse
    · rw [usable_val] at hi ⊢
      rw [hother i hic] at hi
      exact hi

theorem releaseAll (s : Process) (l : List (Fin maxConnections)) : Muted s (s.releaseAll l) := by
  have hout : ∀ {i}, ¬ (s.releaseAll l).IsFree i →
      ¬ s.IsFree i ∧ (s.releaseAll l).conns i = s.conns i := by
    intro i hi
    obtain ⟨hmem, hfree⟩ := not_or.mp (mt releaseAll_isFree.mpr hi)
    exact ⟨hfree, by rw [releaseAll_conns, if_neg hmem]⟩
  refine ⟨(releaseAll_sameQueue s l).sends, releaseAll_sockets s l, fun i hi => (hout hi).1,
    fun i hi => by rw [(hout hi).2], fun i hi => ?_⟩
  obtain ⟨herr, hact⟩ := not_or.mp ((usable_val _ i).mp hi)
  rw [(hout (not_isFree_of_active (not_not.mp hact))).2] at herr hact
  exact (usable_val s i).mpr (not_or.mpr ⟨herr, hact⟩)

theorem close {id : Nat} (h : s.close id = .ok s') : Muted s s' := by
  obtain ⟨i, l, -, -, rfl⟩ := close_walk h
  exact releaseAll s l

theorem receive {connId : Nat} {os : RecvAnswers} {before after : Address → Address} {r : Bool}
    (h : s.receive connId os before after = .ok (r, s')) : Muted s s' := by
  obtain ⟨conn, -, hexit⟩ := receive_receives h
  -- the buffer may have been enlarged; the connections are as before
  have hset : ∀ (n : Nat) (c : ConnectionData), s.usable conn.val = true →
      c.socket = (s.conns conn).socket →
      Muted s ((s.roomFor (s.conns conn) n os.realloc).2.setConn conn c) := by
    intro n c huse hsock
    rw [roomFor_fields]
    generalize (s.roomFor (s.conns conn) n os.realloc).2.blocks = b
    have hroom : Muted s { s with blocks := b } := of_errors (OnlyErrors.of_conns rfl rfl) rfl rfl
    have huse' : ({ s with blocks := b } : Process).usable conn.val = true := huse
    exact hroom.trans (setConn huse' hsock)
  cases hexit with
  | skipped _ => exact refl s
  | unread _ _ => exact of_errors (OnlyErrors.setError s conn nofun) rfl rfl
  | empty huse _ => exact setConn huse rfl
  | refused huse _ _ _ => exact setConn huse rfl
  | failed huse _ _ _ _ => exact hset _ _ huse rfl
  | received huse _ _ _ _ _ => exact hset _ _ huse rfl

theorem recvFromAll {connIds : List Nat} {os : PollAnswers}
    (h : s.recvFromAll connIds os = .ok s') : Muted s s' :=
  recvFromAll_rel refl (fun _ _ _ => trans)
    (fun t conn => of_errors (OnlyErrors.setError t conn nofun) rfl rfl)
    (fun _ _ _ _ _ => receive) h

end Muted

/-- Slot `i` was free and has been tried to connect to the new descriptor `fd`. -/
structure Wires (s : Process) (i : Fin maxConnections) (fd : Int) (s' : Process) : Prop where
  sends : s'.sends = s.sends
  others : ∀ j, j ≠ i → ∃ e, s'.conns j = { s.conns j with error := e } ∧
    ((s.conns j).error ≠ .none → e ≠ .none)
  sockets : s'.sockets = s.sockets ∧ s'.IsFree i ∨
    fd ≠ -1 ∧ s'.sockets = s.sockets ++ [fd] ∧ (¬ s'.IsFree i → (s'.conns i).socket = fd)

theorem initSocket_sockets {sock : Int} {getfl : Bool} (h : s.initSocket sock getfl = .ok s') :
    s'.sockets = s.sockets := by
  rw [(initSocket_conns h).2]

/-- Only an error of another connection may have changed. -/
theorem Launch.others {i j : Fin maxConnections} {a : Alloc} {fd : Int} {getfl done : Bool}
    {r : Except Fault (Nat × Process)} {index : Nat} (h : Launch s i a fd getfl done r)
    (hr : r = .ok (index, s')) (hj : j ≠ i) : ∃ e, s'.conns j = { s.conns j with error := e } ∧
      ((s.conns j).error ≠ .none → e ≠ .none) := by
  cases h with
  | fail ht _ _ e _ =>
      cases hr
      exact ⟨(s.conns j).error, (setConn_of_ne _ _ hj).trans (ht.others j hj), id⟩
  | finish ht _ _ addr =>
      obtain ⟨t', ht', hlast⟩ := bind_returns.mp hr
      cases hlast
      obtain ⟨e, he, hkeep⟩ := (initSocket_onlyErrors ht').conns j
      rw [ht.others j hj] at he hkeep
      exact ⟨e, (setConn_of_ne _ _ hj).trans he, hkeep⟩

/-- A slot that is not in use after the call has an error, or there is a connection in it. -/
theorem Launch.wires {i : Fin maxConnections} {a : Alloc} {fd : Int} {getfl done : Bool}
    {r : Except Fault (Nat × Process)} {index : Nat} (h : Launch s i a fd getfl done r)
    (hr : r = .ok (index, s')) (hfree : s.IsFree i) : Wires s i fd s' := by
  obtain ⟨-, ho⟩ := h.opened hr
  refine ⟨(h.sameQueue hr).sends, fun j hj => h.others hr hj, ?_⟩
  have hstate := ho.state
  cases h with
  | fail ht _ hsockets e _ =>
      cases hr
      have hfree' : (_ : Process).IsFree i := hstate.trans hfree
      rcases hsockets with hsame | ⟨hfd, hnew⟩
      · exact Or.inl ⟨hsame, hfree'⟩
      · exact Or.inr ⟨hfd, hnew, fun hbusy => absurd hfree' hbusy⟩
  | finish ht _ hsockets addr =>
      obtain ⟨t', ht', hlast⟩ := bind_returns.mp hr
      cases hlast
      exact Or.inr ⟨hsockets.1, (initSocket_sockets ht').trans hsockets.2, fun _ => ho.socket rfl⟩

end Process

/-! ### Who is on which socket

The calls so far are told apart by their sockets, and each operation adds calls on one socket
only, or on one after the other.  So the record is looked at one socket at a time.
-/

open Process

/-- There was no slot left, or one was taken. -/
theorem Attempt.wires {s s' : Process} {a : Alloc} {fd : Int} {getfl done : Bool}
    {r : Except Fault (Nat × Process)} {index : Nat} (h : Attempt s a fd getfl done r)
    (hr : r = .ok (index, s')) : s' = s ∨ ∃ i, s.IsFree i ∧ Wires s i fd s' := by
  cases h with
  | full _ =>
      cases hr
      exact Or.inl rfl
  | @taken i r hfree _ hl => exact Or.inr ⟨i, hfree, hl.wires hr hfree⟩

/-- After a call that has failed there is none on its socket; but one with a datagram that
`send` was called with may come right after one for a packet of the queue. -/
def Quiet (calls : List SendCall) : Prop :=
  ∀ pre c mid d post, calls = pre ++ c :: (mid ++ d :: post) → c.outcome = .failed →
    d.via.fd = c.via.fd → mid = [] ∧ c.serial ≠ none ∧ d.serial = none

theorem Quiet.append {before calls : List SendCall} (h : Quiet before)
    (hold : ∀ b ∈ before, b.outcome = .failed → ∀ c ∈ calls, c.via.fd ≠ b.via.fd)
    (hnew : ∀ pre c post, calls = pre ++ c :: post → c.outcome = .failed →
      post = [] ∨ ∃ d, post = [d] ∧ c.serial ≠ none ∧ d.serial = none) :
    Quiet (before ++ calls) := by
  intro pre c mid d post hsplit hc hfd
  have hboth : ∀ x, calls = x ++ c :: (mid ++ d :: post) →
      mid = [] ∧ c.serial ≠ none ∧ d.serial = none := by
    intro x hx
    rcases hnew x c _ hx hc with hnil | ⟨d', hd', hserial⟩
    · exact absurd hnil (List.append_ne_nil_of_right_ne_nil mid (List.cons_ne_nil d post))
    · cases mid with
      | nil =>
          obtain ⟨rfl, -⟩ := List.cons.inj hd'
          exact ⟨rfl, hserial⟩
      | cons m mid => simp at hd'
  rcases List.append_eq_append_iff.mp hsplit with ⟨x, -, hx⟩ | ⟨x, hx, hrest⟩
  · exact hboth x hx
  rcases List.cons_eq_append_iff.mp hrest with ⟨-, hcalls⟩ | ⟨y, rfl, hy⟩
  · exact hboth [] hcalls
  have hmem : c ∈ before := by rw [hx]; simp
  rcases List.append_eq_append_iff.mp hy with ⟨z, rfl, hz⟩ | ⟨z, rfl, hz⟩
  · rcases List.cons_eq_append_iff.mp hz with ⟨-, hcalls⟩ | ⟨w, rfl, -⟩
    · exact absurd hfd (hold c hmem hc d (by rw [hcalls]; simp))
    · exact h pre c mid d w hx hc hfd
  · exact absurd hfd (hold c hmem hc d (by rw [hz]; simp))

/-- `who` says for which connection a descriptor was opened. -/
structure Wired (s : Process) (who : Int → Option Nat) : Prop where
  slots : SlotsOK s
  nodup : s.sockets.Nodup
  opened : ∀ i, ¬ s.IsFree i →
    (s.conns i).socket ∈ s.sockets ∧ who (s.conns i).socket = some i.val
  made : ∀ c ∈ s.sends, c.via.fd ∈ s.sockets ∧ who c.via.fd = c.via.conn
  burnt : ∀ c ∈ s.sends, c.outcome = .failed → ∀ i : Fin maxConnections,
    s.usable i.val = true → (s.conns i).socket ≠ c.via.fd
  quiet : Quiet s.sends

namespace Wired

variable {s s' : Process} {who : Int → Option Nat} {calls : List SendCall}

theorem busy (i : Fin maxConnections) (h : s.usable i.val = true) : ¬ s.IsFree i :=
  not_isFree_of_active (not_not.mp (not_or.mp ((usable_val s i).mp h)).2)

/-- Calls on one socket, as long as no call on it has failed. -/
theorem calls_on (h : Wired s who) (hok : SlotsOK s') (herrors : OnlyErrors s s')
    (hsockets : s'.sockets = s.sockets) (hsends : s'.sends = s.sends ++ calls) (e : Endpoint)
    (hvia : ∀ c ∈ calls, c.via = e ∧ e.fd ∈ s.sockets ∧ who e.fd = e.conn ∧
      ∀ b ∈ s.sends, b.outcome = .failed → e.fd ≠ b.via.fd)
    (hfailed : ∀ pre c post, calls = pre ++ c :: post → c.outcome = .failed →
      (∀ i : Fin maxConnections, s'.usable i.val = true → (s'.conns i).socket ≠ e.fd) ∧
        (post = [] ∨ ∃ d, post = [d] ∧ c.serial ≠ none ∧ d.serial = none)) :
    Wired s' who := by
  have hsock : ∀ i, (s'.conns i).socket = (s.conns i).socket := herrors.sameSlots.socket
  have hfree : ∀ i, s.IsFree i → s'.IsFree i :=
    fun i hi => (herrors.sameSlots.state i).trans hi
  refine ⟨hok, by rw [hsockets]; exact h.nodup, fun i hi => ?_, fun c hc => ?_,
    fun c hc hf i hi => ?_, ?_⟩
  · rw [hsock, hsockets]
    exact h.opened i (mt (hfree i) hi)
  · rw [hsockets]
    rw [hsends] at hc
    rcases List.mem_append.mp hc with hc | hc
    · exact h.made c hc
    · obtain ⟨rfl, hmem, hwho, -⟩ := hvia c hc
      exact ⟨hmem, hwho⟩
  · rw [hsends] at hc
    rcases List.mem_append.mp hc with hc | hc
    · rw [hsock]
      exact h.burnt c hc hf i (herrors.usable hi)
    · obtain ⟨pre, post, hsplit⟩ := List.append_of_mem hc
      rw [(hvia c hc).1]
      exact (hfailed pre c post hsplit hf).1 i hi
  · rw [hsends]
    refine h.quiet.append (fun b hb hf c hc => ?_) fun pre c post hsplit hf =>
      (hfailed pre c post hsplit hf).2
    obtain ⟨rfl, -, -, hold⟩ := hvia c hc
    exact hold b hb hf

theorem spoke {conn : Fin maxConnections} (h : Wired s who) (hok : SlotsOK s')
    (hs : Spoke s conn calls s') : Wired s' who := by
  refine h.calls_on hok hs.errors hs.sockets hs.sends (s.endpoint conn) (fun c hc => ?_)
    fun pre c post hsplit hf => ?_
  · obtain ⟨hvia, huse⟩ := hs.via c hc
    obtain ⟨hmem, hwho⟩ := h.opened conn (busy conn huse)
    exact ⟨hvia, hmem, hwho, fun b hb hf => h.burnt b hb hf conn huse⟩
  · obtain ⟨huse', hpost⟩ := hs.failed pre c post hsplit hf
    refine ⟨fun i hi hsock => huse' ?_, hpost⟩
    -- only `conn` is on this socket
    have huse := (hs.via c (by rw [hsplit]; simp)).2
    rw [hs.errors.sameSlots.socket] at hsock
    have hwho := (h.opened i (busy i (hs.errors.usable hi))).2
    rw [hsock] at hwho
    have hsame := hwho.symm.trans (h.opened conn (busy conn huse)).2
    rw [← Option.some.inj hsame]
    exact hi

theorem muted (h : Wired s who) (hok : SlotsOK s') (hm : Muted s s') : Wired s' who := by
  refine ⟨hok, by rw [hm.sockets]; exact h.nodup, fun i hi => ?_, ?_, fun c hc hf i hi => ?_, ?_⟩
  · rw [hm.socket i hi, hm.sockets]
    exact h.opened i (hm.busy i hi)
  · rw [hm.sends, hm.sockets]
    exact h.made
  · rw [hm.sends] at hc
    rw [hm.socket i (busy i hi)]
    exact h.burnt c hc hf i (hm.usable i hi)
  · rw [hm.sends]
    exact h.quiet

/-- The socket is new, and `x` is told about it. -/
theorem opened_socket (h : Wired s who) (hok : SlotsOK s') {fd : Int} (hfd : fd ∉ s.sockets)
    (x : Option Nat) (hsends : s'.sends = s.sends) (hsockets : s'.sockets = s.sockets ++ [fd])
    (hconns : ∀ j, ¬ s'.IsFree j → (s'.conns j).socket = fd ∧ x = some j.val ∨
      ¬ s.IsFree j ∧ (s'.conns j).socket = (s.conns j).socket ∧
        (s'.usable j.val = true → s.usable j.val = true)) :
    Wired s' (Function.update who fd x) := by
  have hkeep : ∀ {g : Int}, g ∈ s.sockets → Function.update who fd x g = who g := by
    intro g hg
    rw [Function.update_of_ne]
    rintro rfl
    exact hfd hg
  refine ⟨hok, ?_, fun j hj => ?_, fun c hc => ?_, fun c hc hf j hj => ?_, ?_⟩
  · rw [hsockets]
    exact List.nodup_append.mpr ⟨h.nodup, List.nodup_singleton fd, fun a ha b hb hab =>
      hfd (List.mem_singleton.mp hb ▸ hab ▸ ha)⟩
  · rw [hsockets]
    rcases hconns j hj with ⟨hsock, hx⟩ | ⟨hbusy, hsock, -⟩
    · rw [hsock, Function.update_self]
      exact ⟨by simp, hx⟩
    · obtain ⟨hmem, hwho⟩ := h.opened j hbusy
      rw [hsock, hkeep hmem]
      exact ⟨List.mem_append_left _ hmem, hwho⟩
  · rw [hsends] at hc
    obtain ⟨hmem, hwho⟩ := h.made c hc
    rw [hsockets, hkeep hmem]
    exact ⟨List.mem_append_left _ hmem, hwho⟩
  · rw [hsends] at hc
    rcases hconns j (busy j hj) with ⟨hsock, -⟩ | ⟨-, hsock, huse⟩
    · rw [hsock]
      rintro rfl
      exact hfd (h.made c hc).1
    · rw [hsock]
      exact h.burnt c hc hf j (huse hj)
  · rw [hsends]
    exact h.quiet

theorem wires {i : Fin maxConnections} {fd : Int} (h : Wired s who) (hok : SlotsOK s')
    (hfresh : Fresh s fd) (hi : s.IsFree i) (hw : Wires s i fd s') : ∃ who', Wired s' who' := by
  have hbusy : ∀ j, j ≠ i → ¬ s'.IsFree j → ¬ s.IsFree j ∧
      (s'.conns j).socket = (s.conns j).socket ∧
        (s'.usable j.val = true → s.usable j.val = true) := by
    intro j hj hbusy
    obtain ⟨e, he, hkeep⟩ := hw.others j hj
    rw [IsFree, he] at hbusy
    refine ⟨hbusy, by rw [he], fun huse => ?_⟩
    rw [usable_val, not_or, he] at huse
    rw [usable_val, not_or]
    exact ⟨fun herr => huse.1 (hkeep herr), huse.2⟩
  rcases hw.sockets with ⟨hsame, hfree⟩ | ⟨hfd, hnew, hself⟩
  · have hne : ∀ j, ¬ s'.IsFree j → j ≠ i := by
      rintro j hj rfl
      exact hj hfree
    exact ⟨who, h.muted hok ⟨hw.sends, hsame, fun j hj => (hbusy j (hne j hj) hj).1,
      fun j hj => (hbusy j (hne j hj) hj).2.1,
      fun j hj => (hbusy j (hne j (busy j hj)) (busy j hj)).2.2 hj⟩⟩
  · have hunused : fd ∉ s.sockets := (hfresh.resolve_left hfd).2.2
    refine ⟨_, h.opened_socket hok hunused (some i.val) hw.sends hnew fun j hj => ?_⟩
    by_cases hji : j = i
    · rw [hji] at hj ⊢
      exact Or.inl ⟨hself hj, rfl⟩
    · exact Or.inr (hbusy j hji hj)

theorem oneshot (h : Wired s who) (hok : SlotsOK s') {host port : String} {data : List UInt8}
    {os : OneshotAnswers} {e : Error} (hfresh : Fresh s os.socket)
    (hs : s.sendOneshot host port data os = .ok (e, s')) : ∃ who', Wired s' who' := by
  rcases sendOneshot_calls hs with rfl | ⟨hfd, calls, hcalls, hlen, hclose⟩
  · exact ⟨who, h⟩
  have hunused : os.socket ∉ s.sockets := (hfresh.resolve_left hfd).2.2
  have hok₁ : ∀ sends, SlotsOK { s with sockets := s.sockets ++ [os.socket], sends := sends } :=
    fun _ => ⟨h.slots.nodup, h.slots.free⟩
  have h₁ : Wired { s with sockets := s.sockets ++ [os.socket] }
      (Function.update who os.socket none) :=
    h.opened_socket (hok₁ s.sends) hunused none rfl rfl fun j hj => Or.inr ⟨hj, rfl, id⟩
  have hnone : ∀ i, ¬ s.IsFree i → (s.conns i).socket ≠ os.socket := by
    intro i hi hsock
    exact hunused (hsock ▸ (h.opened i hi).1)
  have h₂ : Wired { s with sockets := s.sockets ++ [os.socket], sends := s.sends ++ calls }
      (Function.update who os.socket none) := by
    refine h₁.calls_on (hok₁ _) (OnlyErrors.of_conns rfl rfl) rfl rfl ⟨none, os.socket⟩
      (fun c hc => ?_) fun pre c post hsplit _ => ?_
    · refine ⟨(hcalls c hc).2.2, by simp, Function.update_self .., fun b hb _ hfd' => ?_⟩
      refine hunused ?_
      rw [show os.socket = b.via.fd from hfd']
      exact (h.made b hb).1
    · refine ⟨fun i hi => hnone i (busy i hi), Or.inl ?_⟩
      rw [hsplit, List.length_append, List.length_cons] at hlen
      exact List.eq_nil_of_length_eq_zero (by omega)
  exact ⟨_, h₂.muted hok (Muted.close hclose)⟩

/-- **One operation of any kind.** -/
theorem of_step (h : Wired s who) {op : Op} (hadm : ∀ fd ∈ op.descriptor, Fresh s fd)
    (hs : op.step s = .ok s') : ∃ who', Wired s' who' := by
  have hok : SlotsOK s' := h.slots.of_step hs
  unfold Op.step at hs
  cases op with
  | create host port connect os =>
      obtain ⟨index, hr⟩ := snd_returns.mp hs
      rcases (h.slots.create_attempt host port connect os).wires hr with rfl | ⟨i, hi, hw⟩
      · exact ⟨who, h⟩
      · exact h.wires hok (hadm os.socket rfl) hi hw
  | serve port os =>
      obtain ⟨index, hr⟩ := snd_returns.mp hs
      rcases (h.slots.serve_attempt port os).wires hr with rfl | ⟨i, hi, hw⟩
      · exact ⟨who, h⟩
      · exact h.wires hok (hadm os.socket rfl) hi hw
  | send connId data os =>
      obtain ⟨r, hr⟩ := snd_returns.mp hs
      obtain ⟨conn, calls, hspoke⟩ := sendVia_spoke hr
      exact ⟨who, h.spoke hok hspoke⟩
  | sendTo connId addr data os =>
      obtain ⟨r, hr⟩ := snd_returns.mp hs
      obtain ⟨conn, calls, hspoke⟩ := sendVia_spoke hr
      exact ⟨who, h.spoke hok hspoke⟩
  | sendToAll connIds data os =>
      refine ⟨who, sendToAll_rel (R := fun t t' => Wired t who → Wired t' who) (fun _ ht => ht)
        (fun _ _ _ htu huv ht => huv (htu ht)) (fun t id r t' hround ht => ?_) hs h⟩
      obtain ⟨conn, calls, hspoke⟩ := sendVia_spoke hround
      exact ht.spoke (ht.slots.of_sameSlots hspoke.errors.sameSlots) hspoke
  | recv connId os =>
      obtain ⟨r, hr⟩ := snd_returns.mp hs
      exact ⟨who, h.muted hok (Muted.receive hr)⟩
  | recvFrom connId os =>
      obtain ⟨r, hr⟩ := snd_returns.mp hs
      exact ⟨who, h.muted hok (Muted.receive hr)⟩
  | recvFromAll connIds os => exact ⟨who, h.muted hok (Muted.recvFromAll hs)⟩
  | update os =>
      refine ⟨who, foldlM_rel (R := fun t t' => Wired t who → Wired t' who) (fun _ ht => ht)
        (fun _ _ _ htu huv ht => huv (htu ht)) ?_ _ s s' hs h⟩
      intro t i t' hround ht
      obtain ⟨calls, hspoke⟩ := updateOne_spoke hround
      exact ht.spoke (ht.slots.of_sameSlots hspoke.errors.sameSlots) hspoke
  | close connId => exact ⟨who, h.muted hok (Muted.close hs)⟩
  | sendOneshot host port data os =>
      obtain ⟨e, hr⟩ := snd_returns.mp hs
      exact h.oneshot hok (hadm os.socket rfl) hr

theorem of_empty : Wired Process.empty fun _ => none := by
  refine ⟨SlotsOK.of_empty, List.nodup_nil, fun i hi => absurd rfl hi,
    fun c hc => absurd hc List.not_mem_nil, fun c hc => absurd hc List.not_mem_nil, ?_⟩
  intro pre c mid d post hsplit
  exact absurd hsplit.symm (List.append_ne_nil_of_right_ne_nil pre (List.cons_ne_nil c _))

theorem of_reachable (h : (pool Fresh).Reachable s) : ∃ who, Wired s who := by
  refine h.invariant (I := fun s => ∃ who, Wired s who) ?_ ?_
  · rintro s ⟨port, os, hfd, hs⟩
    rw [construct_eq] at hs
    split at hs
    · refine of_empty.of_step ?_ hs
      rintro fd ⟨⟩
      exact hfd
    · cases hs
      exact ⟨_, of_empty⟩
  · rintro s op s' ⟨who, hI⟩ hadm hs
    exact hI.of_step hadm hs

end Wired

/-! ### The two facts

Both are read off the invariant.
-/

/--
**Every socket belongs to one connection.**  In every reachable state the descriptors the pool
has opened are all different; each connection in use has one of them, and no other connection
in use has the same; and each call of the system was made on one of them, for the connection
that every other call on it was made for.
-/
theorem descriptors_apart (s : Process) (h : (pool Fresh).Reachable s) :
    s.sockets.Nodup ∧
      (∀ i, (s.conns i).state ≠ .free → (s.conns i).socket ∈ s.sockets ∧
        ∀ j, (s.conns j).state ≠ .free → (s.conns j).socket = (s.conns i).socket → j = i) ∧
      ∀ c ∈ s.sends, c.via.fd ∈ s.sockets ∧
        (∀ d ∈ s.sends, d.via.fd = c.via.fd → d.via = c.via) ∧
        ∀ i, (s.conns i).state ≠ .free → (s.conns i).socket = c.via.fd →
          c.via = s.endpoint i := by
  obtain ⟨who, hw⟩ := Wired.of_reachable h
  have hvia : ∀ {x y : Endpoint}, x.fd = y.fd → who x.fd = x.conn → who y.fd = y.conn → x = y := by
    rintro ⟨n, fd⟩ ⟨m, _⟩ rfl hx hy
    rw [show n = m from hx.symm.trans hy]
  refine ⟨hw.nodup, fun i hi => ⟨(hw.opened i hi).1, fun j hj hsock => ?_⟩, fun c hc => ?_⟩
  · have hwho := (hw.opened j hj).2
    rw [hsock, (hw.opened i hi).2] at hwho
    exact (Fin.ext (Option.some.inj hwho)).symm
  · obtain ⟨hmem, hwho⟩ := hw.made c hc
    refine ⟨hmem, fun d hd hfd => hvia hfd (hw.made d hd).2 hwho, fun i hi hsock => ?_⟩
    exact hvia hsock.symm hwho (hw.opened i hi).2

/-- Two ports and a datagram sent without a connection. -/
theorem descriptors_apart_three :
    ∃ s, (pool Fresh).Reachable s ∧ s.sockets = [3, 4, 5] ∧ s.sends.length = 2 ∧
      s.sockets.Nodup ∧ ∀ c ∈ s.sends, c.via.fd ∈ s.sockets ∧
        ∀ d ∈ s.sends, d.via.fd = c.via.fd → d.via = c.via := by
  obtain ⟨s, hs, hP⟩ := Machine.exists_reachable start_empty
    [.serve 9000 { socket := 3 }, .serve 9001 { socket := 4 }, .send 1 [1] {},
      .sendOneshot "h" "p" [2]
        { socket := 5, getaddrinfo := fun _ _ _ => some { addrLen := 16 } }]
    (fun s => decide (s.sockets = [3, 4, 5] ∧ s.sends.length = 2)) (by decide +kernel)
  obtain ⟨hsockets, hlen⟩ := of_decide_eq_true hP
  obtain ⟨hnodup, -, hcalls⟩ := descriptors_apart s hs
  exact ⟨s, hs, hsockets, hlen, hnodup, fun c hc => ⟨(hcalls c hc).1, (hcalls c hc).2.1⟩⟩

/--
**A socket that has failed is not called again, or once.**  In every reachable state, when two
calls were made on one socket and the earlier one has failed, the later one comes right after
it, is that of a `send` with its own datagram, and the one that failed was for a packet of the
queue; and a connection on that socket that is still `ACTIVE` has an error.
-/
theorem failed_socket_silent (s : Process) (h : (pool Fresh).Reachable s) (c : SendCall)
    (hfailed : c.outcome = .failed) :
    (∀ pre mid d post, s.sends = pre ++ c :: (mid ++ d :: post) → d.via.fd = c.via.fd →
      mid = [] ∧ c.serial ≠ none ∧ d.serial = none) ∧
      (c ∈ s.sends → ∀ i, (s.conns i).state = .active → (s.conns i).socket = c.via.fd →
        (s.conns i).error ≠ .none) := by
  obtain ⟨who, hw⟩ := Wired.of_reachable h
  refine ⟨fun pre mid d post hsplit hfd => hw.quiet pre c mid d post hsplit hfailed hfd,
    fun hc i hact hsock herr => hw.burnt c hc hfailed i ?_ hsock⟩
  exact (usable_val s i).mpr (not_or.mpr ⟨not_not.mpr herr, not_not.mpr hact⟩)

/-- The flush at the start of the second `send` fails, and its own datagram goes out. -/
theorem failed_socket_silent_flushed :
    ∃ s, (pool Fresh).Reachable s ∧ ∃ b c d, s.sends = [b, c, d] ∧ c.outcome = .failed ∧
      d.via.fd = c.via.fd ∧ c.serial ≠ none ∧ d.serial = none := by
  obtain ⟨s, hs, hP⟩ := Machine.exists_reachable start_empty
    [.serve 9000 { socket := 3 }, .send 0 [1] { outcome := fun _ => .wouldBlock },
      .send 0 [2] { outcome := fun n => if n = 1 then .failed else .sent }]
    (fun s => match s.sends with
      | [_, c, d] => decide (c.outcome = .failed ∧ d.via.fd = c.via.fd)
      | _ => false) (by decide +kernel)
  split at hP
  · rename_i b c d hsends
    obtain ⟨hfailed, hfd⟩ := of_decide_eq_true hP
    obtain ⟨-, hserial⟩ := (failed_socket_silent s hs c hfailed).1 [b] [] d [] hsends hfd
    exact ⟨s, hs, b, c, d, hsends, hfailed, hfd, hserial⟩
  · cases hP

end Ytl.Udp
