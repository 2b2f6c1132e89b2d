/-
What one call of `recv` or `recv_from` does.

There are six exits.  One is for a connection that cannot be used.  Two leave the buffer alone
because nothing is known to be there, one because there is no room, and the others have asked
the system for the datagram.  `Receives` has a constructor for each exit, with what is known
there and what has been written; every fact about receiving is read off it.

The two functions do the same but for the address of the sender, which `recv_from` writes and
`recv` does not; that is what `before` and `after` stand for.  The converse is proved as well: in
a state that an exit is for, the call returns there.  So the exits are not only what may be found
after a call that has returned, but a way to show that one returns.
-/
import Ytl.Proofs.Udp.Close

namespace Ytl.Udp.Process

/-- The connection is `ACTIVE` and has no error. -/
def usable (s : Process) (id : Nat) : Bool :=
  match ref id with
  | .ok conn => decide ((s.conns conn).error = .none ∧ (s.conns conn).state = .active)
  | .error _ => false

/-- The buffer with room for `n` bytes. -/
def roomFor (s : Process) (c : ConnectionData) (n : Nat) (a : Alloc) : Option Block × Process :=
  if n > c.maxPacketSize then s.realloc c.recvBuffer n a else (c.recvBuffer, s)

/-- How large the buffer is for the pool then. -/
def sizeFor (c : ConnectionData) (n : Nat) : Nat :=
  if n > c.maxPacketSize then n else c.maxPacketSize

/-- The exits of a call on the slot `conn`. -/
inductive Receives (s : Process) (conn : Fin maxConnections) (os : RecvAnswers)
    (before after : Address → Address) : Bool → Process → Prop
  | skipped (huse : ¬ s.usable conn.val = true) : Receives s conn os before after false s
  | unread (huse : s.usable conn.val = true) (hlen : os.fionread = none) :
      Receives s conn os before after false (s.setError conn .failedToReadIoLen)
  | empty (huse : s.usable conn.val = true) (hlen : os.fionread = some 0) :
      Receives s conn os before after false (s.setConn conn { s.conns conn with dataLen := 0 })
  | refused {n : Nat} (huse : s.usable conn.val = true) (hlen : os.fionread = some n)
      (hn : (s.conns conn).maxPacketSize < n) (hno : os.realloc.granted = false) :
      Receives s conn os before after false
        (s.setConn conn { s.conns conn with dataLen := n, error := .failedToReadIoLen })
  | failed {n : Nat} (huse : s.usable conn.val = true) (hlen : os.fionread = some n)
      (h0 : n ≠ 0) (hroom : (s.conns conn).maxPacketSize < n → os.realloc.granted = true)
      (hr : os.received = none) :
      Receives s conn os before after false
        ((s.roomFor (s.conns conn) n os.realloc).2.setConn conn { s.conns conn with
          recvBuffer := (s.roomFor (s.conns conn) n os.realloc).1
          maxPacketSize := sizeFor (s.conns conn) n
          dataLen := 0
          fromAddr := before (s.conns conn).fromAddr
          error := .recvFailed })
  | received {n : Nat} {bytes : List UInt8} {filled : Option Block}
      (huse : s.usable conn.val = true) (hlen : os.fionread = some n) (h0 : n ≠ 0)
      (hroom : (s.conns conn).maxPacketSize < n → os.realloc.granted = true)
      (hr : os.received = some bytes)
      (hfill : fillBuffer (s.roomFor (s.conns conn) n os.realloc).1 bytes = .ok filled) :
      Receives s conn os before after true
        ((s.roomFor (s.conns conn) n os.realloc).2.setConn conn { s.conns conn with
          recvBuffer := filled
          maxPacketSize := sizeFor (s.conns conn) n
          dataLen := bytes.length
          fromAddr := after (before (s.conns conn).fromAddr) })

/-! ### The size of the buffer

The buffer is replaced if it is too small, and `max_packet_size` follows.
-/

theorem usable_val (s : Process) (conn : Fin maxConnections) :
    s.usable conn.val = true ↔
      ¬((s.conns conn).error ≠ .none ∨ (s.conns conn).state ≠ .active) := by
  unfold usable
  rw [ref_val, not_or, not_not, not_not]
  exact decide_eq_true_iff

theorem roomFor_eq (s : Process) (c : ConnectionData) (n : Nat) (a : Alloc) :
    (if n > c.maxPacketSize then s.realloc c.recvBuffer n a else (c.recvBuffer, s)) =
      s.roomFor c n a := rfl

theorem roomFor_fields (s : Process) (c : ConnectionData) (n : Nat) (a : Alloc) :
    (s.roomFor c n a).2 = { s with blocks := (s.roomFor c n a).2.blocks } := by
  unfold roomFor
  split
  · exact malloc_fields s n _
  · rfl

/-- A buffer that is too small stays when the allocator refuses. -/
theorem roomFor_refused {s : Process} {c : ConnectionData} {n : Nat} {a : Alloc}
    (hn : c.maxPacketSize < n) (hno : a.granted = false) : s.roomFor c n a = (none, s) := by
  unfold roomFor realloc malloc
  rw [if_pos hn, if_neg]
  exact fun hc => Bool.false_ne_true (hno.symm.trans hc)

/-- Where the allocator does not refuse, there is no need to stop. -/
theorem not_isNone_of_room {s : Process} {c : ConnectionData} {n : Nat} {a : Alloc}
    (hroom : c.maxPacketSize < n → a.granted = true) :
    ¬(n > c.maxPacketSize ∧ (s.roomFor c n a).1.isNone = true) := by
  rintro ⟨hn, hnone⟩
  unfold roomFor realloc malloc at hnone
  rw [if_pos hn, if_pos (hroom hn)] at hnone
  cases hnone

section Receive

variable {s s' : Process} {connId : Nat} {os : RecvAnswers} {before after : Address → Address}
  {r : Bool} {conn : Fin maxConnections}

/-! ### The exits -/

/-- **What a call has done.** -/
theorem receive_receives (h : s.receive connId os before after = .ok (r, s')) :
    ∃ conn : Fin maxConnections, conn.val = connId ∧ Receives s conn os before after r s' := by
  unfold receive at h
  obtain ⟨conn, hconn, h⟩ := bind_returns.mp h
  refine ⟨conn, (ref_eq_ok.mp hconn).symm, ?_⟩
  dsimp only at h
  by_cases huse : s.usable conn.val = true
  case neg =>
    rw [if_pos (not_not.mp fun hc => huse ((usable_val s conn).mpr hc))] at h
    cases h
    exact Receives.skipped huse
  rw [if_neg ((usable_val s conn).mp huse)] at h
  split at h
  · rename_i hlen
    cases h
    exact Receives.unread huse hlen
  rename_i n hlen
  split at h
  · rename_i h0
    cases h
    rw [h0] at hlen ⊢
    exact Receives.empty huse hlen
  rename_i h0
  rw [roomFor_eq] at h
  by_cases hno : (s.conns conn).maxPacketSize < n ∧ os.realloc.granted = false
  · rw [roomFor_refused hno.1 hno.2, if_pos ⟨hno.1, rfl⟩] at h
    cases h
    exact Receives.refused huse hlen hno.1 hno.2
  have hroom : (s.conns conn).maxPacketSize < n → os.realloc.granted = true :=
    fun hn => Bool.not_eq_false _ ▸ fun hc => hno ⟨hn, hc⟩
  rw [if_neg (not_isNone_of_room hroom)] at h
  split at h
  · rename_i hr
    cases h
    exact Receives.failed huse hlen h0 hroom hr
  · rename_i bytes hr
    obtain ⟨filled, hfill, h⟩ := bind_returns.mp h
    cases h
    exact Receives.received huse hlen h0 hroom hr hfill

/-- **A call that may leave by an exit returns there.** -/
theorem receive_of_receives (h : Receives s conn os before after r s') :
    s.receive conn.val os before after = .ok (r, s') := by
  unfold receive
  rw [ref_val, bind_of_ok]
  dsimp only
  cases h with
  | skipped huse =>
      rw [if_pos (not_not.mp fun hc => huse ((usable_val s conn).mpr hc))]
      rfl
  | unread huse hlen =>
      rw [if_neg ((usable_val s conn).mp huse), hlen]
      rfl
  | empty huse hlen =>
      rw [if_neg ((usable_val s conn).mp huse), hlen]
      rfl
  | @refused n huse hlen hn hno =>
      have h0 : n ≠ 0 := by omega
      rw [if_neg ((usable_val s conn).mp huse), hlen]
      dsimp only
      rw [if_neg h0, roomFor_eq, roomFor_refused hn hno, if_pos ⟨hn, rfl⟩]
      rfl
  | @failed n huse hlen h0 hroom hr =>
      rw [if_neg ((usable_val s conn).mp huse), hlen]
      dsimp only
      rw [if_neg h0, roomFor_eq, if_neg (not_isNone_of_room hroom), hr]
      rfl
  | @received n bytes filled huse hlen h0 hroom hr hfill =>
      rw [if_neg ((usable_val s conn).mp huse), hlen]
      dsimp only
      rw [if_neg h0, roomFor_eq, if_neg (not_isNone_of_room hroom), hr]
      dsimp only
      rw [hfill]
      rfl

end Receive

/-! ### Several connections

After a poll that has failed, `recv_from_all` sets an error on every connection of the list;
after any other it calls `recv_from` for some of them, one after the other.
-/

section Several

variable {s s' : Process} {connIds : List Nat} {os : PollAnswers}
  {R : Process → Process → Prop}

theorem recvReady_cases {revents : Nat → Bool} {recv : Nat → RecvAnswers} {i : Nat}
    (h : recvReady connIds revents recv s i = .ok s') :
    s' = s ∨ ∃ id r, s.recvFrom id (recv i) = .ok (r, s') := by
  unfold recvReady at h
  split at h
  · split at h
    · cases h
    · rename_i id _
      obtain ⟨⟨r, t⟩, ht, h⟩ := bind_returns.mp h
      cases h
      exact Or.inr ⟨id, r, ht⟩
  · cases h
    exact Or.inl rfl

theorem recvFromAll_cases (h : s.recvFromAll connIds os = .ok s') :
    os.poll = none ∧ connIds.foldlM (fun s id => do
        let conn ← ref id
        return s.setError conn .pollFailed) s = .ok s' ∨
      ∃ revents n, os.poll = some revents ∧
        (List.range n).foldlM (recvReady connIds revents os.recv) s = .ok s' := by
  unfold recvFromAll at h
  obtain ⟨fds, -, h⟩ := bind_returns.mp h
  split at h
  · rename_i hpoll
    exact Or.inl ⟨hpoll, h⟩
  · rename_i revents hpoll
    exact Or.inr ⟨revents, fds.length, hpoll, h⟩

theorem pollFailed_rel (hrefl : ∀ t, R t t) (htrans : ∀ t u v, R t u → R u v → R t v)
    (hpoll : ∀ t conn, R t (t.setError conn .pollFailed))
    (h : connIds.foldlM (fun s id => do
      let conn ← ref id
      return s.setError conn .pollFailed) s = .ok s') : R s s' := by
  refine foldlM_rel hrefl htrans (fun t id t' ht => ?_) connIds s s' h
  obtain ⟨conn, -, ht⟩ := bind_returns.mp ht
  cases ht
  exact hpoll t conn

/-- **What every call of `recv_from` does, `recv_from_all` does.** -/
theorem recvFromAll_rel (hrefl : ∀ t, R t t) (htrans : ∀ t u v, R t u → R u v → R t v)
    (hpoll : ∀ t conn, R t (t.setError conn .pollFailed))
    (hrecv : ∀ t id os r t', t.recvFrom id os = .ok (r, t') → R t t')
    (h : s.recvFromAll connIds os = .ok s') : R s s' := by
  rcases recvFromAll_cases h with ⟨-, hfailed⟩ | ⟨revents, n, -, hready⟩
  · exact pollFailed_rel hrefl htrans hpoll hfailed
  · refine foldlM_rel hrefl htrans (fun t i t' ht => ?_) _ s s' hready
    rcases recvReady_cases ht with rfl | ⟨id, r, hr⟩
    · exact hrefl t'
    · exact hrecv t id _ r t' hr

end Several

end Ytl.Udp.Process
