/-
Receiving what waits at a socket.

The socket is a list of datagrams, oldest first: `FIONREAD` reports the length of the first
one, and a call of the system that is made hands it over.  The receiving functions take a
reported length of 0 for an empty list and do not make the call, so a datagram of no bytes is
never handed over, and everything behind it waits for ever.

A slot whose first allocation failed has no buffer; it gets one when a datagram arrives that
is larger than the buffer would have been.
-/
import Ytl.Proofs.Udp.Span

namespace Ytl.Udp

open Process

/-- A call of `recv` or `recv_from`; the allocator grants what it is asked for. -/
inductive Fetch where
  | recv (junk : Nat → UInt8)
  | recvFrom (junk : Nat → UInt8) (sender : Address)

/-! ### The socket -/

/-- What the system answers when these datagrams wait at the socket. -/
def inbox (pending : List (List UInt8)) (junk : Nat → UInt8) (sender : Address) : RecvAnswers where
  fionread := some ((pending.head?.map List.length).getD 0)
  realloc := { junk := junk }
  received := pending.head?
  sender := sender

/-- The call, with the datagrams that wait afterwards.  Once the system has been asked for the
first one, with a datagram there, the call returns true; it returns false before that. -/
def fetch (s : Process) (connId : Nat) (pending : List (List UInt8)) (call : Fetch) :
    Except Fault (Bool × Process × List (List UInt8)) := do
  let (received, s') ← match call with
    | .recv junk => s.recv connId (inbox pending junk {})
    | .recvFrom junk sender => s.recvFrom connId (inbox pending junk sender)
  return (received, s', if received then pending.tail else pending)

/-- What `get_data` spans are these bytes. -/
def DataIs (s : Process) (connId : Nat) (bytes : List UInt8) : Prop :=
  ∃ b : Block, s.getData connId = .ok (some b, bytes.length) ∧ b.bytes.take bytes.length = bytes

/-- The calls all return true, each having taken the first datagram, and only that. -/
def Delivers (connId : Nat) : Process → List (List UInt8) → List Fetch → Prop
  | _, _, [] => True
  | _, [], _ :: _ => False
  | s, d :: rest, call :: calls => ∃ s', fetch s connId (d :: rest) call = .ok (true, s', rest) ∧
      DataIs s' connId d ∧ Delivers connId s' rest calls

/-- There is a buffer, or one is made for this datagram. -/
def HasBuffer (s : Process) (connId : Nat) (d : List UInt8) : Prop :=
  ∀ conn : Fin maxConnections, conn.val = connId → (s.conns conn).recvBuffer = none →
    (s.conns conn).maxPacketSize < d.length

section Fetch

variable {s s' : Process} {connId : Nat} {conn : Fin maxConnections} {d : List UInt8}
  {rest : List (List UInt8)} {call : Fetch}

/-! ### One call

A call either takes the first datagram or none, and which of the two is decided by the length
that is reported for it.
-/

theorem exists_of_usable (h : s.usable connId = true) :
    ∃ conn : Fin maxConnections, conn.val = connId := by
  unfold usable at h
  cases href : ref connId with
  | error e =>
      rw [href] at h
      cases h
  | ok conn => exact ⟨conn, (ref_eq_ok.mp href).symm⟩

/-- Both functions are `receive`. -/
theorem fetch_eq (s : Process) (connId : Nat) (pending : List (List UInt8)) (call : Fetch) :
    ∃ junk sender before after, fetch s connId pending call =
      (s.receive connId (inbox pending junk sender) before after >>= fun r =>
        .ok (r.1, r.2, if r.1 then pending.tail else pending)) := by
  cases call with
  | recv junk => exact ⟨junk, {}, _, _, rfl⟩
  | recvFrom junk sender => exact ⟨junk, sender, _, _, rfl⟩

/-- The allocator grants what it is asked for, so a datagram finds its room unless there is no
buffer and none is asked for. -/
theorem roomFor_some {n : Nat} {a : Alloc} (hsized : SlotSized (s.conns conn))
    (ha : a.granted = true)
    (hbuf : (s.conns conn).recvBuffer = none → (s.conns conn).maxPacketSize < n) :
    ∃ b, (s.roomFor (s.conns conn) n a).1 = some b ∧ n ≤ b.bytes.length := by
  unfold roomFor realloc malloc
  by_cases hn : (s.conns conn).maxPacketSize < n
  · rw [if_pos hn, if_pos ha]
    exact ⟨_, rfl, by simp⟩
  · rw [if_neg hn]
    obtain ⟨b, hb⟩ := Option.ne_none_iff_exists'.mp fun hnone => hn (hbuf hnone)
    refine ⟨b, hb, ?_⟩
    rw [hsized.size b hb]
    exact Nat.le_of_not_lt hn

/-- What a slot is like from which a datagram has just been received. -/
structure Received (s : Process) (conn : Fin maxConnections) : Prop where
  sized : ∀ i, SlotSized (s.conns i)
  usable : s.usable conn.val = true
  buffer : (s.conns conn).recvBuffer ≠ none

theorem Received.hasBuffer (h : Received s conn) (d : List UInt8) : HasBuffer s conn.val d := by
  intro i hi hnone
  rw [Fin.ext hi] at hnone
  exact absurd hnone h.buffer

/-- A datagram that has bytes is delivered where there is a buffer. -/
theorem fetch_delivers (hI : ∀ i, SlotSized (s.conns i)) (huse : s.usable conn.val = true)
    (hd : d ≠ []) (hbuf : HasBuffer s conn.val d) (rest : List (List UInt8)) (call : Fetch) :
    ∃ s', fetch s conn.val (d :: rest) call = .ok (true, s', rest) ∧ DataIs s' conn.val d ∧
      Received s' conn := by
  obtain ⟨junk, sender, before, after, hfetch⟩ := fetch_eq s conn.val (d :: rest) call
  obtain ⟨b, hb, hle⟩ := roomFor_some (a := (inbox (d :: rest) junk sender).realloc) (hI conn) rfl
    (hbuf conn rfl)
  have hfill : fillBuffer (s.roomFor (s.conns conn) d.length
      (inbox (d :: rest) junk sender).realloc).1 d =
      .ok (some { b with bytes := d ++ b.bytes.drop d.length }) := by
    rw [hb]
    exact if_pos hle
  have hexit : Receives s conn (inbox (d :: rest) junk sender) before after true _ :=
    Receives.received huse rfl (mt List.length_eq_zero_iff.mp hd) (fun _ => rfl) rfl hfill
  have hreceive := receive_of_receives hexit
  refine ⟨_, by rw [hfetch, hreceive]; rfl, ?_, ?_, ?_, ?_⟩
  · refine ⟨{ b with bytes := d ++ b.bytes.drop d.length }, ?_, List.take_left⟩
    rw [getData_val, setConn_self]
  · exact (receive_sized hI hreceive).1
  · rw [usable_val, setConn_self]
    exact (usable_val s conn).mp huse
  · rw [setConn_self]
    exact nofun

/-- A call that has received had a datagram with bytes, and a buffer for it. -/
theorem nonempty_of_fetch {p : List (List UInt8)}
    (h : fetch s conn.val (d :: rest) call = .ok (true, s', p)) :
    d ≠ [] ∧ HasBuffer s conn.val d := by
  obtain ⟨junk, sender, before, after, hfetch⟩ := fetch_eq s conn.val (d :: rest) call
  rw [hfetch] at h
  obtain ⟨⟨r, t⟩, hr, h⟩ := bind_returns.mp h
  cases h
  obtain ⟨i, hi, hexit⟩ := receive_receives hr
  rw [Fin.ext hi] at hexit
  cases hexit with
  | @received n bytes filled huse hlen h0 hroom hgot hfill =>
      have hn : d.length = n := Option.some.inj hlen
      refine ⟨fun hd => h0 (by rw [← hn, hd]; rfl), fun j hj hnone => ?_⟩
      rw [Fin.ext hj] at hnone ⊢
      by_contra hlt
      -- the buffer is not enlarged, and there is none
      obtain ⟨b, hb, -⟩ := fillBuffer_eq_ok hfill
      unfold roomFor at hb
      rw [if_neg (by omega), hnone] at hb
      cases hb

end Fetch

/-! ### Call after call

After a datagram has been received there is a buffer, so the question whether there is one is
only about the first.
-/

/-- Any number of datagrams are delivered if each of them has bytes and the first one a
buffer. -/
theorem delivers_of_nonempty (conn : Fin maxConnections) :
    ∀ (calls : List Fetch) (pending : List (List UInt8)) (s : Process),
      (∀ i, SlotSized (s.conns i)) → s.usable conn.val = true → calls.length ≤ pending.length →
      (∀ d ∈ pending.take calls.length, d ≠ []) →
      (∀ d ∈ (pending.take calls.length).head?, HasBuffer s conn.val d) →
      Delivers conn.val s pending calls := by
  intro calls
  induction calls with
  | nil =>
      intro pending s _ _ _ _ _
      cases pending <;> exact trivial
  | cons call calls ih =>
      intro pending s hI huse hle hne hbuf
      cases pending with
      | nil => exact absurd hle (Nat.not_succ_le_zero _)
      | cons d rest =>
          rw [List.length_cons, List.take_succ_cons] at hne hbuf
          obtain ⟨s', hfetch, hdata, hs'⟩ := fetch_delivers hI huse
            (hne d List.mem_cons_self) (hbuf d rfl) rest call
          refine ⟨s', hfetch, hdata, ?_⟩
          refine ih rest s' hs'.sized hs'.usable (Nat.le_of_succ_le_succ hle) ?_ ?_
          · exact fun x hx => hne x (List.mem_cons_of_mem d hx)
          · exact fun x _ => hs'.hasBuffer x

theorem nonempty_of_delivers (conn : Fin maxConnections) :
    ∀ (calls : List Fetch) (pending : List (List UInt8)) (s : Process),
      Delivers conn.val s pending calls → ∀ d ∈ pending.take calls.length, d ≠ [] := by
  intro calls
  induction calls with
  | nil =>
      intro pending s _ d hd
      simp at hd
  | cons call calls ih =>
      intro pending s h d hd
      cases pending with
      | nil => exact h.elim
      | cons first rest =>
          obtain ⟨s', hfetch, -, hrest⟩ := h
          rw [List.length_cons, List.take_succ_cons] at hd
          rcases List.mem_cons.mp hd with rfl | hd
          · exact (nonempty_of_fetch hfetch).1
          · exact ih rest s' hrest d hd

/--
**When the waiting datagrams are received in order.**  In a reachable state, and on a
connection that is `ACTIVE` and has no error, as many calls as there are datagrams or fewer
return true, take one datagram each and leave its bytes to `get_data` if and only if none of
the datagrams they are to take is empty, and the slot has a buffer or gets one for the first.
-/
theorem delivers_iff {promise : Process → Int → Prop} (s : Process)
    (h : (pool promise).Reachable s) (connId : Nat) (huse : s.usable connId = true)
    (pending : List (List UInt8)) (calls : List Fetch) (hle : calls.length ≤ pending.length) :
    Delivers connId s pending calls ↔
      (∀ d ∈ pending.take calls.length, d ≠ []) ∧
        ∀ d ∈ (pending.take calls.length).head?, HasBuffer s connId d := by
  obtain ⟨conn, rfl⟩ := exists_of_usable huse
  constructor
  · intro hall
    refine ⟨nonempty_of_delivers conn calls pending s hall, fun x hx => ?_⟩
    cases calls with
    | nil => cases hx
    | cons call calls =>
        cases pending with
        | nil => exact hall.elim
        | cons d rest =>
            obtain ⟨s', hfetch, -, -⟩ := hall
            rw [← Option.some.inj hx]
            exact (nonempty_of_fetch hfetch).2
  · rintro ⟨hne, hbuf⟩
    exact delivers_of_nonempty conn calls pending s (SizesOK.of_reachable h).sized huse hle hne hbuf

/-- Three datagrams, the second one larger than the buffer the slot was opened with. -/
theorem delivers_three :
    ∃ (s : Process) (pending : List (List UInt8)) (calls : List Fetch),
      (pool Fresh).Reachable s ∧ s.usable 0 = true ∧ calls.length = 3 ∧
      pending.map List.length = [2, 3000, 1] ∧
      (Delivers 0 s pending calls ↔
        (∀ d ∈ pending.take calls.length, d ≠ []) ∧
          ∀ d ∈ (pending.take calls.length).head?, HasBuffer s 0 d) := by
  obtain ⟨s, hs, hP⟩ := Machine.exists_reachable start_empty [.serve 9000 { socket := 3 }]
    (fun s => s.usable 0) (by decide +kernel)
  refine ⟨s, [[1, 2], List.replicate 3000 7, [3]], [.recv 0, .recvFrom 0 {}, .recv 0], hs, hP, rfl,
    ?_, ?_⟩
  · rw [List.map_cons, List.map_cons, List.length_replicate]
    rfl
  exact delivers_iff s hs 0 hP _ _ (Nat.le_refl 3)

/-- An empty datagram in front of another one: the call returns false, and both still wait. -/
theorem delivers_not_empty :
    ∃ (s : Process) (call : Fetch), (pool Fresh).Reachable s ∧ s.usable 0 = true ∧
      (∃ s', fetch s 0 [[], [1]] call = .ok (false, s', [[], [1]])) ∧
      ¬ Delivers 0 s [[], [1]] [call] := by
  obtain ⟨s, hs, hP⟩ := Machine.exists_reachable start_empty [.serve 9000 { socket := 3 }]
    (fun s => s.usable 0) (by decide +kernel)
  have hP' : s.usable (0 : Fin maxConnections).val = true := hP
  have hexit : Receives s 0 (inbox [[], [1]] 0 {}) (fun a => a) (fun a => a) false _ :=
    Receives.empty hP' rfl
  have hfetch : fetch s (0 : Fin maxConnections).val [[], [1]] (.recv 0) =
      .ok (false, s.setConn 0 { s.conns 0 with dataLen := 0 }, [[], [1]]) := by
    show (s.receive _ _ _ _ >>= fun r => _) = _
    rw [receive_of_receives hexit]
    rfl
  refine ⟨s, .recv 0, hs, hP, ⟨_, hfetch⟩, ?_⟩
  rintro ⟨s', hc, -⟩
  have hc' := hfetch.symm.trans hc
  cases hc'

end Ytl.Udp
