/-
Which connections `recv_from_all` serves.

The set that is polled has an entry for every usable connection of the list, and what is
reported for entry `i` makes the loop call `recv_from` on the element `i` of the list.  So
the calls are made on the reported positions of the front of the list, where they should be
made on those positions of the usable connections.

The entries are told apart by their index alone.  A connection of the list that cannot be used
gets no entry, so from there on the index of an entry is smaller than that of its connection.
-/
import Ytl.Base.Positions
import Ytl.Network.UdpRun
import Ytl.Proofs.Udp.Receive

namespace Ytl.Udp.Process

/-- The calls of `recv_from` after a poll: the ids, with the entry each is made for. -/
def recvCalls (s : Process) (connIds : List Nat) (revents : Nat → Bool) : List (Nat × Nat) :=
  marked revents (connIds.take (connIds.filter s.usable).length)

/-- The usable connections of the list whose own socket was reported. -/
def ready (s : Process) (connIds : List Nat) (revents : Nat → Bool) : List Nat :=
  (marked revents (connIds.filter s.usable)).map Prod.fst

/-- `recv_from_all` calls `recv_from` on these connections and no others, in list order. -/
def ServesReady (s : Process) (connIds : List Nat) (revents : Nat → Bool) : Prop :=
  (s.recvCalls connIds revents).map Prod.fst = s.ready connIds revents

variable {s : Process} {connIds : List Nat} {revents : Nat → Bool}

/-! ### The set that is polled -/

/-- There is an entry for every usable connection. -/
theorem pollSet_length :
    ∀ (connIds : List Nat), (∀ id ∈ connIds, id < maxConnections) →
      ∃ fds, s.pollSet connIds = .ok fds ∧ fds.length = (connIds.filter s.usable).length := by
  intro connIds
  induction connIds with
  | nil =>
      intro _
      exact ⟨[], rfl, rfl⟩
  | cons id rest ih =>
      intro hids
      obtain ⟨fds, hfds, hlen⟩ := ih fun x hx => hids x (List.mem_cons_of_mem id hx)
      obtain ⟨conn, rfl⟩ : ∃ conn : Fin maxConnections, conn.val = id :=
        ⟨⟨id, hids id List.mem_cons_self⟩, rfl⟩
      rw [pollSet, ref_val, bind_of_ok, hfds, bind_of_ok, List.filter_cons]
      by_cases huse : s.usable conn.val = true
      · rw [if_neg ((usable_val s conn).mp huse), if_pos huse]
        exact ⟨_, rfl, congrArg Nat.succ hlen⟩
      · rw [if_pos (not_not.mp fun hc => huse ((usable_val s conn).mpr hc)), if_neg huse]
        exact ⟨fds, rfl, hlen⟩

/-- Every id of the list has been looked at. -/
theorem lt_of_pollSet :
    ∀ (connIds : List Nat) (fds : List Int), s.pollSet connIds = .ok fds →
      ∀ id ∈ connIds, id < maxConnections := by
  intro connIds
  induction connIds with
  | nil =>
      intro fds _ id hid
      cases hid
  | cons id rest ih =>
      intro fds h
      rw [pollSet] at h
      obtain ⟨conn, hconn, h⟩ := bind_returns.mp h
      obtain ⟨fds', hfds, -⟩ := bind_returns.mp h
      intro x hx
      rcases List.mem_cons.mp hx with rfl | hx
      · rw [ref_eq_ok.mp hconn]
        exact conn.isLt
      · exact ih fds' hfds x hx

/-! ### The loop

The loop goes through as many positions as there are entries, and calls `recv_from` on an
element of the list for each of them that was reported.
-/

/-- One call. -/
def recvCall (recv : Nat → RecvAnswers) (s : Process) (call : Nat × Nat) :
    Except Fault Process :=
  Prod.snd <$> s.recvFrom call.1 (recv call.2)

theorem recvReady_of_reported {recv : Nat → RecvAnswers} {i id : Nat} (hi : revents i = true)
    (hid : connIds[i]? = some id) :
    recvReady connIds revents recv s i = recvCall recv s (id, i) := by
  rw [recvReady, if_pos hi, hid]
  show (s.recvFrom id (recv i) >>= fun r => .ok r.2) = Prod.snd <$> s.recvFrom id (recv i)
  cases s.recvFrom id (recv i) <;> rfl

theorem recvReady_of_not {recv : Nat → RecvAnswers} {i : Nat} (hi : ¬ revents i = true) :
    recvReady connIds revents recv s i = .ok s := if_neg hi

/-- The rounds from `k` on, over the part `l` of the list. -/
theorem recvReady_rounds (recv : Nat → RecvAnswers) :
    ∀ (l : List Nat) (k : Nat) (s : Process),
      (∀ j, j < l.length → connIds[k + j]? = l[j]?) →
      (List.range' k l.length).foldlM (recvReady connIds revents recv) s =
        ((l.zipIdx k).filter fun e => revents e.2).foldlM (recvCall recv) s := by
  intro l
  induction l with
  | nil =>
      intro k s _
      rfl
  | cons id rest ih =>
      intro k s hl
      have hid : connIds[k]? = some id := hl 0 (Nat.succ_pos _)
      have hrest : ∀ j, j < rest.length → connIds[k + 1 + j]? = rest[j]? := by
        intro j hj
        rw [Nat.add_right_comm]
        exact hl (j + 1) (Nat.succ_lt_succ hj)
      rw [List.length_cons, List.range'_succ, List.foldlM_cons, List.zipIdx_cons,
        List.filter_cons]
      by_cases hk : revents k = true
      · rw [if_pos hk, List.foldlM_cons, recvReady_of_reported hk hid]
        refine congrArg _ (funext fun t => ?_)
        exact ih (k + 1) t hrest
      · rw [if_neg hk, recvReady_of_not hk, bind_of_ok]
        exact ih (k + 1) s hrest

/-- **The calls that are made.** -/
theorem recvFromAll_eq (hids : ∀ id ∈ connIds, id < maxConnections)
    (recv : Nat → RecvAnswers) :
    s.recvFromAll connIds { poll := some revents, recv := recv } =
      (s.recvCalls connIds revents).foldlM (recvCall recv) s := by
  obtain ⟨fds, hfds, hlen⟩ := pollSet_length (s := s) connIds hids
  have hle : (connIds.filter s.usable).length ≤ connIds.length := List.length_filter_le _ _
  have htake : (connIds.take (connIds.filter s.usable).length).length = fds.length := by
    rw [List.length_take, hlen]
    omega
  unfold recvFromAll
  rw [hfds, bind_of_ok]
  show (List.range fds.length).foldlM (recvReady connIds revents recv) s = _
  rw [List.range_eq_range', ← htake]
  refine recvReady_rounds recv _ 0 s fun j hj => ?_
  rw [Nat.zero_add, List.getElem?_take_of_lt (by rw [htake, hlen] at hj; exact hj)]

/--
**When `recv_from_all` serves the right connections.**  The calls it makes are on the usable
connections whose own socket was reported, in list order, if and only if up to every entry
that was reported no connection of the list had been left out of the poll.
-/
theorem recvFromAll_serves_iff (s : Process) (connIds : List Nat) (revents : Nat → Bool)
    (hids : ∀ id ∈ connIds, id < maxConnections) (hnd : connIds.Nodup) :
    (∀ recv, s.recvFromAll connIds { poll := some revents, recv := recv } =
        (s.recvCalls connIds revents).foldlM (recvCall recv) s) ∧
      (ServesReady s connIds revents ↔
        ∀ i, i < (connIds.filter s.usable).length → revents i = true →
          ∀ id ∈ connIds.take (i + 1), s.usable id = true) := by
  refine ⟨recvFromAll_eq hids, ?_⟩
  have hle : (connIds.filter s.usable).length ≤ connIds.length := List.length_filter_le _ _
  unfold ServesReady recvCalls ready
  rw [marked_fst_eq_iff (by rw [List.length_take]; omega)]
  constructor
  · intro h i hi hrev
    have heq := h i hrev
    rw [List.getElem?_take_of_lt hi] at heq
    exact (filter_getElem?_eq_iff connIds i hnd hi).mp heq
  · intro h i hrev
    by_cases hi : i < (connIds.filter s.usable).length
    · rw [List.getElem?_take_of_lt hi]
      exact (filter_getElem?_eq_iff connIds i hnd hi).mpr (h i hi hrev)
    · rw [List.getElem?_eq_none (Nat.le_of_not_lt hi), List.getElem?_eq_none]
      rw [List.length_take]
      omega

/-- Two connections, and a datagram for the second one. -/
theorem recvFromAll_serves_two :
    ∃ s, (pool Fresh).Reachable s ∧ s.usable 0 = true ∧ s.usable 1 = true ∧
      (∀ recv, s.recvFromAll [0, 1] { poll := some fun i => i = 1, recv := recv } =
        (s.recvCalls [0, 1] fun i => i = 1).foldlM (recvCall recv) s) ∧
      (ServesReady s [0, 1] (fun i => i = 1) ↔
        ∀ i, i < ([0, 1].filter s.usable).length → decide (i = 1) = true →
          ∀ id ∈ [0, 1].take (i + 1), s.usable id = true) := by
  obtain ⟨s, hs, hP⟩ := Machine.exists_reachable start_empty
    [.serve 9000 { socket := 3 }, .serve 9001 { socket := 4 }]
    (fun s => s.usable 0 && s.usable 1) (by decide +kernel)
  obtain ⟨h0, h1⟩ := Bool.and_eq_true_iff.mp hP
  have hids : ∀ id ∈ [0, 1], id < maxConnections := by
    rw [maxConnections_eq]
    decide
  exact ⟨s, hs, h0, h1, recvFromAll_serves_iff s [0, 1] (fun i => i = 1) hids (by decide)⟩

/-- A connection that is `FREE` in front of one with a datagram: `recv_from` is called on the
first and not on the second. -/
theorem recvFromAll_serves_not :
    ∃ s, (pool Fresh).Reachable s ∧ (s.recvCalls [5, 0] fun _ => true) = [(5, 0)] ∧
      s.ready [5, 0] (fun _ => true) = [0] ∧ ¬ ServesReady s [5, 0] fun _ => true := by
  obtain ⟨s, hs, hP⟩ := Machine.exists_reachable start_empty [.serve 9000 { socket := 3 }]
    (fun s => (s.recvCalls [5, 0] fun _ => true) = [(5, 0)] ∧
      s.ready [5, 0] (fun _ => true) = [0]) (by decide +kernel)
  obtain ⟨hcalls, hready⟩ := of_decide_eq_true hP
  refine ⟨s, hs, hcalls, hready, ?_⟩
  unfold ServesReady
  rw [hcalls, hready]
  decide

end Ytl.Udp.Process
