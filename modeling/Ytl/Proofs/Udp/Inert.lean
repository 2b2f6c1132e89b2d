/-
What becomes of a connection that has an error.

No operation clears an error.  A connection that has one is passed over by every operation, so
it stays as it is, with no datagram sent or received for it, until a `close` resets its slot;
only the error itself may be replaced by another.

Sending and receiving begin by looking at the error and the state of the connection, and give up
if there is an error.  The other operations that write a connection write one that is not in use,
or reset it.  Where an operation works on several connections one after the other, the one with
the error is not written at all, or only its error is.  The relation `Inert` is what that leaves
of a connection, and it is transitive, so it can be followed along a run.
-/
import Ytl.Proofs.Udp.Calls

namespace Ytl.Udp

open Process

variable {s s' t : Process} {i conn : Fin maxConnections}

/-- Only the error of `i` may be another one, and the system was not called for `i`. -/
structure Inert (i : Fin maxConnections) (s s' : Process) : Prop where
  same : ∃ e, e ≠ .none ∧ s'.conns i = { s.conns i with error := e }
  calls : ∃ calls, s'.sends = s.sends ++ calls ∧ ∀ c ∈ calls, c.via.conn ≠ some i.val

/-- Nothing is done to `i` if it has an error. -/
def Passes (i : Fin maxConnections) (s s' : Process) : Prop :=
  (s.conns i).error ≠ .none → Inert i s s'

namespace Inert

theorem refl (herr : (s.conns i).error ≠ .none) : Inert i s s :=
  ⟨⟨_, herr, rfl⟩, [], (List.append_nil _).symm, fun _ hc => absurd hc List.not_mem_nil⟩

theorem error (h : Inert i s s') : (s'.conns i).error ≠ .none := by
  obtain ⟨e, he, hsame⟩ := h.same
  rw [hsame]
  exact he

theorem state (h : Inert i s s') : (s'.conns i).state = (s.conns i).state := by
  obtain ⟨e, -, hsame⟩ := h.same
  rw [hsame]

theorem trans (h : Inert i s t) (h' : Inert i t s') : Inert i s s' := by
  obtain ⟨e, -, hsame⟩ := h.same
  obtain ⟨e', he', hsame'⟩ := h'.same
  obtain ⟨calls, hcalls, hvia⟩ := h.calls
  obtain ⟨calls', hcalls', hvia'⟩ := h'.calls
  rw [hsame] at hsame'
  refine ⟨⟨e', he', hsame'⟩, calls ++ calls', ?_, fun c hc => ?_⟩
  · rw [hcalls', hcalls, List.append_assoc]
  · exact (List.mem_append.mp hc).elim (hvia c) (hvia' c)

theorem of_conns (herr : (s.conns i).error ≠ .none) (hconns : s'.conns i = s.conns i)
    (hsends : s'.sends = s.sends) : Inert i s s' :=
  ⟨⟨_, herr, hconns⟩, [], by rw [hsends, List.append_nil],
    fun _ hc => absurd hc List.not_mem_nil⟩

/-- A connection that the system is called for has no error. -/
theorem of_spoke {calls : List SendCall} (herr : (s.conns i).error ≠ .none)
    (h : Spoke s conn calls s') : Inert i s s' := by
  obtain ⟨e, he, hkeep⟩ := h.errors.conns i
  refine ⟨⟨e, hkeep herr, he⟩, calls, h.sends, fun c hc hi => ?_⟩
  obtain ⟨hvia, huse⟩ := h.via c hc
  rw [hvia] at hi
  obtain rfl : conn = i := Fin.ext (Option.some.inj hi)
  exact herr (not_not.mp (not_or.mp ((usable_val s conn).mp huse)).1)

theorem of_receive {connId : Nat} {os : RecvAnswers} {before after : Address → Address} {r : Bool}
    (herr : (s.conns i).error ≠ .none) (h : s.receive connId os before after = .ok (r, s')) :
    Inert i s s' := by
  have hsends := (receive_sameQueue h).sends
  obtain ⟨conn, -, hexit⟩ := receive_receives h
  have hne : s.usable conn.val = true → i ≠ conn := by
    rintro huse rfl
    exact herr (not_not.mp (not_or.mp ((usable_val s i).mp huse)).1)
  have hset : ∀ (n : Nat) (c : ConnectionData), s.usable conn.val = true →
      ((s.roomFor (s.conns conn) n os.realloc).2.setConn conn c).conns i = s.conns i := by
    intro n c huse
    rw [setConn_of_ne _ _ (hne huse), roomFor_fields]
  cases hexit with
  | skipped _ => exact refl herr
  | unread huse _ => exact of_conns herr (setConn_of_ne _ _ (hne huse)) hsends
  | empty huse _ => exact of_conns herr (setConn_of_ne _ _ (hne huse)) hsends
  | refused huse _ _ _ => exact of_conns herr (setConn_of_ne _ _ (hne huse)) hsends
  | failed huse _ _ _ _ => exact of_conns herr (hset _ _ huse) hsends
  | received huse _ _ _ _ _ => exact of_conns herr (hset _ _ huse) hsends

/-- The slots of a walk are reset. -/
theorem of_close {id : Nat} (herr : (s.conns i).error ≠ .none) (h : s.close id = .ok s') :
    s'.conns i = {} ∨ Inert i s s' := by
  have hsends := (close_sameQueue h).sends
  obtain ⟨j, l, -, -, rfl⟩ := close_walk h
  by_cases hi : i ∈ l
  · exact Or.inl (by rw [releaseAll_conns, if_pos hi])
  · exact Or.inr (of_conns herr (by rw [releaseAll_conns, if_neg hi]) hsends)

/-- The slot that is taken was free. -/
theorem of_attempt {a : Alloc} {fd : Int} {getfl done : Bool}
    {r : Except Fault (Nat × Process)} {index : Nat} (hbusy : ¬ s.IsFree i)
    (herr : (s.conns i).error ≠ .none) (h : Attempt s a fd getfl done r)
    (hr : r = .ok (index, s')) : Inert i s s' := by
  rcases h.wires hr with rfl | ⟨j, hfree, hw⟩
  · exact refl herr
  · have hne : i ≠ j := by
      rintro rfl
      exact hbusy hfree
    obtain ⟨e, he, hkeep⟩ := hw.others i hne
    exact ⟨⟨e, hkeep herr, he⟩, [], by rw [hw.sends, List.append_nil],
      fun _ hc => absurd hc List.not_mem_nil⟩

end Inert

/-! ### Loops that pass over a connection

A loop may give the connection another error in one round and come to it again in a later one,
so what is carried through the rounds is that whatever has an error is passed over.
-/

namespace Passes

theorem refl (s : Process) : Passes i s s := Inert.refl

theorem trans (h : Passes i s t) (h' : Passes i t s') : Passes i s s' :=
  fun herr => (h herr).trans (h' (h herr).error)

theorem sendVia {connId : Nat} {addr : Option Address} {data : List UInt8} {os : SendAnswers}
    {r : SendResult} (h : s.sendVia connId addr data os = .ok (r, s')) : Passes i s s' := by
  obtain ⟨conn, calls, hspoke⟩ := sendVia_spoke h
  exact fun herr => Inert.of_spoke herr hspoke

theorem sendToAll {connIds : List Nat} {data : List UInt8} {os : SendAnswers}
    (h : s.sendToAll connIds data os = .ok s') : Passes i s s' :=
  sendToAll_rel refl (fun _ _ _ => trans) (fun _ _ _ _ => sendVia) h

theorem update {os : SendAnswers} (h : s.update os = .ok s') : Passes i s s' := by
  refine foldlM_rel refl (fun _ _ _ => trans) (fun t conn t' ht => ?_) _ s s' h
  obtain ⟨calls, hspoke⟩ := updateOne_spoke ht
  exact fun herr => Inert.of_spoke herr hspoke

theorem recvFromAll {connIds : List Nat} {os : PollAnswers}
    (h : s.recvFromAll connIds os = .ok s') : Passes i s s' := by
  refine recvFromAll_rel refl (fun _ _ _ => trans) (fun t conn herr => ?_)
    (fun t id os r t' hr herr => Inert.of_receive herr hr) h
  obtain ⟨e, he, hkeep⟩ := (OnlyErrors.setError t conn (e := .pollFailed) nofun).conns i
  exact ⟨⟨e, hkeep herr, he⟩, [], (List.append_nil _).symm,
    fun _ hc => absurd hc List.not_mem_nil⟩

end Passes

namespace Inert

/-- **One operation of any kind.** -/
theorem of_step (hok : SlotsOK s) (hbusy : ¬ s.IsFree i) (herr : (s.conns i).error ≠ .none)
    {op : Op} (h : op.step s = .ok s') : s'.conns i = {} ∨ Inert i s s' := by
  unfold Op.step at h
  cases op with
  | create host port connect os =>
      obtain ⟨index, hr⟩ := snd_returns.mp h
      exact Or.inr (of_attempt hbusy herr (hok.create_attempt host port connect os) hr)
  | serve port os =>
      obtain ⟨index, hr⟩ := snd_returns.mp h
      exact Or.inr (of_attempt hbusy herr (hok.serve_attempt port os) hr)
  | send connId data os =>
      obtain ⟨r, hr⟩ := snd_returns.mp h
      exact Or.inr (Passes.sendVia hr herr)
  | sendTo connId addr data os =>
      obtain ⟨r, hr⟩ := snd_returns.mp h
      exact Or.inr (Passes.sendVia hr herr)
  | sendToAll connIds data os => exact Or.inr (Passes.sendToAll h herr)
  | recv connId os =>
      obtain ⟨r, hr⟩ := snd_returns.mp h
      exact Or.inr (of_receive herr hr)
  | recvFrom connId os =>
      obtain ⟨r, hr⟩ := snd_returns.mp h
      exact Or.inr (of_receive herr hr)
  | recvFromAll connIds os => exact Or.inr (Passes.recvFromAll h herr)
  | update os => exact Or.inr (Passes.update h herr)
  | close connId => exact of_close herr h
  | sendOneshot host port data os =>
      obtain ⟨e, hr⟩ := snd_returns.mp h
      rcases sendOneshot_calls hr with rfl | ⟨-, calls, hcalls, -, hclose⟩
      · exact Or.inr (refl herr)
      have hsent : Inert i s
          { s with sockets := s.sockets ++ [os.socket], sends := s.sends ++ calls } := by
        refine ⟨⟨_, herr, rfl⟩, calls, rfl, fun c hc => ?_⟩
        rw [(hcalls c hc).2.2]
        exact nofun
      exact (of_close hsent.error hclose).imp_right hsent.trans

end Inert

/--
**Errors are final.**  Once a connection in use has an error, whatever the pool is asked to do
and whatever the system answers, no call is made for it and nothing is received by it: as long
as its slot is not reset it has the same descriptor, buffer and state, and an error.
-/
theorem errors_final (promise : Process → Int → Prop) (s : Process)
    (h : (pool promise).Reachable s) (i : Fin maxConnections) (hbusy : (s.conns i).state ≠ .free)
    (herr : (s.conns i).error ≠ .none) (ops : List Op)
    (hkept : (Machine.ofStep Op.step).Throughout (fun t => t.conns i ≠ {}) s ops) (s' : Process)
    (hrun : ops.foldlM Op.step s = .ok s') :
    (∃ e, e ≠ .none ∧ s'.conns i = { s.conns i with error := e }) ∧
      ∃ calls, s'.sends = s.sends ++ calls ∧ ∀ c ∈ calls, c.via.conn ≠ some i.val := by
  suffices hinert : Inert i s s' from ⟨hinert.same, hinert.calls⟩
  have hok : SlotsOK s := SlotsOK.of_reachable h
  clear h
  induction ops generalizing s with
  | nil =>
      cases hrun
      exact Inert.refl herr
  | cons op ops ih =>
      rw [List.foldlM_cons] at hrun
      obtain ⟨t, ht, hrun⟩ := bind_returns.mp hrun
      have hkept' := hkept.2 t ht
      have hstep : Inert i s t :=
        (Inert.of_step hok hbusy herr ht).resolve_left hkept'.start
      exact hstep.trans (ih t (by rw [hstep.state]; exact hbusy) hstep.error hkept' hrun
        (hok.of_step ht))

/-- The system refuses the first datagram of a connection for good; a second one is not sent, an
update does nothing, and a poll that fails replaces the error. -/
theorem errors_final_refused :
    ∃ s, (pool Fresh).Reachable s ∧ (s.conns 0).error = .sendFailed ∧ s.sends.length = 1 ∧
      ∃ s', [Op.send 0 [2] {}, .update {},
          .recvFromAll [0] { poll := none, recv := fun _ => { fionread := none, received := none } }
        ].foldlM Op.step s = .ok s' ∧ (s'.conns 0).error = .pollFailed ∧
        ∃ calls, s'.sends = s.sends ++ calls ∧ ∀ c ∈ calls, c.via.conn ≠ some 0 := by
  let ops : List Op := [.send 0 [2] {}, .update {},
    .recvFromAll [0] { poll := none, recv := fun _ => { fionread := none, received := none } }]
  obtain ⟨s, hs, hP⟩ := Machine.exists_reachable start_empty
    [.serve 9000 { socket := 3 }, .send 0 [1] { outcome := fun _ => .failed }]
    (fun s => decide ((s.conns 0).state ≠ .free ∧ (s.conns 0).error = .sendFailed ∧
        s.sends.length = 1 ∧ (Machine.ofStep Op.step).Throughout (fun t => t.conns 0 ≠ {}) s ops) &&
      checkResult (ops.foldlM Op.step s) fun s' => decide ((s'.conns 0).error = .pollFailed))
    (by decide +kernel)
  obtain ⟨hstart, hend⟩ := Bool.and_eq_true_iff.mp hP
  obtain ⟨hbusy, herr, hlen, hkept⟩ := of_decide_eq_true hstart
  obtain ⟨s', hrun, herr'⟩ := returns_of_checkResult hend
  have hne : (s.conns 0).error ≠ .none := by
    rw [herr]
    nofun
  exact ⟨s, hs, herr, hlen, s', hrun, of_decide_eq_true herr',
    (errors_final Fresh s hs 0 hbusy hne ops hkept s' hrun).2⟩

end Ytl.Udp
