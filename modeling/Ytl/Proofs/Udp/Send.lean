/-
What one call of `send` or `send_to` does.

The queue is flushed first.  If that is told to wait, the datagram is queued behind the
others; if not, the system is called with it, whatever the flush has left behind, and it is
queued when the system is not ready for it.  `Sends` has a constructor for each exit.

The two functions differ in the address, and in nothing else.  `send_to_all` is `send` for each
connection of its list, and `send_oneshot` does not touch the queue: it opens a socket of its own,
calls the system at most once, and closes the slot with the number of the descriptor.
-/
import Ytl.Proofs.Udp.Receive

namespace Ytl.Udp.Process

/-- The call of the system with the datagram that was given to `send`. -/
def ownCall (s : Process) (conn : Fin maxConnections) (addr : Option Address)
    (data : List UInt8) (ret : SendOutcome) : SendCall where
  via := s.endpoint conn
  owner := s.endpoint conn
  serial := none
  bytes := data
  dest := addr
  outcome := ret

/-- The state after that call. -/
def handOver (s : Process) (conn : Fin maxConnections) (addr : Option Address)
    (data : List UInt8) (ret : SendOutcome) : Process :=
  { s with sends := s.sends ++ [s.ownCall conn addr data ret] }

/-- The exits of a call on the slot `conn`. -/
inductive Sends (s : Process) (conn : Fin maxConnections) (addr : Option Address)
    (data : List UInt8) (os : SendAnswers) : SendResult → Process → Prop
  | skipped (huse : ¬ s.usable conn.val = true) : Sends s conn addr data os .failed s
  | blocked {t s' : Process} {r : SendResult} (huse : s.usable conn.val = true)
      (hflush : s.tryFlushQueue conn.val os.outcome = .ok (true, t))
      (hqueue : t.queuePacket (t.endpoint conn) addr data (os.realloc s.sends.length) =
        .ok (r, s')) : Sends s conn addr data os r s'
  | sent {t : Process} (huse : s.usable conn.val = true)
      (hflush : s.tryFlushQueue conn.val os.outcome = .ok (false, t))
      (hret : os.outcome t.sends.length = .sent) :
      Sends s conn addr data os .ok (t.handOver conn addr data .sent)
  | refused {t s' : Process} {r : SendResult} (huse : s.usable conn.val = true)
      (hflush : s.tryFlushQueue conn.val os.outcome = .ok (false, t))
      (hret : os.outcome t.sends.length = .wouldBlock)
      (hqueue : (t.handOver conn addr data .wouldBlock).queuePacket (t.endpoint conn) addr data
        (os.realloc s.sends.length) = .ok (r, s')) : Sends s conn addr data os r s'
  | failed {t : Process} (huse : s.usable conn.val = true)
      (hflush : s.tryFlushQueue conn.val os.outcome = .ok (false, t))
      (hret : os.outcome t.sends.length = .failed) :
      Sends s conn addr data os .failed
        ((t.handOver conn addr data .failed).setError conn .sendFailed)

/-- **What a call has done.** -/
theorem sendVia_sends {s s' : Process} {connId : Nat} {addr : Option Address}
    {data : List UInt8} {os : SendAnswers} {r : SendResult}
    (h : s.sendVia connId addr data os = .ok (r, s')) :
    ∃ conn : Fin maxConnections, conn.val = connId ∧ Sends s conn addr data os r s' := by
  unfold sendVia at h
  obtain ⟨conn, hconn, h⟩ := bind_returns.mp h
  rw [ref_eq_ok.mp hconn] at h
  refine ⟨conn, (ref_eq_ok.mp hconn).symm, ?_⟩
  by_cases huse : s.usable conn.val = true
  case neg =>
    rw [if_pos (not_not.mp fun hc => huse ((usable_val s conn).mpr hc))] at h
    cases h
    exact Sends.skipped huse
  rw [if_neg ((usable_val s conn).mp huse)] at h
  obtain ⟨⟨blocked, t⟩, hflush, h⟩ := bind_returns.mp h
  cases blocked with
  | true => exact Sends.blocked huse hflush h
  | false =>
      dsimp only at h
      rw [if_neg Bool.false_ne_true] at h
      split at h
      · rename_i hret
        cases h
        rw [hret]
        exact Sends.sent huse hflush hret
      · rename_i hret
        rw [hret] at h
        exact Sends.refused huse hflush hret h
      · rename_i hret
        cases h
        rw [hret]
        exact Sends.failed huse hflush hret

/-! ### The other functions that send -/

/-- What every call of `send` does, `send_to_all` does. -/
theorem sendToAll_rel {s s' : Process} {connIds : List Nat} {data : List UInt8}
    {os : SendAnswers} {R : Process → Process → Prop} (hrefl : ∀ t, R t t)
    (htrans : ∀ t u v, R t u → R u v → R t v)
    (hsend : ∀ t id r t', t.send id data os = .ok (r, t') → R t t')
    (h : s.sendToAll connIds data os = .ok s') : R s s' := by
  refine foldlM_rel hrefl htrans (fun t id t' ht => ?_) connIds s s' h
  obtain ⟨⟨r, u⟩, hu, ht⟩ := bind_returns.mp ht
  cases ht
  exact hsend t id r t' hu

/-- What `send_oneshot` has called the system with. -/
theorem sendOneshot_calls {s s' : Process} {host port : String} {data : List UInt8}
    {os : OneshotAnswers} {e : Error} (h : s.sendOneshot host port data os = .ok (e, s')) :
    s' = s ∨ (os.socket ≠ -1 ∧ ∃ calls : List SendCall,
      (∀ c ∈ calls, c.serial = none ∧ c.owner = ⟨none, os.socket⟩ ∧ c.via = ⟨none, os.socket⟩) ∧
      calls.length ≤ 1 ∧
      { s with sockets := s.sockets ++ [os.socket], sends := s.sends ++ calls }.close
        (toUnsigned 32 os.socket) = .ok s') := by
  unfold sendOneshot at h
  split at h
  · cases h
    exact Or.inl rfl
  rename_i hsock
  refine Or.inr ⟨hsock, ?_⟩
  dsimp only at h
  split at h
  · obtain ⟨t, ht, h⟩ := bind_returns.mp h
    cases h
    refine ⟨[], fun _ hc => absurd hc List.not_mem_nil, Nat.zero_le 1, ?_⟩
    rw [List.append_nil]
    exact ht
  · obtain ⟨t, ht, h⟩ := bind_returns.mp h
    cases h
    refine ⟨_, fun c hc => ?_, ?_, ht⟩
    · rw [List.mem_singleton.mp hc]
      exact ⟨rfl, rfl, rfl⟩
    · exact Nat.le_refl 1

/-- `send_oneshot` has got no socket, or it has recorded what it sent on one and closes the slot
with the number of that. -/
theorem sendOneshot_exits {s s' : Process} {host port : String} {data : List UInt8}
    {os : OneshotAnswers} {e : Error} (h : s.sendOneshot host port data os = .ok (e, s')) :
    s' = s ∨ ∃ sockets calls id, (∀ c ∈ calls, c.via = c.owner) ∧
      { s with sockets := sockets, sends := s.sends ++ calls }.close id = .ok s' := by
  rcases sendOneshot_calls h with rfl | ⟨-, calls, hcalls, -, hclose⟩
  · exact Or.inl rfl
  · refine Or.inr ⟨_, calls, _, fun c hc => ?_, hclose⟩
    obtain ⟨-, howner, hvia⟩ := hcalls c hc
    rw [hvia, howner]

end Ytl.Udp.Process
