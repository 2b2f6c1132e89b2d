/-
What a new connection starts with.

A slot that is taken keeps the `error` it has, and nothing but `free_slot` ever clears that
field: a failed `create` leaves its error on a slot that closing does not touch, and
`recv_from_all` writes `POLL_FAILED` to every slot it is given.  `init_socket` looks at
`F_GETFL` only, and writes its error to the slot that is numbered like the descriptor.  So
whether a connection starts clean depends on the error its slot has on the free list, and
on whether the slot has the number of the descriptor.

The result of `F_SETFL` is no answer of the model, since the code does not look at it; here
it stands next to the answers.
-/
import Ytl.Proofs.Udp.Slots

namespace Ytl.Udp

open Process

/-! ### What is expected -/

/-- What is expected of a call of `create` or `serve` with the result `r`.  Whether the calls
for the socket all went well is `done`, `getfl` and `setfl` are the two calls of `fcntl`. -/
def OpensCleanly (s : Process) (r : Except Fault (Nat × Process)) (done getfl setfl : Bool) :
    Prop :=
  ∃ index s', r = .ok (index, s') ∧
    (∀ j : Fin maxConnections, j.val ≠ index → s'.conns j = s.conns j) ∧
    ∀ i : Fin maxConnections, i.val = index → done = true →
      ((getfl && setfl) = false → (s'.conns i).error = .asyncifyFailed) ∧
      ((getfl && setfl) = true → (s'.conns i).state = .active ∧ (s'.conns i).error = .none)

/-! ### What it depends on -/

/-- The slot `i` has the error that a new connection is to have.  If `F_GETFL` fails, that, or
the slot is the one that is numbered like the descriptor; if it is another one, that has to
have the error already. -/
def SlotClean (s : Process) (i : Fin maxConnections) (getfl setfl : Bool) (fd : Int) : Prop :=
  if getfl then (s.conns i).error = if setfl then .none else .asyncifyFailed
  else ∃ k : Fin maxConnections, k.val = toUnsigned 64 fd ∧ (k = i ∨
    (s.conns k).error = .asyncifyFailed ∧ (s.conns i).error = .asyncifyFailed)

/-- A call that makes a connection finds a slot that is as it should be. -/
def StartsClean (s : Process) (done getfl setfl : Bool) (fd : Int) : Prop :=
  ∀ i : Fin maxConnections, s.freeIndices.getLast? = some i.val → done = true →
    SlotClean s i getfl setfl fd

section Launch

variable {s s' t : Process} {i : Fin maxConnections} {a : Alloc} {fd : Int}
  {done getfl : Bool} {r : Except Fault (Nat × Process)}

/-- Every failure exit leaves the other slots alone. -/
theorem opensCleanly_fail (h : Opening s i a t) (e : Error) (getfl setfl : Bool) :
    OpensCleanly s (.ok (i.val, t.setError i e)) false getfl setfl := by
  refine ⟨i.val, _, rfl, fun j hj => ?_, fun _ _ hdone => absurd hdone Bool.false_ne_true⟩
  have hne : j ≠ i := fun heq => hj (congrArg Fin.val heq)
  rw [setError, setConn_of_ne _ _ hne]
  exact h.others j hne

/-- What is left to ask of a connection that has been made. -/
theorem opensCleanly_made (hstate : (s'.conns i).state = .active) (getfl setfl : Bool) :
    OpensCleanly s (.ok (i.val, s')) true getfl setfl ↔
      (∀ j, j ≠ i → s'.conns j = s.conns j) ∧
        (s'.conns i).error = if getfl && setfl then .none else .asyncifyFailed := by
  constructor
  · rintro ⟨index, s'', hr, hothers, hself⟩
    obtain ⟨rfl, rfl⟩ := Prod.mk.inj (Except.ok.inj hr)
    refine ⟨fun j hj => hothers j fun heq => hj (Fin.ext heq), ?_⟩
    obtain ⟨hfailed, hclean⟩ := hself i rfl rfl
    cases hfl : getfl && setfl with
    | true => exact (hclean hfl).2
    | false => exact hfailed hfl
  · rintro ⟨hothers, herr⟩
    refine ⟨i.val, s', rfl, fun j hj => ?_, fun i' hi' _ => ?_⟩
    · exact hothers j fun heq => hj (congrArg Fin.val heq)
    · rw [Fin.ext hi']
      refine ⟨fun hfl => ?_, fun hfl => ⟨hstate, ?_⟩⟩
      · rw [herr, hfl]
        rfl
      · rw [herr, hfl]
        rfl

theorem startsClean_iff (hlast : s.freeIndices.getLast? = some i.val) (setfl : Bool) :
    StartsClean s true getfl setfl fd ↔ SlotClean s i getfl setfl fd := by
  constructor
  · intro h
    exact h i hlast rfl
  · intro h i' hi' _
    rw [hlast] at hi'
    rw [← Fin.ext (Option.some.inj hi')]
    exact h

/-- `init_socket` writes its error to the slot `k`. -/
theorem opensCleanly_noted (h : Opening s i a t) (herr : (t.conns i).error = (s.conns i).error)
    (k : Fin maxConnections) (addr : Address) (setfl : Bool) :
    OpensCleanly s (.ok (i.val, (t.setError k .asyncifyFailed).setConn i
        { (t.setError k .asyncifyFailed).conns i with fromAddr := addr, state := .active }))
      true false setfl ↔
      (k = i ∨ (s.conns k).error = .asyncifyFailed ∧ (s.conns i).error = .asyncifyFailed) := by
  rw [opensCleanly_made (by rw [setConn_self]), setConn_self, setError, Bool.false_and]
  by_cases hk : k = i
  · refine iff_of_true ⟨fun j hj => ?_, ?_⟩ (Or.inl hk)
    · rw [setConn_of_ne _ _ hj, setConn_of_ne _ _ (by rw [hk]; exact hj), h.others j hj]
    · rw [hk, setConn_self]
      rfl
  · rw [setConn_of_ne _ _ (Ne.symm hk), herr]
    constructor
    · rintro ⟨hothers, hself⟩
      have hnote := hothers k hk
      rw [setConn_of_ne _ _ hk, setConn_self, h.others k hk] at hnote
      exact Or.inr ⟨(congrArg ConnectionData.error hnote).symm, hself⟩
    · intro hor
      obtain ⟨hnote, hself⟩ := hor.resolve_left hk
      refine ⟨fun j hj => ?_, hself⟩
      rw [setConn_of_ne _ _ hj]
      by_cases hjk : j = k
      · -- the error was there already
        rw [hjk, setConn_self, h.others k hk, ← hnote]
      · rw [setConn_of_ne _ _ hjk, h.others j hj]

/-- **Both ways a call ends.** -/
theorem opensCleanly_iff (h : Launch s i a fd getfl done r)
    (hlast : s.freeIndices.getLast? = some i.val) (setfl : Bool) :
    OpensCleanly s r done getfl setfl ↔ StartsClean s done getfl setfl fd := by
  cases h with
  | fail ht _ _ e _ =>
      exact iff_of_true (opensCleanly_fail ht e getfl setfl)
        fun _ _ hdone => absurd hdone Bool.false_ne_true
  | @finish t ht hconn _ addr =>
      have herr : (t.conns i).error = (s.conns i).error := by rw [hconn, opening]
      rw [startsClean_iff hlast, SlotClean]
      cases getfl with
      | true =>
          show OpensCleanly s (.ok (i.val, t.setConn i _)) true true setfl ↔ _
          rw [opensCleanly_made (by rw [setConn_self]), setConn_self, if_pos rfl, Bool.true_and,
            ← herr, and_iff_right]
          intro j hj
          rw [setConn_of_ne _ _ hj, ht.others j hj]
      | false =>
          rw [if_neg Bool.false_ne_true]
          unfold initSocket
          by_cases hk : toUnsigned 64 fd < maxConnections
          · rw [if_neg Bool.false_ne_true,
              show ref (toUnsigned 64 fd) = .ok ⟨_, hk⟩ from dif_pos hk]
            refine (opensCleanly_noted ht herr ⟨_, hk⟩ _ setfl).trans ⟨fun hor => ⟨_, rfl, hor⟩, ?_⟩
            rintro ⟨k, hval, hor⟩
            rwa [show k = ⟨_, hk⟩ from Fin.ext hval] at hor
          · rw [if_neg Bool.false_ne_true, show ref (toUnsigned 64 fd) = .error .outOfBounds from
              dif_neg hk]
            refine iff_of_false ?_ ?_
            · rintro ⟨index, s', hr, -⟩
              cases hr
            · rintro ⟨k, hval, -⟩
              exact hk (hval ▸ k.isLt)

/-- Where no slot is left nothing is taken. -/
theorem opensCleanly_attempt (h : Attempt s a fd getfl done r) (setfl : Bool) :
    OpensCleanly s r done getfl setfl ↔ StartsClean s done getfl setfl fd := by
  cases h with
  | full hnil =>
      refine iff_of_true ⟨_, s, rfl, fun _ _ => rfl, fun i hi => ?_⟩ fun i hi => ?_
      · exact absurd hi (Nat.ne_of_lt i.isLt)
      · rw [hnil] at hi
        cases hi
  | taken _ hlast hl => exact opensCleanly_iff hl hlast setfl

end Launch

/--
**When a connection starts clean.**  A call of `create` or `serve` changes no other connection,
records that the socket could not be made non-blocking, and otherwise makes a connection
without an error, exactly when the slot it takes is as it should be beforehand.
-/
theorem opens_cleanly_iff (promise : Process → Int → Prop) (s : Process)
    (h : (pool promise).Reachable s) (setfl : Bool) :
    (∀ host port connect os,
      OpensCleanly s (s.create host port connect os) (createSucceeds host port connect os)
        os.getfl setfl ↔
      StartsClean s (createSucceeds host port connect os) os.getfl setfl os.socket) ∧
    ∀ port os, OpensCleanly s (s.serve port os) (serveSucceeds os) os.getfl setfl ↔
      StartsClean s (serveSucceeds os) os.getfl setfl os.socket := by
  have hok : SlotsOK s := SlotsOK.of_reachable h
  exact ⟨fun host port connect os =>
      opensCleanly_attempt (hok.create_attempt host port connect os) setfl,
    fun port os => opensCleanly_attempt (hok.serve_attempt port os) setfl⟩

/-- One connection is in use, and the slot of a second one was closed after its poll had failed:
the next one starts clean, and so does one that cannot be made non-blocking if the descriptor is
the number of its slot. -/
theorem opens_cleanly_again :
    ∃ s, (pool Fresh).Reachable s ∧ (s.conns 0).state = .active ∧
      OpensCleanly s (s.serve 9002 { socket := 5 }) true true true ∧
      OpensCleanly s (s.create "localhost" "80" true
        { socket := 1, getfl := false, getaddrinfo := fun _ _ _ => some { addrLen := 16 } })
        true false true := by
  obtain ⟨s, hs, hP⟩ := Machine.exists_reachable start_empty
    [.serve 9000 { socket := 3 }, .serve 9001 { socket := 4 },
      .recvFromAll [1] { poll := none, recv := fun _ => { fionread := none, received := none } },
      .close 1]
    (fun s => (s.conns 0).state = .active ∧ s.freeIndices.getLast? = some 1 ∧
      (s.conns 1).error = .none) (by decide +kernel)
  obtain ⟨hact, hlast, herr⟩ := of_decide_eq_true hP
  have hone : (1 : Fin maxConnections).val = 1 := by decide +kernel
  have hslot : ∀ i : Fin maxConnections, s.freeIndices.getLast? = some i.val → i = 1 := by
    intro i hi
    rw [hlast] at hi
    exact Fin.ext (hone ▸ (Option.some.inj hi).symm)
  obtain ⟨hcreate, hserve⟩ := opens_cleanly_iff Fresh s hs true
  refine ⟨s, hs, hact, (hserve 9002 { socket := 5 }).mpr ?_,
    (hcreate "localhost" "80" true _).mpr ?_⟩
  · intro i hi _
    rw [hslot i hi]
    exact herr
  · intro i hi _
    rw [hslot i hi]
    exact ⟨1, hone, Or.inl rfl⟩

/-- `F_GETFL` fails on descriptor 3 of the connection in slot 0, and slot 3 gets the error;
and a poll that failed on a slot not in use leaves its error to the next connection. -/
theorem opens_not_cleanly :
    ¬ OpensCleanly Process.empty (Process.empty.serve 9000 { socket := 3, getfl := false })
      true false true ∧
    ∃ s, (pool Fresh).Reachable s ∧
      ¬ OpensCleanly s (s.serve 9000 { socket := 3 }) true true true := by
  constructor
  · rintro ⟨index, s', hr, hothers, -⟩
    have hrun : checkResult (Process.empty.serve 9000 { socket := 3, getfl := false })
        (fun r => decide (r.1 = 0 ∧ (r.2.conns 3).error = .asyncifyFailed)) = true := by
      decide +kernel
    obtain ⟨hindex, hnote⟩ := of_decide_eq_true (of_checkResult hrun hr)
    have hne : (3 : Fin maxConnections).val ≠ index := by
      rw [show index = 0 from hindex]
      decide +kernel
    rw [hothers 3 hne] at hnote
    cases hnote
  · obtain ⟨s, hs, hP⟩ := Machine.exists_reachable start_empty
      [.recvFromAll [0] { poll := none, recv := fun _ => { fionread := none, received := none } }]
      (fun s => checkResult (s.serve 9000 { socket := 3 })
        fun r => decide (r.1 = 0 ∧ (r.2.conns 0).error = .pollFailed)) (by decide +kernel)
    refine ⟨s, hs, ?_⟩
    rintro ⟨index, s', hr, -, hself⟩
    obtain ⟨hindex, hstale⟩ := of_decide_eq_true (of_checkResult hP hr)
    rw [((hself 0 hindex.symm rfl).2 rfl).2] at hstale
    cases hstale

end Ytl.Udp
