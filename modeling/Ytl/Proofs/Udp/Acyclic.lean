/-
When closing comes back.

The slots in use, each with the slot numbered like its descriptor, are a graph in which
closing follows the edges until a slot that is `FREE`.  Closing, and sending without a
connection, only turn slots into stops; the one call that makes an edge is a `create` or a
`serve` that succeeds.  It closes a circle exactly when the slot with the number of the new
descriptor leads to the slot that was taken, and a circle is never opened again: a call that
would have to release one of its slots does not return.

The descriptors are promised to be slot numbers here, so that no slot leads out of `conns_`.
-/
import Ytl.Proofs.Udp.Slots

namespace Ytl.Udp

open Process

/-- `socket` fails, or returns a number that is a slot number too. -/
def SlotNumber (_ : Process) (fd : Int) : Prop := fd = -1 ∨ (0 ≤ fd ∧ fd < maxConnections)

instance (s : Process) (fd : Int) : Decidable (SlotNumber s fd) :=
  inferInstanceAs (Decidable (_ ∨ _))

instance (s : Process) (op : Op) : Decidable ((pool SlotNumber).admits s op) :=
  inferInstanceAs (Decidable (∀ fd ∈ op.descriptor, SlotNumber s fd))

theorem slotNumber_start : (pool SlotNumber).start Process.empty :=
  ⟨0, { socket := -1 }, Or.inl rfl, rfl⟩

/-- Every call of `close` comes back. -/
def ClosesEnd (s : Process) : Prop := ∀ id, id < maxConnections → ∃ s', s.close id = .ok s'

theorem closesEnd_iff {s : Process} : ClosesEnd s ↔ ∀ i, ∃ l, s.Walk i l := by
  constructor
  · intro h i
    obtain ⟨s', hs'⟩ := h i.val i.isLt
    obtain ⟨l, hw, -⟩ := (close_eq_ok s s' i).mp hs'
    exact ⟨l, hw⟩
  · intro h id hid
    obtain ⟨l, hw⟩ := h ⟨id, hid⟩
    exact ⟨s.releaseAll l, (close_eq_ok s _ ⟨id, hid⟩).mpr ⟨l, hw, rfl⟩⟩

/-- The slot that is numbered like the new descriptor does not lead to the slot that the new
connection takes. -/
def ClosesNoCircle (s : Process) (op : Op) : Prop :=
  ∀ (i j : Fin maxConnections), s.freeIndices.getLast? = some i.val →
    op.opens = some (j.val : Int) → ¬ Leads s.next s.IsFree j i

/-- A call that makes a connection has got a descriptor for it. -/
theorem Op.opens_ne {op : Op} {fd : Int} (h : op.opens = some fd) : fd ≠ -1 := by
  cases op with
  | create host port connect os =>
      obtain ⟨hdone, hfd⟩ := Option.ite_none_right_eq_some.mp h
      rw [← Option.some.inj hfd]
      exact ne_of_createSucceeds hdone
  | serve port os =>
      obtain ⟨hdone, hfd⟩ := Option.ite_none_right_eq_some.mp h
      rw [← Option.some.inj hfd]
      exact ne_of_serveSucceeds hdone
  | _ => cases h

/-- The slot with the number of the descriptor is the next one. -/
theorem next_of_socket {s : Process} {i j : Fin maxConnections}
    (h : (s.conns i).socket = (j.val : Int)) : s.next i = some j := by
  have hj : j.val < 1024 := Nat.lt_of_lt_of_eq j.isLt maxConnections_eq
  rw [next_eq_some, h, toUnsigned_of_bounds (by omega) (by omega), Int.toNat_natCast]

/-! ### The invariant

With descriptors that are slot numbers every slot in use has a next slot, so a call of `close`
that does not come back goes around a circle; it cannot leave the array.
-/

/-- The descriptors of the slots in use are slot numbers. -/
structure InSlots (s : Process) : Prop where
  slots : SlotsOK s
  socket : ∀ i, ¬ s.IsFree i → 0 ≤ (s.conns i).socket ∧ (s.conns i).socket < maxConnections

namespace InSlots

variable {s s' : Process} {op : Op}

theorem of_empty : InSlots Process.empty :=
  ⟨SlotsOK.of_empty, fun _ hbusy => absurd rfl hbusy⟩

/-- What the slot number of a new connection is. -/
theorem exists_slot (ha : (pool SlotNumber).admits s op) {fd : Int} (hfd : op.descriptor = some fd)
    (hopens : op.opens = some fd) : ∃ j : Fin maxConnections, (j.val : Int) = fd := by
  obtain ⟨h0, hlt⟩ := (ha fd hfd).resolve_left (Op.opens_ne hopens)
  exact ⟨⟨fd.toNat, by omega⟩, Int.toNat_of_nonneg h0⟩

theorem of_step (h : InSlots s) (ha : (pool SlotNumber).admits s op)
    (hs : op.step s = .ok s') : InSlots s' := by
  refine ⟨h.slots.of_step hs, fun j hbusy => ?_⟩
  cases SlotStep.of_step h.slots hs with
  | same hsame _ =>
      rw [hsame.socket]
      exact h.socket j (by rw [IsFree, ← hsame.state]; exact hbusy)
  | @opened i a fd done ho hfd hopens =>
      by_cases hj : j = i
      · cases done with
        | true =>
            obtain ⟨k, hk⟩ := exists_slot ha hfd hopens
            rw [hj, ho.socket rfl, ← hk]
            have hlt := k.isLt
            omega
        | false =>
            -- the slot was on the free list and has been left `FREE`
            have hfree : s.IsFree i := h.slots.isFree_of_mem (by rw [ho.taken]; simp)
            rw [hj, IsFree, ho.state] at hbusy
            exact absurd hfree hbusy
      · obtain ⟨e, he⟩ := ho.others j hj
        rw [he]
        exact h.socket j fun hfree => hbusy ((ho.isFree_iff hj).mpr hfree)
  | closed hw hconns _ _ =>
      rw [IsFree, hconns, ← IsFree, releaseAll_isFree, not_or] at hbusy
      rw [hconns, releaseAll_conns, if_neg hbusy.1]
      exact h.socket j hbusy.2

theorem of_reachable (h : (pool SlotNumber).Reachable s) : InSlots s := by
  refine h.invariant (I := InSlots) ?_ fun s op s' hI ha hs => hI.of_step ha hs
  rintro s ⟨port, os, hfd, hs⟩
  rw [construct_eq] at hs
  split at hs
  · refine of_empty.of_step ?_ hs
    rintro fd ⟨⟩
    exact hfd
  · cases hs
    exact of_empty

/-- A call of `close` comes back, or it goes on for ever: no slot leads out of `conns_`. -/
theorem close_noReturn (h : InSlots s) {i : Fin maxConnections} (hno : ∀ l, ¬ s.Walk i l) :
    s.close i.val = .error .noReturn := by
  by_contra hreturns
  obtain ⟨l, hl⟩ := trail_of_freeSlot s closeDepth i hreturns
  refine hno l (hl.congr (fun x => ⟨Or.inl, fun hx => ?_⟩) fun _ _ => rfl)
  by_contra hbusy
  obtain ⟨h0, hlt⟩ := h.socket x hbusy
  have hnext : s.next x = some ⟨(s.conns x).socket.toNat, by omega⟩ :=
    next_of_socket (Int.toNat_of_nonneg h0).symm
  rw [hx.resolve_left hbusy] at hnext
  cases hnext

end InSlots

/-! ### What a step does to the circles

Releasing a walk turns its slots into stops, and a stop is on no circle, so nothing changes
for the other slots: a walk that ended ends no later, and one that did not end cannot meet the
released slots.  Making a connection gives a stop a next slot, which is the one step that is
not monotone, and there the question is whether that next slot leads back.
-/

section Steps

variable {s s' : Process} {op : Op} {i : Fin maxConnections}

/-- Releasing the slots of a walk neither makes nor opens a circle. -/
theorem walks_released_iff {l : List (Fin maxConnections)} (hw : s.Walk i l) :
    (∀ a, ∃ l', (s.releaseAll l).Walk a l') ↔ ∀ a, ∃ l', s.Walk a l' := by
  have hnext : ∀ x, ¬ (s.releaseAll l).IsFree x → (s.releaseAll l).next x = s.next x := by
    intro x hx
    rw [releaseAll_isFree, not_or] at hx
    rw [next, next, releaseAll_conns, if_neg hx.1]
  constructor
  · intro h a
    obtain ⟨l', hl'⟩ := h a
    -- a walk that ended at a released slot goes on along the walk that released it
    obtain ⟨rest, hrest, -⟩ := hl'.extend (R := fun x => x ∈ l)
      (fun x hx => (releaseAll_isFree.mp hx).symm)
      (fun x hx hfree => hx (releaseAll_isFree.mpr (Or.inr hfree))) hnext
      (fun x hx => by
        obtain ⟨lx, hlx, hsuf⟩ := hw.suffix_of_mem hx
        exact ⟨lx, hlx, fun y hy => hsuf.subset hy⟩)
    exact ⟨l' ++ rest, hrest⟩
  · intro h a
    obtain ⟨l', hl'⟩ := h a
    exact hl'.cut (fun x hx => releaseAll_isFree.mpr (Or.inr hx)) hnext

/-- Where the stops are the same and the slots in use lead on as before. -/
theorem walks_congr (hfree : ∀ x, s'.IsFree x ↔ s.IsFree x)
    (hnext : ∀ x, ¬ s.IsFree x → s'.next x = s.next x) :
    (∀ a, ∃ l, s'.Walk a l) ↔ ∀ a, ∃ l, s.Walk a l := by
  constructor
  · intro h a
    obtain ⟨l, hl⟩ := h a
    refine ⟨l, hl.congr (fun x => (hfree x).symm) fun x hx => (hnext x fun hc => hx ?_).symm⟩
    exact (hfree x).mpr hc
  · intro h a
    obtain ⟨l, hl⟩ := h a
    exact ⟨l, hl.congr hfree hnext⟩

theorem closesNoCircle_of_none (hopens : op.opens = none) : ClosesNoCircle s op := by
  intro i j _ hj
  rw [hopens] at hj
  cases hj

/-- **One operation of any kind.** -/
theorem closesEnd_step (h : InSlots s) (ha : (pool SlotNumber).admits s op)
    (hs : op.step s = .ok s') : ClosesEnd s' ↔ ClosesEnd s ∧ ClosesNoCircle s op := by
  rw [closesEnd_iff, closesEnd_iff]
  cases SlotStep.of_step h.slots hs with
  | same hsame hopens =>
      have hno : ClosesNoCircle s op := by
        rcases hopens with hopens | hnil
        · exact closesNoCircle_of_none hopens
        · intro i j hi
          rw [hnil] at hi
          cases hi
      rw [and_iff_left hno]
      refine walks_congr (fun x => ?_) fun x _ => ?_
      · rw [IsFree, IsFree, hsame.state]
      · rw [next, next, hsame.socket]
  | @opened i a fd done ho hfd hopens =>
      have hfree : s.IsFree i := h.slots.isFree_of_mem (by rw [ho.taken]; simp)
      have hlast : s.freeIndices.getLast? = some i.val := by rw [ho.taken]; simp
      cases done with
      | false =>
          rw [and_iff_left (closesNoCircle_of_none hopens)]
          refine walks_congr (fun x => ?_) fun x hx => ?_
          · by_cases hxi : x = i
            · rw [hxi, IsFree, IsFree, ho.state]
              rfl
            · exact ho.isFree_iff hxi
          · exact ho.next_eq fun hxi => hx (by rw [hxi]; exact hfree)
      | true =>
          obtain ⟨j, rfl⟩ := InSlots.exists_slot ha hfd hopens
          have hbusy : ¬ s'.IsFree i := not_isFree_of_active ho.state
          rw [trails_link_iff hfree hbusy (next_of_socket (ho.socket rfl))
            (fun x hx => ho.isFree_iff hx) fun x hx => ho.next_eq hx]
          refine and_congr_right fun _ => ⟨fun hlead i' j' hi' hj' => ?_, fun hno => ?_⟩
          · rw [hlast] at hi'
            rw [hopens] at hj'
            have hii : i = i' := Fin.ext (Option.some.inj hi')
            have hjj : j = j' := Fin.ext (by simpa using hj')
            rw [← hii, ← hjj]
            exact hlead
          · exact hno i j hlast hopens
  | closed hw hconns _ hopens =>
      rw [and_iff_left (closesNoCircle_of_none hopens), ← walks_released_iff hw]
      refine walks_congr (fun x => ?_) fun x _ => ?_
      · rw [IsFree, IsFree, hconns]
      · rw [next, next, hconns]

end Steps

/--
**When every close ends.**  After any history of calls every call of `close` comes back if and
only if no `create` or `serve` of the history took a slot that the slot numbered like its
descriptor leads to.  The first call of a history may be the one the constructor makes.
-/
theorem close_ends_iff (ops : List Op) (s : Process)
    (hadm : (pool SlotNumber).Admitted Process.empty ops)
    (hrun : ops.foldlM Op.step Process.empty = .ok s) :
    ClosesEnd s ↔ (pool SlotNumber).Meets ClosesNoCircle Process.empty ops := by
  have hempty : ClosesEnd Process.empty :=
    closesEnd_iff.mpr fun i => ⟨[], Trail.done rfl⟩
  have h := Machine.completed_iff_meets (m := pool SlotNumber) (I := InSlots) (P := ClosesEnd)
    (fun _ _ _ hI ha hs => hI.of_step ha hs) (fun _ _ _ hI ha hs => closesEnd_step hI ha hs)
    ops Process.empty s InSlots.of_empty hadm hrun
  rw [h, and_iff_right hempty]

/-- One connection on descriptor 3. -/
theorem close_ends_single :
    ∃ s, [Op.serve 9000 { socket := 3 }].foldlM Op.step Process.empty = .ok s ∧
      (ClosesEnd s ↔
        (pool SlotNumber).Meets ClosesNoCircle Process.empty [.serve 9000 { socket := 3 }]) := by
  have hrun : checkResult ([Op.serve 9000 { socket := 3 }].foldlM Op.step Process.empty)
      (fun _ => true) = true := by decide +kernel
  have hadm : (pool SlotNumber).Admitted Process.empty [.serve 9000 { socket := 3 }] :=
    ⟨by decide +kernel, fun _ _ => trivial⟩
  obtain ⟨s, hs, -⟩ := returns_of_checkResult hrun
  exact ⟨s, hs, close_ends_iff _ s hadm hs⟩

/-- Three calls of `serve` that get no descriptor use up slots, and then the connection in
slot 3 has the descriptor 3. -/
theorem close_never_ends :
    ∃ s, (pool SlotNumber).Reachable s ∧ s.close (3 : Fin maxConnections).val =
      .error .noReturn ∧ ¬ ClosesEnd s := by
  obtain ⟨s, hs, hP⟩ := Machine.exists_reachable slotNumber_start
    [.serve 9000 { socket := -1 }, .serve 9001 { socket := -1 }, .serve 9002 { socket := -1 },
      .serve 9003 { socket := 3 }]
    (fun s => (s.conns 3).state = .active ∧ s.next 3 = some 3) (by decide +kernel)
  obtain ⟨hact, hnext⟩ := of_decide_eq_true hP
  have hno : ∀ l, ¬ s.Walk 3 l := fun l hw =>
    hw.next_ne_self (not_isFree_of_active hact) hnext
  refine ⟨s, hs, (InSlots.of_reachable hs).close_noReturn hno, fun hends => ?_⟩
  obtain ⟨l, hw⟩ := closesEnd_iff.mp hends 3
  exact hno l hw

/-! ### Sending without a connection

`send_oneshot` closes the descriptor it has opened, by way of the pool's own `close`, so the
slot with that number is what gets closed.
-/

/-- `send_oneshot` comes back and has left every connection, the free list and the queue as
they were. -/
def OneshotIsPrivate (s : Process) (host port : String) (data : List UInt8)
    (os : OneshotAnswers) : Prop :=
  ∃ e s', s.sendOneshot host port data os = .ok (e, s') ∧ s'.conns = s.conns ∧
    s'.freeIndices = s.freeIndices ∧ s'.packetQueue = s.packetQueue

/-- The end of `send_oneshot`, in a state that has recorded its socket and its datagram:
closing leaves everything as it was if the slot is not in use, and only then. -/
theorem close_private_iff {s t : Process} (j : Fin maxConnections) (e : Error)
    (hconns : t.conns = s.conns) (hfree : t.freeIndices = s.freeIndices)
    (hqueue : t.packetQueue = s.packetQueue) :
    (∃ e' s', (t.close j.val >>= fun u => .ok (e, u)) = .ok (e', s') ∧ s'.conns = s.conns ∧
      s'.freeIndices = s.freeIndices ∧ s'.packetQueue = s.packetQueue) ↔
      (s.conns j).state = .free := by
  rw [← hconns, ← hfree, ← hqueue]
  constructor
  · rintro ⟨e', s', hrun, hsame, -⟩
    obtain ⟨u, hu, hrun⟩ := bind_returns.mp hrun
    cases hrun
    obtain ⟨l, hw, rfl⟩ := (close_eq_ok t s' j).mp hu
    by_contra hbusy
    have hj : j ∈ l := (Leads.self j).mem_trail hbusy hw
    rw [← hsame, releaseAll_conns, if_pos hj] at hbusy
    exact hbusy rfl
  · intro hj
    have hw : t.Walk j [] := Trail.done hj
    refine ⟨e, t, ?_, rfl, rfl, rfl⟩
    rw [(close_eq_ok t t j).mpr ⟨[], hw, rfl⟩]
    rfl

/--
**When `send_oneshot` leaves the pool alone.**  It closes the slot numbered like its private
descriptor, so it does so exactly when no connection in use has that number.
-/
theorem sendOneshot_private_iff (s : Process) (host port : String) (data : List UInt8)
    (os : OneshotAnswers) (hfd : SlotNumber s os.socket) :
    OneshotIsPrivate s host port data os ↔
      ∀ j : Fin maxConnections, (j.val : Int) = os.socket → (s.conns j).state = .free := by
  unfold OneshotIsPrivate sendOneshot
  by_cases hsock : os.socket = -1
  · rw [if_pos hsock]
    refine iff_of_true ⟨_, s, rfl, rfl, rfl, rfl⟩ fun j hj => ?_
    omega
  rw [if_neg hsock]
  obtain ⟨h0, hlt⟩ := hfd.resolve_left hsock
  obtain ⟨j, hj⟩ : ∃ j : Fin maxConnections, (j.val : Int) = os.socket :=
    ⟨⟨os.socket.toNat, by omega⟩, Int.toNat_of_nonneg h0⟩
  have hindex : toUnsigned 32 os.socket = j.val := by
    have hlt' : j.val < 1024 := Nat.lt_of_lt_of_eq j.isLt maxConnections_eq
    rw [← hj, toUnsigned_of_bounds (by omega) (by omega), Int.toNat_natCast]
  have hslot : (∀ k : Fin maxConnections, (k.val : Int) = os.socket →
      (s.conns k).state = .free) ↔ (s.conns j).state = .free := by
    constructor
    · intro h
      exact h j hj
    · intro h k hk
      have heq : k = j := Fin.ext (by omega)
      rw [heq]
      exact h
  rw [hslot, hindex]
  dsimp only
  split
  · exact close_private_iff j _ rfl rfl rfl
  · exact close_private_iff j _ rfl rfl rfl

/-- Two connections are in use and a third has been closed; no slot in use has the number of the
descriptor, and the datagram is refused. -/
theorem sendOneshot_private_beside :
    ∃ s, (pool SlotNumber).Reachable s ∧ (s.conns 0).state = .active ∧
      (s.conns 1).state = .active ∧ s.freeIndices.getLast? = some 2 ∧
      OneshotIsPrivate s "localhost" "80" [1]
        { socket := 6, outcome := .failed,
          getaddrinfo := fun _ _ _ => some { addrLen := 16 } } := by
  obtain ⟨s, hs, hP⟩ := Machine.exists_reachable slotNumber_start
    [.serve 9000 { socket := 3 }, .serve 9001 { socket := 4 }, .serve 9002 { socket := 5 },
      .close 2]
    (fun s => (s.conns 0).state = .active ∧ (s.conns 1).state = .active ∧
      s.freeIndices.getLast? = some 2 ∧ (s.conns 6).state = .free) (by decide +kernel)
  obtain ⟨hfirst, hsecond, hlast, hfree⟩ := of_decide_eq_true hP
  refine ⟨s, hs, hfirst, hsecond, hlast, (sendOneshot_private_iff s "localhost" "80" [1] _
    (Or.inr ⟨by decide, by rw [maxConnections_eq]; decide⟩)).mpr fun j hj => ?_⟩
  have hsix : (6 : Fin maxConnections).val = 6 := by decide +kernel
  have hnumber : (j.val : Int) = 6 := hj
  have heq : j = 6 := Fin.ext (by omega)
  rw [heq]
  exact hfree

/-- Four calls of `serve` get no descriptor, so that the fifth connection is in slot 4.  The
call that has the descriptor 4 to itself resets it. -/
theorem sendOneshot_not_private :
    ∃ s, (pool SlotNumber).Reachable s ∧ (s.conns 4).state = .active ∧
      (∃ e s', s.sendOneshot "localhost" "80" [1] { socket := 4 } = .ok (e, s') ∧
        (s'.conns 4).state = .free) ∧
      ¬ OneshotIsPrivate s "localhost" "80" [1] { socket := 4 } := by
  obtain ⟨s, hs, hP⟩ := Machine.exists_reachable slotNumber_start
    [.serve 9000 { socket := -1 }, .serve 9001 { socket := -1 }, .serve 9002 { socket := -1 },
      .serve 9003 { socket := -1 }, .serve 9004 { socket := 3 }]
    (fun s => (s.conns 4).state = .active ∧
      checkResult (s.sendOneshot "localhost" "80" [1] { socket := 4 })
        fun r => decide ((r.2.conns 4).state = .free)) (by decide +kernel)
  obtain ⟨hact, hrun⟩ := of_decide_eq_true hP
  obtain ⟨⟨e, s'⟩, hs', hreset⟩ := returns_of_checkResult hrun
  have hfree : (s'.conns 4).state = .free := of_decide_eq_true hreset
  refine ⟨s, hs, hact, ⟨e, s', hs', hfree⟩, ?_⟩
  rintro ⟨e', t, ht, hconns, -⟩
  rw [hs'] at ht
  cases ht
  rw [hconns, hact] at hfree
  cases hfree

end Ytl.Udp
