/-
Counting the slots.

A ledger keeps, next to the pool, the set of indices that `create` or `serve`
returned and that have not been closed since.  One expects the free list and that
set to share out the slots between them for ever.  They do as long as every close
of an index in the set finds a connection that was really opened and whose
descriptor is the index of a slot that is not in use; the first close that does
not meet this condition breaks the count, either because it puts nothing back or
because it puts back more than it was given.
-/
import Ytl.Proofs.Udp.Slots

namespace Ytl.Udp

open Process

/-! ### The ledger

The set of indices that are out is not in the code.  It is what a caller who keeps to the
rules has in hand, so it is kept beside the pool and changes with the answers of the pool
only.
-/

/-- The calls that take and return slots. -/
inductive SlotOp where
  | create (host port : String) (connect : Bool) (os : OpenAnswers)
  | serve (port : Nat) (os : OpenAnswers)
  | close (connId : Nat)

/-- The pool, and the indices handed out and not closed since. -/
structure Ledger where
  process : Process
  out : Finset Nat

namespace Ledger

/-- Record what `create` or `serve` returned. -/
def hand (l : Ledger) (r : Nat × Process) : Ledger :=
  ⟨r.2, if r.1 < maxConnections then insert r.1 l.out else l.out⟩

/-- A call is made on the pool; what it hands out or takes back is entered. -/
def step (l : Ledger) : SlotOp → Except Fault Ledger
  | .create host port connect os => l.hand <$> l.process.create host port connect os
  | .serve port os => l.hand <$> l.process.serve port os
  | .close connId => (fun s => ⟨s, l.out.erase connId⟩) <$> l.process.close connId

/-- `socket` returns a descriptor or -1, `init_socket` stays inside `conns_`, and
`close` is called with the index of a slot. -/
def admits (_ : Ledger) : SlotOp → Prop
  | .create _ _ _ os => -1 ≤ os.socket ∧ InitInBounds os
  | .serve _ os => -1 ≤ os.socket ∧ InitInBounds os
  | .close connId => connId < maxConnections

/-- A pool on which nothing has been called: the constructor's own `serve`, if its
port is not 0, is the first step of a run. -/
def fresh : Ledger := ⟨Process.empty, ∅⟩

/-- Runs of calls that keep to the rules, from a pool on which nothing has been called. -/
def machine : Machine Ledger SlotOp Fault where
  start l := l = fresh
  admits := admits
  step := step

/-! ### The two sides of the comparison -/

/-- The free list and the indices handed out add up, and an index that was handed
out is back on the list once it has been closed. -/
def Balanced (l : Ledger) (op : SlotOp) (l' : Ledger) : Prop :=
  l'.process.freeIndices.length + l'.out.card = maxConnections ∧
    ∀ connId, op = .close connId → connId ∈ l.out → connId ∈ l'.process.freeIndices

/-- A close of an index that is handed out finds a connection that was opened, and
whose descriptor is the index of a slot that is not in use. -/
def ClosesOpened (l : Ledger) : SlotOp → Prop
  | .close connId => connId ∈ l.out → ∃ i j : Fin maxConnections, i.val = connId ∧
      (l.process.conns i).state ≠ .free ∧ l.process.next i = some j ∧
      (l.process.conns j).state = .free
  | _ => True

/-! ### What the ledger knows while the count is right

While every close has met the condition, a slot is either on the free list or handed out and
never both, so the two add up to the number of slots.
-/

/-- The free list and the indices handed out share out the slots. -/
structure Shared (l : Ledger) : Prop where
  slots : SlotsOK l.process
  out : ∀ index, index ∈ l.out ↔ index < maxConnections ∧ index ∉ l.process.freeIndices

namespace Shared

variable {l l' : Ledger}

theorem mem_or (h : Shared l) {index : Nat} (hlt : index < maxConnections) :
    index ∈ l.out ∨ index ∈ l.process.freeIndices := by
  by_cases hmem : index ∈ l.process.freeIndices
  · exact Or.inr hmem
  · exact Or.inl ((h.out index).mpr ⟨hlt, hmem⟩)

theorem of_fresh : Shared fresh := by
  refine ⟨SlotsOK.of_empty, fun index => ?_⟩
  show index ∈ (∅ : Finset Nat) ↔ index < maxConnections ∧ index ∉ Process.empty.freeIndices
  rw [SlotsOK.empty_freeIndices]
  simp

/-- The count follows from the sharing. -/
theorem count (h : Shared l) :
    l.process.freeIndices.length + l.out.card = maxConnections := by
  have hcompl : l.out = Finset.range maxConnections \ l.process.freeIndices.toFinset := by
    ext index
    simp only [h.out, Finset.mem_sdiff, Finset.mem_range, List.mem_toFinset]
  have hsub : l.process.freeIndices.toFinset ⊆ Finset.range maxConnections := by
    intro index hmem
    obtain ⟨i, rfl, -⟩ := h.slots.free index (List.mem_toFinset.mp hmem)
    exact Finset.mem_range.mpr i.isLt
  have hcard := Finset.card_sdiff_add_card_eq_card hsub
  rw [← hcompl, List.toFinset_card_of_nodup h.slots.nodup, Finset.card_range] at hcard
  omega

/-- Taking a slot moves its index from one side to the other. -/
theorem of_opened (h : Shared l) {i : Fin maxConnections} {a : Alloc} {fd : Int} {done : Bool}
    {s' : Process} (ho : Opened l.process i a fd done s') : Shared (l.hand (i.val, s')) := by
  refine ⟨h.slots.of_opened ho, fun index => ?_⟩
  have hnd := h.slots.nodup
  rw [ho.taken] at hnd
  have hi : i.val ∉ s'.freeIndices := by
    intro hmem
    exact (List.nodup_append.mp hnd).2.2 _ hmem i.val (by simp) rfl
  show index ∈ (if i.val < maxConnections then insert i.val l.out else l.out) ↔
    index < maxConnections ∧ index ∉ s'.freeIndices
  rw [if_pos i.isLt, Finset.mem_insert, h.out, ho.taken]
  by_cases hidx : index = i.val
  · subst hidx
    simp [hi]
  · simp [hidx]

/-- Closing one slot alone moves its index back. -/
theorem of_release (h : Shared l) {i j : Fin maxConnections}
    (hbusy : ¬ l.process.IsFree i) (hj : l.process.next i = some j)
    (hfree : l.process.IsFree j) :
    Shared ⟨l.process.releaseAll [i], l.out.erase i.val⟩ := by
  have hw : l.process.Walk i [i] := Trail.step hbusy hj (Trail.done hfree)
  refine ⟨h.slots.of_walk hw, fun index => ?_⟩
  show index ∈ l.out.erase i.val ↔ _ ∧ index ∉ (l.process.releaseAll [i]).freeIndices
  rw [releaseAll_freeIndices, Finset.mem_erase, h.out]
  by_cases hidx : index = i.val
  · subst hidx
    simp
  · simp [hidx]

end Shared

/-! ### One step

Each operation is looked at twice: a step that meets the condition keeps the sharing, and a
step that keeps the count has met the condition.
-/

variable {l l' : Ledger}

/-- Opening keeps the count, whether it succeeds or not. -/
theorem hand_spec (h : Shared l) {a : Alloc} {fd : Int} {getfl done : Bool}
    {r : Except Fault (Nat × Process)} (hatt : Attempt l.process a fd getfl done r)
    (hfd : -1 ≤ fd) (hne : done = true → fd ≠ -1) (hb : getfl = true ∨ fd < maxConnections) :
    ∃ l', l.hand <$> r = .ok l' ∧ Shared l' := by
  cases hatt with
  | full _ =>
      refine ⟨l, ?_, h⟩
      show Except.ok (l.hand (maxConnections, l.process)) = _
      unfold hand
      rw [if_neg (Nat.lt_irrefl _)]
  | taken _ _ hl =>
      obtain ⟨⟨index, s'⟩, hr⟩ := hl.returns hfd hne hb
      obtain ⟨rfl, ho⟩ := hl.opened hr
      rw [hr]
      exact ⟨l.hand (_, s'), rfl, h.of_opened ho⟩

theorem create_spec (h : Shared l) {host port : String} {connect : Bool} {os : OpenAnswers}
    (ha : l.admits (.create host port connect os)) :
    ∃ l', l.step (.create host port connect os) = .ok l' ∧ Shared l' :=
  hand_spec h (h.slots.create_attempt host port connect os) ha.1 ne_of_createSucceeds ha.2

theorem serve_spec (h : Shared l) {port : Nat} {os : OpenAnswers}
    (ha : l.admits (.serve port os)) :
    ∃ l', l.step (.serve port os) = .ok l' ∧ Shared l' :=
  hand_spec h (h.slots.serve_attempt port os) ha.1 ne_of_serveSucceeds ha.2

/-- An index that is not handed out is on the free list, so closing it does nothing. -/
theorem close_not_out (h : Shared l) {i : Fin maxConnections} (hout : i.val ∉ l.out) :
    l.step (.close i.val) = .ok l := by
  have hfree : l.process.IsFree i :=
    h.slots.isFree_of_mem ((h.mem_or i.isLt).resolve_left hout)
  have hc : l.process.close i.val = .ok l.process :=
    (close_eq_ok _ _ i).mpr ⟨[], Trail.done hfree, rfl⟩
  refine map_returns.mpr ⟨_, hc, ?_⟩
  rw [Finset.erase_eq_of_notMem hout]

theorem close_alone (h : Shared l) {i j : Fin maxConnections}
    (hbusy : ¬ l.process.IsFree i) (hj : l.process.next i = some j)
    (hfree : l.process.IsFree j) :
    ∃ l', l.step (.close i.val) = .ok l' ∧ Shared l' ∧ i.val ∈ l'.process.freeIndices := by
  have hc : l.process.close i.val = .ok (l.process.releaseAll [i]) :=
    (close_eq_ok _ _ i).mpr ⟨[i], Trail.step hbusy hj (Trail.done hfree), rfl⟩
  refine ⟨⟨l.process.releaseAll [i], l.out.erase i.val⟩, ?_,
    h.of_release hbusy hj hfree, ?_⟩
  · exact map_returns.mpr ⟨_, hc, rfl⟩
  · show i.val ∈ (l.process.releaseAll [i]).freeIndices
    rw [releaseAll_freeIndices]
    simp

/-- A close that keeps the count has released one slot. -/
theorem closesOpened_of_balanced (h : Shared l) {connId : Nat}
    (hs : l.step (.close connId) = .ok l') (hb : Balanced l (.close connId) l') :
    l.ClosesOpened (.close connId) := by
  intro hout
  obtain ⟨s', hc, rfl⟩ := map_returns.mp hs
  obtain ⟨i, w, rfl, hw, rfl⟩ := close_walk hc
  have hcount := h.count
  have hsum : (l.process.releaseAll w).freeIndices.length + (l.out.erase i.val).card
      = maxConnections := hb.1
  have hone : 1 ≤ l.out.card := Finset.card_pos.mpr ⟨_, hout⟩
  rw [releaseAll_freeIndices, Finset.card_erase_of_mem hout] at hsum
  simp only [List.length_append, List.length_map, List.length_reverse] at hsum
  have hlen : w.length = 1 := by omega
  have hbusy : ¬ l.process.IsFree i := by
    intro hfree
    rw [hw.eq_nil_iff.mpr hfree] at hlen
    simp at hlen
  obtain ⟨j, hj, hfree⟩ := (closesAlone_of_walk hw (by omega)).resolve_left hbusy
  exact ⟨i, j, rfl, hbusy, hj, hfree⟩

/-- A step that meets the condition keeps the sharing, and a close puts back what it
was given. -/
theorem step_of_closesOpened (h : Shared l) (op : SlotOp) (ha : l.admits op)
    (hC : l.ClosesOpened op) : ∃ l', l.step op = .ok l' ∧ Balanced l op l' ∧ Shared l' := by
  cases op with
  | create host port connect os =>
      obtain ⟨l', hs, h'⟩ := create_spec h ha
      exact ⟨l', hs, ⟨h'.count, nofun⟩, h'⟩
  | serve port os =>
      obtain ⟨l', hs, h'⟩ := serve_spec h ha
      exact ⟨l', hs, ⟨h'.count, nofun⟩, h'⟩
  | close connId =>
      by_cases hout : connId ∈ l.out
      · obtain ⟨i, j, rfl, hbusy, hj, hfree⟩ := hC hout
        obtain ⟨l', hs, h', hmem⟩ := close_alone h hbusy hj hfree
        refine ⟨l', hs, ⟨h'.count, ?_⟩, h'⟩
        intro id hid _
        cases hid
        exact hmem
      · refine ⟨l, close_not_out h (i := ⟨connId, ha⟩) hout, ⟨h.count, ?_⟩, h⟩
        intro id hid hmem
        cases hid
        exact absurd hmem hout

theorem closesOpened_of_step (h : Shared l) (op : SlotOp) (hs : l.step op = .ok l')
    (hb : Balanced l op l') : l.ClosesOpened op := by
  cases op with
  | create host port connect os => exact trivial
  | serve port os => exact trivial
  | close connId => exact closesOpened_of_balanced h hs hb

/--
**No slot is lost exactly when every close finds a connection it can close alone.**
Along a run in which every close of an index that is handed out meets the
condition, each such close puts its index back and the free list and the indices
handed out always add up to the number of slots; and a run in which they do has
met the condition at every close.
-/
theorem slots_balanced_iff (ops : List SlotOp) (hadm : machine.Admitted fresh ops) :
    machine.Always Balanced fresh ops ↔ machine.Meets ClosesOpened fresh ops :=
  Machine.always_iff_meets (m := machine) (I := Shared)
    (fun _ op h ha hC => step_of_closesOpened h op ha hC)
    (fun _ op _ h _ hs hb => closesOpened_of_step h op hs hb) ops fresh Shared.of_fresh hadm

/-- A connection on descriptor 3 is opened and closed. -/
theorem slots_balanced_single :
    machine.Admitted fresh [.serve 9000 { socket := 3 }, .close 0] ∧
      machine.Always Balanced fresh [.serve 9000 { socket := 3 }, .close 0] := by
  have hadm : machine.Admitted fresh [.serve 9000 { socket := 3 }, .close 0] :=
    ⟨⟨by decide, Or.inl rfl⟩, fun _ _ => ⟨Nat.pos_of_neZero maxConnections, fun _ _ => trivial⟩⟩
  refine ⟨hadm, (slots_balanced_iff _ hadm).mpr ⟨trivial, fun l hl => ⟨fun _ => ?_, ?_⟩⟩⟩
  · obtain ⟨hbusy, hnext, hfree⟩ := of_decide_eq_true (of_checkResult
      (P := fun l : Ledger => decide ((l.process.conns 0).state ≠ .free ∧
        l.process.next 0 = some 3 ∧ (l.process.conns 3).state = .free)) (by decide +kernel) hl)
    exact ⟨0, 3, rfl, hbusy, hnext, hfree⟩
  · exact fun _ _ => trivial

/-- `socket` fails, so `serve` returns slot 0 with an error; closing it puts nothing
back, and the slot is lost. -/
theorem slots_unbalanced_failed :
    machine.Admitted fresh [.serve 9000 { socket := -1 }, .close 0] ∧
      ¬ machine.Always Balanced fresh [.serve 9000 { socket := -1 }, .close 0] := by
  refine ⟨⟨⟨by decide, Or.inl rfl⟩,
    fun _ _ => ⟨Nat.pos_of_neZero maxConnections, fun _ _ => trivial⟩⟩, ?_⟩
  rintro ⟨l₁, h₁, -, l₂, h₂, ⟨-, hback⟩, -⟩
  have hlost := of_checkResult (x := machine.step fresh (.serve 9000 { socket := -1 }))
    (P := fun l₁ => decide (0 ∈ l₁.out) && checkResult (machine.step l₁ (.close 0))
      fun l₂ => decide (0 ∉ l₂.process.freeIndices)) (by decide +kernel) h₁
  obtain ⟨hout, hgone⟩ := Bool.and_eq_true_iff.mp hlost
  exact of_decide_eq_true (of_checkResult hgone h₂) (hback 0 rfl (of_decide_eq_true hout))

end Ledger

end Ytl.Udp
