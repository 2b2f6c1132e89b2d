/-
What `close` does.

`free_slot` calls `close` with the descriptor of the slot, and inside the class
that is the pool's own `close`: the descriptor number is taken for a slot index.
Closing a slot therefore walks from slot to slot along descriptor numbers until
it meets a `FREE` slot, and releases the slots of that walk from the last one
back to the first.  `close_eq_ok` says exactly that, and every later fact about
closing is read off it.

The walk is a `Trail`, so it meets no slot twice; a walk that does not end is a
recursion that does not return.  `freeSlot_eq_close` is what makes the bound in
the definition of `close` harmless: a recursion that returns at any depth returns
within that bound.
-/
import Ytl.Base.Trail
import Ytl.Network.Udp

namespace Ytl.Udp.Process

/-! ### Fields after an update

A write to one connection leaves the other fields of the pool alone, and so does freeing a
block, which is only noted.  These are the equations that let a proof look at the one field it
is about; with them no later proof unfolds an update.
-/

section Fields

variable (s : Process) (i j : Fin maxConnections) (c : ConnectionData) (b : Option Block)

@[simp] theorem setConn_self : (s.setConn i c).conns i = c := Function.update_self ..

variable {i j} in
theorem setConn_of_ne (h : j ≠ i) : (s.setConn i c).conns j = s.conns j :=
  Function.update_of_ne h ..

@[simp] theorem setConn_freeIndices : (s.setConn i c).freeIndices = s.freeIndices := rfl
@[simp] theorem setConn_blocks : (s.setConn i c).blocks = s.blocks := rfl
@[simp] theorem setConn_freed : (s.setConn i c).freed = s.freed := rfl

@[simp] theorem free_conns : (s.free b).conns = s.conns := by cases b <;> rfl
@[simp] theorem free_freeIndices : (s.free b).freeIndices = s.freeIndices := by cases b <;> rfl
@[simp] theorem free_blocks : (s.free b).blocks = s.blocks := by cases b <;> rfl

theorem free_freed : (s.free b).freed = s.freed ++ (b.map Block.id).toList := by
  cases b <;> simp [free]

theorem malloc_fields (size : Nat) (a : Alloc) :
    (s.malloc size a).2 = { s with blocks := (s.malloc size a).2.blocks } := by
  unfold malloc
  split <;> rfl

end Fields

/-! ### The walk along descriptor numbers

A slot in use leads to the slot with the number of its descriptor.  The walk from a slot is
its trail to a slot that is not in use, and what `close` does is to release the slots of that
trail, the last one first, because each call makes its recursive call before it does anything
else.
-/

/-- The slot whose index is the descriptor of slot `i`, if there is one. -/
def next (s : Process) (i : Fin maxConnections) : Option (Fin maxConnections) :=
  if h : toUnsigned 32 (s.conns i).socket < maxConnections then
    some ⟨toUnsigned 32 (s.conns i).socket, h⟩
  else none

/-- The slot is not in use, as far as its `state` field tells. -/
def IsFree (s : Process) (i : Fin maxConnections) : Prop := (s.conns i).state = .free

instance (s : Process) (i : Fin maxConnections) : Decidable (s.IsFree i) :=
  inferInstanceAs (Decidable (_ = _))

theorem not_isFree_of_active {s : Process} {i : Fin maxConnections}
    (h : (s.conns i).state = .active) : ¬ s.IsFree i := by
  rw [IsFree, h]
  decide

/-- The slots a call of `close` on slot `i` releases, outermost first. -/
abbrev Walk (s : Process) (i : Fin maxConnections) (l : List (Fin maxConnections)) : Prop :=
  Trail s.next s.IsFree i l

theorem next_eq_some {s : Process} {i j : Fin maxConnections} :
    s.next i = some j ↔ toUnsigned 32 (s.conns i).socket = j.val := by
  unfold next
  constructor
  · intro h
    split at h
    · exact congrArg Fin.val (Option.some.inj h)
    · cases h
  · intro h
    have hlt : toUnsigned 32 (s.conns i).socket < maxConnections := by rw [h]; exact j.isLt
    rw [dif_pos hlt]
    exact congrArg some (Fin.ext h)

/-- Releasing the slots of a walk, the last one first. -/
def releaseAll (s : Process) (l : List (Fin maxConnections)) : Process :=
  l.foldr (fun i t => t.release i) s

@[simp] theorem releaseAll_nil (s : Process) : s.releaseAll [] = s := rfl
@[simp] theorem releaseAll_cons (s : Process) (i : Fin maxConnections)
    (l : List (Fin maxConnections)) :
    s.releaseAll (i :: l) = (s.releaseAll l).release i := rfl

theorem releaseAll_conns (s : Process) (l : List (Fin maxConnections))
    (j : Fin maxConnections) :
    (s.releaseAll l).conns j = if j ∈ l then {} else s.conns j := by
  induction l with
  | nil => simp
  | cons i rest ih =>
      show (Function.update ((s.releaseAll rest).free _).conns i {}) j = _
      by_cases hj : j = i
      · subst hj
        simp
      · rw [Function.update_of_ne hj, free_conns, ih]
        simp [hj]

theorem releaseAll_isFree {s : Process} {l : List (Fin maxConnections)}
    {j : Fin maxConnections} : (s.releaseAll l).IsFree j ↔ j ∈ l ∨ s.IsFree j := by
  unfold IsFree
  rw [releaseAll_conns]
  split
  · rename_i hj
    simp [hj]
  · rename_i hj
    simp [hj]

theorem releaseAll_freeIndices (s : Process) (l : List (Fin maxConnections)) :
    (s.releaseAll l).freeIndices = s.freeIndices ++ l.reverse.map Fin.val := by
  induction l with
  | nil => simp
  | cons i rest ih => simp [release, ih]

@[simp] theorem releaseAll_blocks (s : Process) (l : List (Fin maxConnections)) :
    (s.releaseAll l).blocks = s.blocks := by
  induction l with
  | nil => rfl
  | cons i rest ih => simp [release, ih]

/-- The block a slot owns, as a list of at most one number. -/
def bufferIds (s : Process) (i : Fin maxConnections) : List Nat :=
  ((s.conns i).recvBuffer.map Block.id).toList

/-- The outer slots still hold their buffers when the inner ones are released. -/
theorem releaseAll_freed (s : Process) {l : List (Fin maxConnections)} (hnd : l.Nodup) :
    (s.releaseAll l).freed = s.freed ++ l.reverse.flatMap s.bufferIds := by
  induction l with
  | nil => simp
  | cons i rest ih =>
      obtain ⟨hi, hrest⟩ := List.nodup_cons.mp hnd
      have hconn : (s.releaseAll rest).conns i = s.conns i := by
        rw [releaseAll_conns, if_neg hi]
      show ((s.releaseAll rest).free ((s.releaseAll rest).conns i).recvBuffer).freed = _
      rw [free_freed, ih hrest, hconn]
      simp [bufferIds]

/-! ### The specification of `close`

The induction is on the depth of the recursion.  A call at one depth more makes one call on
the next slot, so its walk is one slot longer, and the slots behind it have been released when
its own turn comes.
-/

theorem ref_eq_ok {i : Nat} {conn : Fin maxConnections} : ref i = .ok conn ↔ i = conn.val := by
  unfold ref
  constructor
  · intro h
    split at h
    · exact congrArg Fin.val (Except.ok.inj h)
    · cases h
  · rintro rfl
    rw [dif_pos conn.isLt]

@[simp] theorem ref_val (i : Fin maxConnections) : ref i.val = .ok i := ref_eq_ok.mpr rfl

theorem freeSlot_free {s : Process} {i : Fin maxConnections} (h : s.IsFree i) (fuel : Nat) :
    freeSlot (fuel + 1) s i.val = .ok s := by
  rw [freeSlot, ref_val, bind_of_ok]
  exact if_neg (not_not.mpr h)

theorem freeSlot_busy {s : Process} {i : Fin maxConnections} (h : ¬ s.IsFree i) (fuel : Nat) :
    freeSlot (fuel + 1) s i.val =
      (freeSlot fuel s (toUnsigned 32 (s.conns i).socket) >>= fun t => .ok (t.release i)) := by
  rw [freeSlot, ref_val, bind_of_ok]
  exact if_pos h

theorem freeSlot_outOfBounds {s : Process} {index : Nat} (h : ¬ index < maxConnections)
    (fuel : Nat) : freeSlot (fuel + 1) s index = .error .outOfBounds := by
  rw [freeSlot, ref, dif_neg h, bind_of_error]

theorem lt_of_freeSlot_eq_ok {s s' : Process} {fuel index : Nat}
    (h : freeSlot fuel s index = .ok s') : index < maxConnections := by
  by_contra hlt
  cases fuel with
  | zero => cases h
  | succ fuel =>
      rw [freeSlot_outOfBounds hlt] at h
      cases h

/-- A call at depth `fuel` returns exactly when the walk ends in fewer than `fuel`
slots, and then it has released the slots of the walk. -/
theorem freeSlot_eq_ok (s : Process) :
    ∀ (fuel : Nat) (i : Fin maxConnections) (s' : Process),
      freeSlot fuel s i.val = .ok s' ↔
        ∃ l, s.Walk i l ∧ l.length < fuel ∧ s' = s.releaseAll l := by
  intro fuel
  induction fuel with
  | zero =>
      intro i s'
      constructor
      · intro h; cases h
      · rintro ⟨l, -, hlen, -⟩; exact absurd hlen (Nat.not_lt_zero _)
  | succ fuel ih =>
      intro i s'
      by_cases hfree : s.IsFree i
      · rw [freeSlot_free hfree]
        constructor
        · intro h
          exact ⟨[], Trail.done hfree, Nat.succ_pos _, (Except.ok.inj h).symm⟩
        · rintro ⟨l, hw, -, rfl⟩
          rw [hw.eq_nil_iff.mpr hfree, releaseAll_nil]
      · rw [freeSlot_busy hfree, bind_returns]
        constructor
        · rintro ⟨t, ht, hs'⟩
          -- the inner call returned, so its argument was a slot index
          have hn : s.next i = some ⟨_, lt_of_freeSlot_eq_ok ht⟩ := next_eq_some.mpr rfl
          obtain ⟨l, hw, hlen, rfl⟩ := (ih ⟨_, lt_of_freeSlot_eq_ok ht⟩ t).mp ht
          exact ⟨i :: l, Trail.step hfree hn hw, Nat.succ_lt_succ hlen,
            (Except.ok.inj hs').symm⟩
        · rintro ⟨l, hw, hlen, rfl⟩
          cases hw with
          | done h => exact absurd h hfree
          | @step _ j rest _ hn hw =>
              refine ⟨s.releaseAll rest, ?_, rfl⟩
              rw [next_eq_some.mp hn]
              exact (ih j _).mpr ⟨rest, hw, Nat.lt_of_succ_lt_succ hlen, rfl⟩

/-- **`close` returns exactly when the walk from its slot ends, and releases the
slots of that walk.** -/
theorem close_eq_ok (s s' : Process) (i : Fin maxConnections) :
    s.close i.val = .ok s' ↔ ∃ l, s.Walk i l ∧ s' = s.releaseAll l := by
  unfold close
  rw [freeSlot_eq_ok]
  constructor
  · rintro ⟨l, hw, -, rfl⟩
    exact ⟨l, hw, rfl⟩
  · rintro ⟨l, hw, rfl⟩
    refine ⟨l, hw, ?_, rfl⟩
    have hlen := hw.length_le_card
    rw [Fintype.card_fin] at hlen
    unfold closeDepth
    omega

/-- The walk of a completed `close`, whatever number it was called with. -/
theorem close_walk {s s' : Process} {id : Nat} (h : s.close id = .ok s') :
    ∃ (i : Fin maxConnections) (l : List (Fin maxConnections)),
      i.val = id ∧ s.Walk i l ∧ s' = s.releaseAll l := by
  have hlt : id < maxConnections := lt_of_freeSlot_eq_ok h
  obtain ⟨l, hw, hs'⟩ := (close_eq_ok s s' ⟨id, hlt⟩).mp h
  exact ⟨⟨id, hlt⟩, l, rfl, hw, hs'⟩

/-! ### The bound on the recursion

A walk may end in three ways: at a `FREE` slot, at a descriptor that is no slot
index, or not at all.  The first two are ends of a trail, so they lie within the
number of slots, and no larger depth changes the answer.
-/

/-- The walk ends here, either at a `FREE` slot or past the array. -/
def Ends (s : Process) (i : Fin maxConnections) : Prop := s.IsFree i ∨ s.next i = none

theorem not_lt_of_next_none {s : Process} {i : Fin maxConnections} (h : s.next i = none) :
    ¬ toUnsigned 32 (s.conns i).socket < maxConnections := by
  intro hlt
  have : s.next i = some ⟨_, hlt⟩ := next_eq_some.mpr rfl
  rw [h] at this
  cases this

/-- More depth does not change an answer. -/
theorem freeSlot_mono (s : Process) :
    ∀ (fuel extra index : Nat), freeSlot fuel s index ≠ .error .noReturn →
      freeSlot (fuel + extra) s index = freeSlot fuel s index := by
  intro fuel
  induction fuel with
  | zero => intro extra index h; exact absurd rfl h
  | succ fuel ih =>
      intro extra index h
      rw [show fuel + 1 + extra = (fuel + extra) + 1 by omega]
      by_cases hlt : index < maxConnections
      · have hidx : index = (⟨index, hlt⟩ : Fin maxConnections).val := rfl
        rw [hidx] at h ⊢
        by_cases hfree : s.IsFree ⟨index, hlt⟩
        · rw [freeSlot_free hfree, freeSlot_free hfree]
        · rw [freeSlot_busy hfree] at h ⊢
          rw [freeSlot_busy hfree, ih extra]
          intro hinner
          rw [hinner] at h
          exact h rfl
      · rw [freeSlot_outOfBounds hlt, freeSlot_outOfBounds hlt]

theorem trail_of_freeSlot (s : Process) :
    ∀ (fuel : Nat) (i : Fin maxConnections), freeSlot fuel s i.val ≠ .error .noReturn →
      ∃ l, Trail s.next s.Ends i l := by
  intro fuel
  induction fuel with
  | zero => intro i h; exact absurd rfl h
  | succ fuel ih =>
      intro i h
      by_cases hend : s.Ends i
      · exact ⟨[], Trail.done hend⟩
      obtain ⟨hfree, hnext⟩ := not_or.mp hend
      obtain ⟨j, hj⟩ := Option.ne_none_iff_exists'.mp hnext
      have hinner : freeSlot fuel s j.val ≠ .error .noReturn := by
        intro hc
        rw [freeSlot_busy hfree, next_eq_some.mp hj, hc] at h
        exact h rfl
      obtain ⟨l, hl⟩ := ih j hinner
      exact ⟨i :: l, Trail.step hend hj hl⟩

theorem freeSlot_returns_of_trail {s : Process} {i : Fin maxConnections}
    {l : List (Fin maxConnections)} (h : Trail s.next s.Ends i l) :
    ∀ (fuel : Nat), l.length + 1 < fuel → freeSlot fuel s i.val ≠ .error .noReturn := by
  induction h with
  | @done i hend =>
      intro fuel hlt
      obtain ⟨k, rfl⟩ : ∃ k, fuel = k + 1 + 1 := ⟨fuel - 2, by simp at hlt; omega⟩
      by_cases hfree : s.IsFree i
      · rw [freeSlot_free hfree]
        exact nofun
      · have hnone := hend.resolve_left hfree
        rw [freeSlot_busy hfree, freeSlot_outOfBounds (not_lt_of_next_none hnone)]
        exact nofun
  | @step i j l hend hj _ ih =>
      intro fuel hlt
      simp only [List.length_cons] at hlt
      obtain ⟨k, rfl⟩ : ∃ k, fuel = k + 1 := ⟨fuel - 1, by omega⟩
      have hrec := ih k (by omega)
      rw [freeSlot_busy (not_or.mp hend).1, next_eq_some.mp hj]
      cases hr : freeSlot k s j.val with
      | ok t => exact nofun
      | error e =>
          rw [hr] at hrec
          intro hc
          exact hrec (by simpa using hc)

/-- **A recursion that comes back at any depth is the call `close` models.**  What
`close` answers with `noReturn` is therefore a recursion without end. -/
theorem freeSlot_eq_close (s : Process) (fuel : Nat) (i : Fin maxConnections)
    (h : freeSlot fuel s i.val ≠ .error .noReturn) :
    freeSlot fuel s i.val = s.close i.val := by
  obtain ⟨l, hl⟩ := trail_of_freeSlot s fuel i h
  have hlen := hl.length_le_card
  rw [Fintype.card_fin] at hlen
  have hclose : freeSlot closeDepth s i.val ≠ .error .noReturn :=
    freeSlot_returns_of_trail hl closeDepth (by unfold closeDepth; omega)
  calc freeSlot fuel s i.val
      = freeSlot (fuel + closeDepth) s i.val := (freeSlot_mono s fuel closeDepth _ h).symm
    _ = freeSlot (closeDepth + fuel) s i.val := by rw [Nat.add_comm]
    _ = s.close i.val := freeSlot_mono s closeDepth fuel _ hclose

end Ytl.Udp.Process
