/-
Moving and filling cells of an addressed store.

A store is a function on addresses, and addresses are machine words, so that adding to one may
wrap.  `moved k d s m` is the store after `k` cells starting at `s` have been taken to the
cells starting at `d`, all at once.  A move may be done in two parts, the front first or the
back first, as long as the part that is done first does not write what the other still has to
read; how far apart `d` and `s` lie decides which order is safe.

`filled k d b m` is the store with `b` in the `k` cells from `d` on, and `written k d f m` the
one with the values of `f` there.

Nothing is said of how the cells are moved.  A loop over bytes, a loop over words and a
mixture of both come to the same store, so a proof about one of them only has to find out in
which order the parts are done, and the two rules for a move in two parts do the rest.
-/
import Mathlib.Algebra.Order.Ring.Int
import Mathlib.Data.BitVec
import Mathlib.Tactic.Ring

namespace Ytl

variable {w : Nat} {β : Type}

/-- The store after the `k` cells from `s` on have gone to `d`. -/
def moved (k : Nat) (d s : BitVec w) (m : BitVec w → β) : BitVec w → β :=
  fun a => if (a - d).toNat < k then m (s + (a - d)) else m a

/-- The store with `b` in the `k` cells from `d` on. -/
def filled (k : Nat) (d : BitVec w) (b : β) (m : BitVec w → β) : BitVec w → β :=
  fun a => if (a - d).toNat < k then b else m a

variable {k l : Nat} {d s : BitVec w} {m : BitVec w → β}

/-! ### Distances

How far an address lies past another one is a difference of words, and never fails: it is
taken all around the addresses.  That one number says which cell of a range an address is, or
that it is none of them, and the lemmas below are what is needed to count with it.
-/

@[simp] theorem moved_zero (d s : BitVec w) (m : BitVec w → β) : moved 0 d s m = m := by
  funext a
  simp [moved]

theorem add_ofNat_sub (d : BitVec w) (i : Nat) : d + BitVec.ofNat w i - d = BitVec.ofNat w i := by
  rw [BitVec.add_comm, BitVec.add_sub_cancel]

/-- The address that is so far from `d`. -/
theorem add_ofNat_toNat_sub (a d : BitVec w) : d + BitVec.ofNat w (a - d).toNat = a := by
  rw [BitVec.ofNat_toNat, BitVec.setWidth_eq, BitVec.add_comm, BitVec.sub_add_cancel]

/-- The way back to `d`, all around the addresses. -/
theorem add_ofNat_back (a d : BitVec w) : a + BitVec.ofNat w (2 ^ w - (a - d).toNat) = d := by
  have hback : BitVec.ofNat w (2 ^ w - (a - d).toNat) = d - a := by
    rw [show d - a = -(a - d) by ring]
    exact BitVec.eq_of_toNat_eq (by rw [BitVec.toNat_ofNat, BitVec.toNat_neg])
  rw [hback]
  ring

theorem sub_lt_one_iff {a d : BitVec w} : (a - d).toNat < 1 ↔ a = d := by
  constructor
  · intro hlt
    have haddr := add_ofNat_toNat_sub a d
    rw [Nat.lt_one_iff.mp hlt] at haddr
    rw [← haddr]
    exact BitVec.add_zero d
  · rintro rfl
    simp

theorem moved_inside {i : Nat} (hi : i < k) (hw : i < 2 ^ w) :
    moved k d s m (d + BitVec.ofNat w i) = m (s + BitVec.ofNat w i) := by
  unfold moved
  rw [add_ofNat_sub, BitVec.toNat_ofNat, Nat.mod_eq_of_lt hw, if_pos hi]

/-- Outside of a range of cells. -/
theorem not_lt_of_outside {a : BitVec w} (h : ∀ i, i < k → a ≠ d + BitVec.ofNat w i) :
    ¬ (a - d).toNat < k :=
  fun hlt => h _ hlt (add_ofNat_toNat_sub a d).symm

theorem moved_outside {a : BitVec w} (h : ∀ i, i < k → a ≠ d + BitVec.ofNat w i) :
    moved k d s m a = m a := if_neg (not_lt_of_outside h)

/-- What is still to be read on the way up has not been written. -/
theorem moved_unread {i : Nat} (hk : k ≤ i) (h : (s - d).toNat + i < 2 ^ w) :
    moved k d s m (s + BitVec.ofNat w i) = m (s + BitVec.ofNat w i) := by
  have hread : (s + BitVec.ofNat w i - d).toNat = (s - d).toNat + i := by
    rw [show s + BitVec.ofNat w i - d = (s - d) + BitVec.ofNat w i by ring, BitVec.toNat_add,
      BitVec.toNat_ofNat, Nat.mod_eq_of_lt (show i < 2 ^ w by omega), Nat.mod_eq_of_lt h]
  exact if_neg (by omega)

/-- An address `x` past `d`, seen from `k` cells further on. -/
theorem toNat_sub_ofNat (x : BitVec w) (hk : k < 2 ^ w) :
    (x - BitVec.ofNat w k).toNat =
      if k ≤ x.toNat then x.toNat - k else 2 ^ w - k + x.toNat := by
  have hx := x.isLt
  rw [BitVec.toNat_sub, BitVec.toNat_ofNat, Nat.mod_eq_of_lt hk]
  by_cases hle : k ≤ x.toNat
  · rw [if_pos hle, show 2 ^ w - k + x.toNat = x.toNat - k + 2 ^ w by omega,
      Nat.add_mod_right, Nat.mod_eq_of_lt (by omega)]
  · rw [if_neg hle, Nat.mod_eq_of_lt (by omega)]

/-! ### A move in two parts

What the first part has written must not be read by the second.  Going up, that is so unless
`s` lies behind `d` by less than the whole length; going down, unless it lies ahead by less
than that.  A range that is no longer than half of the addresses may always be moved in one of
the two orders, and in both if it does not overlap the other one.
-/

/-- **Front first.**  The cells still to be read are not among the ones written. -/
theorem moved_forward (h : (s - d).toNat + (k + l) ≤ 2 ^ w) :
    moved l (d + BitVec.ofNat w k) (s + BitVec.ofNat w k) (moved k d s m) =
      moved (k + l) d s m := by
  rcases Nat.eq_zero_or_pos l with rfl | hl
  · rw [moved_zero, Nat.add_zero]
  funext a
  have hx := (a - d).isLt
  have hsub := toNat_sub_ofNat (a - d) (show k < 2 ^ w by omega)
  show (if (a - (d + BitVec.ofNat w k)).toNat < l then
    moved k d s m (s + BitVec.ofNat w k + (a - (d + BitVec.ofNat w k))) else moved k d s m a) = _
  rw [show a - (d + BitVec.ofNat w k) = a - d - BitVec.ofNat w k by ring,
    show s + BitVec.ofNat w k + (a - d - BitVec.ofNat w k) = s + (a - d) by ring, hsub]
  unfold moved
  by_cases hlow : (a - d).toNat < k
  · rw [if_neg (show ¬ k ≤ (a - d).toNat by omega), if_neg (by omega), if_pos hlow,
      if_pos (by omega)]
  · rw [if_pos (show k ≤ (a - d).toNat by omega)]
    by_cases hmid : (a - d).toNat < k + l
    · -- the cell that is read lies behind the first part of the destination
      have hread : (s + (a - d) - d).toNat = (s - d).toNat + (a - d).toNat := by
        rw [show s + (a - d) - d = (s - d) + (a - d) by ring, BitVec.toNat_add,
          Nat.mod_eq_of_lt (by omega)]
      rw [if_pos (by omega), if_pos hmid, hread, if_neg (by omega)]
    · rw [if_neg (by omega), if_neg hlow, if_neg hmid]

/-- **Back first.** -/
theorem moved_backward (h : (d - s).toNat + (k + l) ≤ 2 ^ w) :
    moved k d s (moved l (d + BitVec.ofNat w k) (s + BitVec.ofNat w k) m) =
      moved (k + l) d s m := by
  rcases Nat.eq_zero_or_pos l with rfl | hl
  · rw [moved_zero, Nat.add_zero]
  funext a
  have hx := (a - d).isLt
  have hsub := toNat_sub_ofNat (a - d) (show k < 2 ^ w by omega)
  unfold moved
  by_cases hlow : (a - d).toNat < k
  · -- the cell that is read lies in front of the second part of the destination
    have hread : s + (a - d) - (d + BitVec.ofNat w k) =
        (a - d) - BitVec.ofNat w ((d - s).toNat + k) := by
      rw [BitVec.ofNat_add, BitVec.ofNat_toNat, BitVec.setWidth_eq]
      ring
    have hfar := toNat_sub_ofNat (a - d) (show (d - s).toNat + k < 2 ^ w by omega)
    rw [if_neg (show ¬ (d - s).toNat + k ≤ (a - d).toNat by omega)] at hfar
    rw [if_pos hlow, hread, hfar, if_neg (by omega), if_pos (by omega)]
  · rw [if_neg hlow, show a - (d + BitVec.ofNat w k) = a - d - BitVec.ofNat w k by ring,
      show s + BitVec.ofNat w k + (a - d - BitVec.ofNat w k) = s + (a - d) by ring, hsub,
      if_pos (show k ≤ (a - d).toNat by omega)]
    by_cases hmid : (a - d).toNat < k + l
    · rw [if_pos (by omega), if_pos hmid]
    · rw [if_neg (by omega), if_neg hmid]

/-! ### Filling

The same value goes to every cell, so the parts of a fill may be done in any order and may
even overlap.
-/

section Filling

variable {b : β}

@[simp] theorem filled_zero (d : BitVec w) (b : β) (m : BitVec w → β) : filled 0 d b m = m := by
  funext a
  simp [filled]

theorem filled_inside {i : Nat} (hi : i < k) (hw : i < 2 ^ w) :
    filled k d b m (d + BitVec.ofNat w i) = b := by
  unfold filled
  rw [add_ofNat_sub, BitVec.toNat_ofNat, Nat.mod_eq_of_lt hw, if_pos hi]

theorem filled_outside {a : BitVec w} (h : ∀ i, i < k → a ≠ d + BitVec.ofNat w i) :
    filled k d b m a = m a := if_neg (not_lt_of_outside h)

/-- Filling in two parts. -/
theorem filled_filled (h : k + l ≤ 2 ^ w) :
    filled l (d + BitVec.ofNat w k) b (filled k d b m) = filled (k + l) d b m := by
  rcases Nat.eq_zero_or_pos l with rfl | hl
  · rw [filled_zero, Nat.add_zero]
  funext a
  have hsub := toNat_sub_ofNat (a - d) (show k < 2 ^ w by omega)
  unfold filled
  rw [show a - (d + BitVec.ofNat w k) = a - d - BitVec.ofNat w k by ring, hsub]
  by_cases hlow : (a - d).toNat < k
  · rw [if_pos hlow, ite_self, if_pos (show (a - d).toNat < k + l by omega)]
  · rw [if_pos (show k ≤ (a - d).toNat by omega)]
    by_cases hmid : (a - d).toNat < k + l
    · rw [if_pos (by omega), if_pos hmid]
    · rw [if_neg (by omega), if_neg hlow, if_neg hmid]

end Filling

/-! ### Writing a sequence

Here the cells get the terms of a sequence one after the other, as a loop does that goes up.
A move is the case in which the sequence is what the source held before.
-/

section Writing

/-- The store with `f 0`, `f 1`, ... in the `k` cells from `d` on. -/
def written (k : Nat) (d : BitVec w) (f : Nat → β) (m : BitVec w → β) : BitVec w → β :=
  fun a => if (a - d).toNat < k then f (a - d).toNat else m a

variable {f g : Nat → β}

@[simp] theorem written_zero (d : BitVec w) (f : Nat → β) (m : BitVec w → β) :
    written 0 d f m = m := by
  funext a
  simp [written]

theorem written_inside {i : Nat} (hi : i < k) (hw : i < 2 ^ w) :
    written k d f m (d + BitVec.ofNat w i) = f i := by
  unfold written
  rw [add_ofNat_sub, BitVec.toNat_ofNat, Nat.mod_eq_of_lt hw, if_pos hi]

theorem written_outside {a : BitVec w} (h : ∀ i, i < k → a ≠ d + BitVec.ofNat w i) :
    written k d f m a = m a := if_neg (not_lt_of_outside h)

/-- One cell more. -/
theorem written_succ (hk : k < 2 ^ w) (a : BitVec w) :
    written (k + 1) d f m a = if a = d + BitVec.ofNat w k then f k else written k d f m a := by
  by_cases heq : a = d + BitVec.ofNat w k
  · rw [if_pos heq, heq]
    exact written_inside (Nat.lt_succ_self k) hk
  · have hne : (a - d).toNat ≠ k := by
      intro hc
      exact heq (by rw [← hc, add_ofNat_toNat_sub])
    rw [if_neg heq]
    unfold written
    by_cases hlt : (a - d).toNat < k
    · rw [if_pos hlt, if_pos (show (a - d).toNat < k + 1 by omega)]
    · rw [if_neg hlt, if_neg (show ¬ (a - d).toNat < k + 1 by omega)]

theorem written_congr (h : ∀ i, i < k → f i = g i) : written k d f m = written k d g m := by
  funext a
  unfold written
  by_cases hlt : (a - d).toNat < k
  · rw [if_pos hlt, if_pos hlt, h _ hlt]
  · rw [if_neg hlt, if_neg hlt]

/-- A move writes what the cells from `s` on held. -/
theorem moved_eq_written (k : Nat) (d s : BitVec w) (m : BitVec w → β) :
    moved k d s m = written k d (fun i => m (s + BitVec.ofNat w i)) m := by
  funext a
  unfold moved written
  dsimp only
  rw [BitVec.ofNat_toNat, BitVec.setWidth_eq]

end Writing

end Ytl
