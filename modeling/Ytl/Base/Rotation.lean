/-
Mirroring and turning the front of a sequence.

Both are given as index maps: for a place after the change, the place its value comes from.
To mirror the first `mid` places, then the rest, then all of them is to turn them by `mid`,
and two turns are one turn.

A sequence that a turn leaves alone repeats: with the distance of the turn it also repeats
with the greatest common divisor of the distance and the length, and with nothing more.
-/
import Mathlib.Data.Int.GCD

namespace Ytl

variable {n mid off d k : Nat}

/-- The `n` places from `off` on are mirrored. -/
def mirror (off n k : Nat) : Nat :=
  if off ≤ k ∧ k < off + n then off + (n - 1 - (k - off)) else k

/-- The first `n` places are turned by `d`. -/
def turn (n d k : Nat) : Nat := if k < n then (k + d) % n else k

theorem turn_zero (n k : Nat) : turn n 0 k = k := by
  unfold turn
  split_ifs with hk
  · rw [Nat.add_zero, Nat.mod_eq_of_lt hk]
  · rfl

theorem turn_self (n k : Nat) : turn n n k = k := by
  unfold turn
  split_ifs with hk
  · rw [Nat.add_mod_right, Nat.mod_eq_of_lt hk]
  · rfl

/-- In front of the seam a turn goes up by `d`, behind it back to the beginning. -/
theorem turn_of_lt (hd : d ≤ n) (hk : k < n - d) : turn n d k = d + k := by
  rw [turn, if_pos (by omega), Nat.mod_eq_of_lt (by omega), Nat.add_comm]

theorem turn_of_ge (hd : d ≤ n) (hk : k < d) : turn n d (n - d + k) = k := by
  rw [turn, if_pos (by omega), show n - d + k + d = k + n by omega, Nat.add_mod_right,
    Nat.mod_eq_of_lt (by omega)]

theorem turn_outside (hk : n ≤ k) : turn n d k = k := if_neg (Nat.not_lt.mpr hk)

/-! ### Mirrors

Mirroring all of a sequence brings its two parts to each other's side, both the wrong way
around.  If each part was mirrored before, both come out the right way around.
-/

/-- **Three mirrors are a turn.** -/
theorem mirror_mirror_mirror (hmid : mid ≤ n) (k : Nat) :
    mirror 0 mid (mirror mid (n - mid) (mirror 0 n k)) = turn n mid k := by
  by_cases hk : k < n
  · by_cases hfront : k < n - mid
    · rw [turn_of_lt hmid hfront]
      have hwhole : mirror 0 n k = n - 1 - k := by
        unfold mirror
        rw [if_pos (by omega)]
        omega
      have hback : mirror mid (n - mid) (n - 1 - k) = mid + k := by
        unfold mirror
        rw [if_pos (by omega)]
        omega
      rw [hwhole, hback, mirror, if_neg (by omega)]
    · obtain ⟨j, rfl⟩ : ∃ j, k = n - mid + j := ⟨k - (n - mid), by omega⟩
      rw [turn_of_ge hmid (by omega)]
      have hwhole : mirror 0 n (n - mid + j) = mid - 1 - j := by
        unfold mirror
        rw [if_pos (by omega)]
        omega
      have hback : mirror mid (n - mid) (mid - 1 - j) = mid - 1 - j := by
        unfold mirror
        rw [if_neg (by omega)]
      rw [hwhole, hback, mirror, if_pos (by omega)]
      omega
  · rw [turn_outside (by omega)]
    unfold mirror
    rw [if_neg (show ¬(0 ≤ k ∧ k < 0 + n) by omega),
      if_neg (show ¬(mid ≤ k ∧ k < mid + (n - mid)) by omega), if_neg (by omega)]

theorem turn_mod (n d k : Nat) : turn n (d % n) k = turn n d k := by
  unfold turn
  rw [Nat.add_mod_mod]

/-- **Two turns are one.** -/
theorem turn_turn (n a b k : Nat) : turn n a (turn n b k) = turn n (a + b) k := by
  by_cases hk : k < n
  · have hmod : (k + b) % n < n := Nat.mod_lt _ (by omega)
    rw [turn, turn, turn, if_pos hk, if_pos hmod, if_pos hk, Nat.mod_add_mod]
    congr 1
    omega
  · rw [turn_outside (k := k) (by omega), turn_outside (by omega), turn_outside (by omega)]

/-! ### Sequences that repeat

A sequence that a turn leaves alone is left alone by every multiple of it.  One of the
multiples is a turn by the greatest common divisor, and the turn itself is a multiple of that
one, so the sequence repeats with the divisor and need not repeat with anything less.
-/

section Repeats

variable {β : Type} {f : Nat → β}

/-- The first `n` values repeat with the period `g`. -/
def Repeats (f : Nat → β) (n g : Nat) : Prop := ∀ i, i + g < n → f (i + g) = f i

/-- A value is the one at the same place of the first period. -/
theorem Repeats.eq_mod {g : Nat} (h : Repeats f n g) (hg : 0 < g) :
    ∀ k, k < n → f k = f (k % g) := by
  intro k
  induction k using Nat.strong_induction_on with
  | _ k ih =>
      intro hk
      by_cases hkg : k < g
      · rw [Nat.mod_eq_of_lt hkg]
      · have hstep := h (k - g) (by omega)
        rw [show k - g + g = k by omega] at hstep
        have hmod : k % g = (k - g) % g := Nat.mod_eq_sub_mod (by omega)
        rw [hstep, hmod]
        exact ih (k - g) (by omega) (by omega)

/-- What a turn leaves alone, any number of them does. -/
theorem turn_mul_fixed (h : ∀ k, k < n → f (turn n d k) = f k) (m : Nat) :
    ∀ k, k < n → f ((k + m * d) % n) = f k := by
  induction m with
  | zero =>
      intro k hk
      rw [Nat.zero_mul, Nat.add_zero, Nat.mod_eq_of_lt hk]
  | succ m ih =>
      intro k hk
      have hlt : (k + m * d) % n < n := Nat.mod_lt _ (by omega)
      have hstep := h _ hlt
      rw [turn, if_pos hlt, Nat.mod_add_mod] at hstep
      rw [Nat.succ_mul, ← Nat.add_assoc, hstep, ih k hk]

/-- **What a turn leaves alone.**  It repeats with the greatest common divisor. -/
theorem turn_fixed_iff (hd : 0 < d) :
    (∀ k, k < n → f (turn n d k) = f k) ↔ Repeats f n (Nat.gcd d n) := by
  constructor
  · intro h i hi
    obtain ⟨m, -, hm⟩ := Nat.exists_mul_mod_eq_gcd (k := n) (n := d) (by omega)
    have hfixed := turn_mul_fixed h m i (by omega)
    rw [Nat.mul_comm, ← Nat.add_mod_mod, hm, Nat.mod_eq_of_lt hi] at hfixed
    exact hfixed
  · intro h k hk
    have hg : 0 < Nat.gcd d n := Nat.gcd_pos_of_pos_left n hd
    have hlt : (k + d) % n < n := Nat.mod_lt _ (by omega)
    rw [turn, if_pos hk, h.eq_mod hg _ hlt, h.eq_mod hg k hk,
      Nat.mod_mod_of_dvd _ (Nat.gcd_dvd_right d n), Nat.add_mod,
      Nat.mod_eq_zero_of_dvd (Nat.gcd_dvd_left d n), Nat.add_zero, Nat.mod_mod]

end Repeats

end Ytl
