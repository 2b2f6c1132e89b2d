/-
The first place of a kind, and comparing two sequences.

The comparison of the first `n` terms of two sequences is the difference of the first two
terms that differ, or 0 if none do.  It may be found part by part: what comes after a part in
which the sequences agree is the comparison of what is left, and a difference that has been
found stays the first one.

A search for a place is of the same kind: the first place with a property decides, whatever
comes behind it.  Both are given as relations and not as functions, because a sequence has no
end here; that there is at most one result is what `unique` says.
-/
import Mathlib.Algebra.Order.Ring.Int

namespace Ytl

variable {f g : Nat → Int} {n k l : Nat} {v w : Int}

/-- `v` is the comparison of the first `n` terms. -/
inductive Compares (f g : Nat → Int) (n : Nat) : Int → Prop
  | same (h : ∀ i, i < n → f i = g i) : Compares f g n 0
  | differ {k : Nat} (hk : k < n) (hbefore : ∀ i, i < k → f i = g i) (hdiff : f k ≠ g k) :
      Compares f g n (f k - g k)

/-! ### Putting parts together -/

/-- What holds in a part and in the part behind it. -/
theorem before_add {P : Nat → Prop} (h : ∀ i, i < k → P i) (h' : ∀ i, i < l → P (k + i)) :
    ∀ i, i < k + l → P i := by
  intro i hi
  by_cases hik : i < k
  · exact h i hik
  · have hrest := h' (i - k) (by omega)
    rwa [show k + (i - k) = i by omega] at hrest

/-- What a search for the first place with `P` gives, with `f i` for the place `i`. -/
inductive First {α : Type} (P : Nat → Prop) (f : Nat → α) : Option α → Prop
  | found {i : Nat} (hi : P i) (hbefore : ∀ j, j < i → ¬ P j) : First P f (some (f i))
  | none (h : ∀ i, ¬ P i) : First P f none

namespace First

variable {α : Type} {P : Nat → Prop} {place : Nat → α} {r r' : Option α}

theorem unique (h : First P place r) (h' : First P place r') : r = r' := by
  cases h with
  | @found i hi hbefore =>
      cases h' with
      | @found j hj hbefore' =>
          rcases Nat.lt_trichotomy i j with hlt | rfl | hlt
          · exact absurd hi (hbefore' i hlt)
          · rfl
          · exact absurd hj (hbefore j hlt)
      | none hno => exact absurd hi (hno i)
  | none hno =>
      cases h' with
      | @found j hj _ => exact absurd hj (hno j)
      | none _ => rfl

theorem eq_none_iff (h : First P place r) : r = Option.none ↔ ∀ i, ¬ P i := by
  cases h with
  | @found i hi _ =>
      constructor
      · intro hc
        cases hc
      · intro hno
        exact absurd hi (hno i)
  | none hno => exact ⟨fun _ => hno, fun _ => rfl⟩

end First

namespace Compares

theorem eq_zero_iff (h : Compares f g n v) : v = 0 ↔ ∀ i, i < n → f i = g i := by
  cases h with
  | same hall => exact ⟨fun _ => hall, fun _ => rfl⟩
  | @differ k hk hbefore hdiff =>
      constructor
      · intro hzero
        exact absurd (sub_eq_zero.mp hzero) hdiff
      · intro hall
        exact absurd (hall k hk) hdiff

theorem eq_of_differ (h : Compares f g n v) (hk : k < n) (hbefore : ∀ i, i < k → f i = g i)
    (hdiff : f k ≠ g k) : v = f k - g k := by
  cases h with
  | same hall => exact absurd (hall k hk) hdiff
  | @differ k' hk' hbefore' hdiff' =>
      rcases Nat.lt_trichotomy k k' with hlt | rfl | hlt
      · exact absurd (hbefore' k hlt) hdiff
      · rfl
      · exact absurd (hbefore k' hlt) hdiff'

theorem unique (h : Compares f g n v) (h' : Compares f g n w) : v = w := by
  cases h' with
  | same hall => exact h.eq_zero_iff.mpr hall
  | differ hk hbefore hdiff => exact h.eq_of_differ hk hbefore hdiff

theorem swap (h : Compares f g n v) : Compares g f n (-v) := by
  cases h with
  | same hall =>
      rw [neg_zero]
      exact same fun i hi => (hall i hi).symm
  | differ hk hbefore hdiff =>
      rw [neg_sub]
      exact differ hk (fun i hi => (hbefore i hi).symm) (Ne.symm hdiff)

/-- A difference that was found is the first one of any longer part. -/
theorem extend (h : Compares f g k v) (hv : v ≠ 0) (hkn : k ≤ n) : Compares f g n v := by
  cases h with
  | same _ => exact absurd rfl hv
  | differ hk hbefore hdiff => exact differ (Nat.lt_of_lt_of_le hk hkn) hbefore hdiff

/-- What comes after a part in which the sequences agree. -/
theorem after (hsame : ∀ i, i < k → f i = g i)
    (h : Compares (fun i => f (k + i)) (fun i => g (k + i)) l v) : Compares f g (k + l) v := by
  cases h with
  | same hall => exact same (before_add hsame hall)
  | differ hk hbefore hdiff =>
      exact differ (Nat.add_lt_add_left hk k) (before_add hsame hbefore) hdiff

end Compares

end Ytl
