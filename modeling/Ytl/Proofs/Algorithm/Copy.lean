/-
`copy` and overlapping ranges.

Downwards the back of the range is done first, upwards the front.  A source cell that is still
to be read has not been written, since the way down is taken when the destination begins above
the source, and the way up when it begins below it or behind its end.

The cells that are done are an interval at one end of the range, and a round makes it longer
by one.  So one relation serves for both loops; the two differ in at which end it grows, and
in why the cell that is read is not one of those that are done.
-/
import Ytl.Algorithm.Sequence

namespace Ytl.Algorithm

variable {α : Type} {t t' : Array α} {src dest n lo hi i : Nat}

/-- The cells from `lo` to `hi` of the destination hold what those of the source held, and
every other cell of the array is as it was. -/
structure CopiedBetween (src dest lo hi : Nat) (t t' : Array α) : Prop where
  size : t'.size = t.size
  inside : ∀ j, lo ≤ j → j < hi → t'[dest + j]? = t[src + j]?
  outside : ∀ j, (∀ k, lo ≤ k → k < hi → j ≠ dest + k) → t'[j]? = t[j]?

namespace CopiedBetween

theorem refl (src dest i : Nat) (t : Array α) : CopiedBetween src dest i i t t :=
  ⟨rfl, fun _ hlo hhi => absurd hhi (Nat.not_lt.mpr hlo), fun _ _ => rfl⟩

/-- A round that reads a cell that was not written makes the range longer at one end. -/
theorem round (h : CopiedBetween src dest lo hi t t') (i lo' hi' : Nat)
    (hsrc : src + i < t.size) (hdest : dest + i < t.size)
    (hread : ∀ k, lo ≤ k → k < hi → src + i ≠ dest + k)
    (hends : ∀ k, lo' ≤ k ∧ k < hi' ↔ k = i ∨ lo ≤ k ∧ k < hi) :
    ∃ t'', copyCell src dest i t' = .ok t'' ∧ CopiedBetween src dest lo' hi' t t'' := by
  have hvalue : read t' (src + i) = .ok t[src + i] := by
    unfold read
    rw [h.outside _ hread, Array.getElem?_eq_getElem hsrc]
  have hlt : dest + i < t'.size := by
    rw [h.size]
    exact hdest
  refine ⟨t'.set (dest + i) t[src + i], ?_, ?_, fun j hlo hhi => ?_, fun j hj => ?_⟩
  · rw [copyCell, hvalue, bind_of_ok, write, dif_pos hlt]
  · rw [Array.size_set, h.size]
  · rw [Array.getElem?_set]
    by_cases hji : j = i
    · rw [hji, if_pos rfl, Array.getElem?_eq_getElem hsrc]
    · rw [if_neg (by omega)]
      rcases (hends j).mp ⟨hlo, hhi⟩ with heq | ⟨hlo', hhi'⟩
      · exact absurd heq hji
      · exact h.inside j hlo' hhi'
  · have hi := (hends i).mpr (Or.inl rfl)
    rw [Array.getElem?_set, if_neg (Ne.symm (hj i hi.1 hi.2))]
    refine h.outside j fun k hlo hhi => ?_
    have hk := (hends k).mpr (Or.inr ⟨hlo, hhi⟩)
    exact hj k hk.1 hk.2

end CopiedBetween

/-! ### The two loops -/

theorem copyDown_copied (hd : dest + n ≤ t.size) (habove : src < dest) :
    ∀ (i : Nat) (t' : Array α), i ≤ n → CopiedBetween src dest i n t t' →
      ∃ t'', copyDown src dest i t' = .ok t'' ∧ CopiedBetween src dest 0 n t t'' := by
  intro i
  induction i with
  | zero =>
      intro t' _ h
      exact ⟨t', rfl, h⟩
  | succ i ih =>
      intro t' hi h
      obtain ⟨t'', hround, h'⟩ := h.round i i n (by omega) (by omega) (by omega) (by omega)
      obtain ⟨u, hu, hall⟩ := ih t'' (by omega) h'
      refine ⟨u, ?_, hall⟩
      rw [copyDown, hround, bind_of_ok, hu]

theorem copyUp_copied (hs : src + n ≤ t.size) (hd : dest + n ≤ t.size)
    (haway : dest ≤ src ∨ src + n ≤ dest) :
    ∀ (left i : Nat) (t' : Array α), i + left = n → CopiedBetween src dest 0 i t t' →
      ∃ t'', copyUp src dest left i t' = .ok t'' ∧ CopiedBetween src dest 0 n t t'' := by
  intro left
  induction left with
  | zero =>
      intro i t' hi h
      rw [Nat.add_zero] at hi
      rw [hi] at h
      exact ⟨t', rfl, h⟩
  | succ left ih =>
      intro i t' hi h
      obtain ⟨t'', hround, h'⟩ := h.round i 0 (i + 1) (by omega) (by omega) (by omega)
        (by omega)
      obtain ⟨u, hu, hall⟩ := ih (i + 1) t'' (by omega) h'
      refine ⟨u, ?_, hall⟩
      rw [copyUp, hround, bind_of_ok, hu]

/-- Whichever way it goes, the whole range is copied. -/
theorem copy_copied (hs : src + n ≤ t.size) (hd : dest + n ≤ t.size) :
    ∃ t', copy t src dest n = .ok t' ∧ CopiedBetween src dest 0 n t t' := by
  unfold copy
  by_cases hinside : dest > src ∧ dest < src + n
  · rw [if_pos hinside]
    exact copyDown_copied hd hinside.1 n t (Nat.le_refl n) (CopiedBetween.refl src dest n t)
  · rw [if_neg hinside]
    exact copyUp_copied hs hd (by omega) n 0 t (Nat.zero_add n) (CopiedBetween.refl src dest 0 t)

/--
**`copy` for every overlap.**  For two ranges of an array the destination holds what the
source held, and every other element is unchanged.
-/
theorem copy_correct (t : Array α) (src dest n : Nat) (hs : src + n ≤ t.size)
    (hd : dest + n ≤ t.size) :
    ∃ t', copy t src dest n = .ok t' ∧ t'.size = t.size ∧
      (∀ i, i < n → t'[dest + i]? = t[src + i]?) ∧
      ∀ j, j < dest ∨ dest + n ≤ j → t'[j]? = t[j]? := by
  obtain ⟨t', ht', h⟩ := copy_copied hs hd
  refine ⟨t', ht', h.size, fun i hi => h.inside i (Nat.zero_le i) hi, fun j hj => ?_⟩
  exact h.outside j fun k _ hk => by omega

/-- Three elements, one position up. -/
theorem copy_correct_overlap :
    ∃ t', copy #[5, 6, 7, 8] 0 1 3 = .ok t' ∧ t'.size = 4 ∧
      (∀ i, i < 3 → t'[1 + i]? = #[5, 6, 7, 8][0 + i]?) ∧
      ∀ j, j < 1 ∨ 1 + 3 ≤ j → t'[j]? = #[5, 6, 7, 8][j]? :=
  copy_correct #[5, 6, 7, 8] 0 1 3 (by decide) (by decide)

end Ytl.Algorithm
