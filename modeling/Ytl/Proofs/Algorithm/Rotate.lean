/-
`reverse` and `rotate`.

An array after a call is told by an index map: the place each of its cells comes from.  A
round of the loop of `reverse` swaps one cell of the front with its mirror image, so after
`i` rounds the `i` outermost cells on both sides are mirrored and what is between them is
as it was.  `rotate` is three mirrors, and so a turn.

The pointer `rotate` returns is `t + mid`.  What was `t[0]` is at `t + (n - mid)` then, so
the two are the same in the middle of the range only.
-/
import Ytl.Algorithm.Sequence
import Ytl.Base.Rotation

namespace Ytl.Algorithm

variable {α : Type} {t t' t'' : Array α} {f g : Nat → Nat} {off n mid i : Nat}

/-! ### Arrays and index maps

Index maps compose, so two calls in a row are the composition of their maps; and an array is
told by the map and the array it was drawn from.
-/

/-- The cells of `t'` are cells of `t`, the one at `k` that at `f k`. -/
structure DrawnBy (f : Nat → Nat) (t t' : Array α) : Prop where
  size : t'.size = t.size
  cell : ∀ k, t'[k]? = t[f k]?

namespace DrawnBy

theorem trans (h : DrawnBy f t t') (h' : DrawnBy g t' t'') : DrawnBy (f ∘ g) t t'' := by
  refine ⟨h'.size.trans h.size, fun k => ?_⟩
  rw [h'.cell, h.cell]
  rfl

theorem congr (h : DrawnBy f t t') (heq : ∀ k, f k = g k) : DrawnBy g t t' := by
  refine ⟨h.size, fun k => ?_⟩
  rw [h.cell, heq]

theorem unique (h : DrawnBy f t t') (h' : DrawnBy f t t'') : t' = t'' := by
  apply Array.ext_getElem?
  intro k
  rw [h.cell, h'.cell]

/-- Nothing has changed if every cell in the array comes from an equal one. -/
theorem eq_iff (h : DrawnBy f t t') : t' = t ↔ ∀ k, k < t.size → t[f k]? = t[k]? := by
  constructor
  · rintro rfl k -
    exact (h.cell k).symm
  · intro heq
    apply Array.ext_getElem?
    intro k
    by_cases hk : k < t.size
    · rw [h.cell, heq k hk]
    · have hk' : t'.size ≤ k := by
        rw [h.size]
        exact Nat.le_of_not_lt hk
      rw [Array.getElem?_eq_none hk', Array.getElem?_eq_none (Nat.le_of_not_lt hk)]

end DrawnBy

/-! ### The loop

The loop is left when the two ends meet, and everything is mirrored then.
-/

/-- The `i` outermost cells on both sides of a range, mirrored. -/
def mirrorEnds (off n i k : Nat) : Nat :=
  if off ≤ k ∧ k < off + n ∧ (k < off + i ∨ off + n ≤ k + i) then off + (n - 1 - (k - off))
  else k

theorem mirrorEnds_zero (off n k : Nat) : mirrorEnds off n 0 k = k := if_neg (by omega)

theorem mirrorEnds_half (off n k : Nat) : mirrorEnds off n (n / 2) k = mirror off n k := by
  unfold mirrorEnds mirror
  -- an odd range has a cell in the middle, which is its own mirror image
  split_ifs <;> omega

/-- One round mirrors one cell more on both sides. -/
theorem swap_mirrorEnds (h : DrawnBy (mirrorEnds off n i) t t') (hsize : off + n ≤ t.size)
    (hi : i < n / 2) :
    ∃ t'', swap t' (off + i) (off + (n - 1 - i)) = .ok t'' ∧
      DrawnBy (mirrorEnds off n (i + 1)) t t'' := by
  have hlow : off + i < t'.size := by
    rw [h.size]
    omega
  have hhigh : off + (n - 1 - i) < t'.size := by
    rw [h.size]
    omega
  refine ⟨t'.swap (off + i) (off + (n - 1 - i)) hlow hhigh, dif_pos ⟨hlow, hhigh⟩,
    Array.size_swap.trans h.size, fun k => ?_⟩
  have hcell := h.cell k
  by_cases hk : k = off + i
  · have hmap : mirrorEnds off n (i + 1) k = mirrorEnds off n i (off + (n - 1 - i)) := by
      unfold mirrorEnds
      split_ifs <;> omega
    rw [hmap, ← h.cell, hk, Array.getElem?_swap, if_neg (by omega), if_pos rfl]
    exact (Array.getElem?_eq_getElem hhigh).symm
  · by_cases hk' : k = off + (n - 1 - i)
    · have hmap : mirrorEnds off n (i + 1) k = mirrorEnds off n i (off + i) := by
        unfold mirrorEnds
        split_ifs <;> omega
      rw [hmap, ← h.cell, hk', Array.getElem?_swap, if_pos rfl]
      exact (Array.getElem?_eq_getElem hlow).symm
    · have hmap : mirrorEnds off n (i + 1) k = mirrorEnds off n i k := by
        unfold mirrorEnds
        split_ifs <;> omega
      rw [hmap, ← hcell, Array.getElem?_swap, if_neg (Ne.symm hk'), if_neg (Ne.symm hk)]

theorem reverseLoop_drawn (hsize : off + n ≤ t.size) :
    ∀ (left i : Nat) (t' : Array α), i + left = n / 2 → DrawnBy (mirrorEnds off n i) t t' →
      ∃ t'', reverseLoop off n left i t' = .ok t'' ∧ DrawnBy (mirror off n) t t'' := by
  intro left
  induction left with
  | zero =>
      intro i t' hi h
      rw [Nat.add_zero] at hi
      rw [hi] at h
      exact ⟨t', rfl, h.congr (mirrorEnds_half off n)⟩
  | succ left ih =>
      intro i t' hi h
      obtain ⟨u, hu, hround⟩ := swap_mirrorEnds h hsize (by omega)
      obtain ⟨t'', ht'', hall⟩ := ih (i + 1) u (by omega) hround
      refine ⟨t'', ?_, hall⟩
      rw [reverseLoop, hu, bind_of_ok, ht'']

/-- **`reverse` mirrors its range.** -/
theorem reverse_drawn (off n : Nat) (hsize : off + n ≤ t.size) :
    ∃ t', reverse t off n = .ok t' ∧ DrawnBy (mirror off n) t t' := by
  refine reverseLoop_drawn hsize (n / 2) 0 t (Nat.zero_add _) ⟨rfl, fun k => ?_⟩
  rw [mirrorEnds_zero]

/-! ### Rotating

Three mirrors of three ranges, one of them the whole.
-/

/-- **`rotate` turns its range.**  The pointer is `t + mid`. -/
theorem rotate_drawn (hsize : n ≤ t.size) (hmid : mid ≤ n) :
    ∃ t', rotate t n mid = .ok (mid, t') ∧ DrawnBy (turn n mid) t t' := by
  unfold rotate
  by_cases hearly : mid = 0 ∨ mid = n
  · rw [if_pos hearly]
    refine ⟨t, rfl, rfl, fun k => ?_⟩
    rcases hearly with rfl | rfl
    · rw [turn_zero]
    · rw [turn_self]
  · rw [if_neg hearly, sub64, if_pos hmid]
    obtain ⟨t₁, ht₁, hfront⟩ := reverse_drawn (t := t) 0 mid (by omega)
    obtain ⟨t₂, ht₂, hback⟩ := reverse_drawn (t := t₁) mid (n - mid)
      (by rw [hfront.size]; omega)
    have hsize₂ : t₂.size = t.size := hback.size.trans hfront.size
    obtain ⟨t₃, ht₃, hall⟩ := reverse_drawn (t := t₂) 0 n
      (by rw [hsize₂]; omega)
    refine ⟨t₃, ?_, ((hfront.trans hback).trans hall).congr (mirror_mirror_mirror hmid)⟩
    rw [ht₁, bind_of_ok, ht₂, bind_of_ok, ht₃]
    rfl

/--
**`rotate` moves every element.**  The former cells from `mid` on come first, the former
cells in front of `mid` after them, and what is behind the range is unchanged.  Two rotations
are one, by the sum of the distances.
-/
theorem rotate_correct (t : Array α) (n : Nat) (hsize : n ≤ t.size) :
    (∀ mid, mid ≤ n → ∃ r t', rotate t n mid = .ok (r, t') ∧ t'.size = t.size ∧
      (∀ i, i < n - mid → t'[i]? = t[mid + i]?) ∧
      (∀ i, i < mid → t'[n - mid + i]? = t[i]?) ∧ ∀ i, n ≤ i → t'[i]? = t[i]?) ∧
    ∀ a b, a < n → b < n → ∃ r r' r'' t' t'', rotate t n a = .ok (r, t') ∧
      rotate t' n b = .ok (r', t'') ∧ rotate t n ((a + b) % n) = .ok (r'', t'') := by
  refine ⟨fun mid hmid => ?_, fun a b ha hb => ?_⟩
  · obtain ⟨t', ht', h⟩ := rotate_drawn hsize hmid
    refine ⟨mid, t', ht', h.size, fun i hi => ?_, fun i hi => ?_, fun i hi => ?_⟩
    · rw [h.cell, turn_of_lt hmid hi]
    · rw [h.cell, turn_of_ge hmid hi]
    · rw [h.cell, turn_outside hi]
  · have hmod : (a + b) % n < n := Nat.mod_lt _ (by omega)
    obtain ⟨t', ht', h⟩ := rotate_drawn hsize (Nat.le_of_lt ha)
    obtain ⟨t'', ht'', h'⟩ := rotate_drawn (t := t') (by rw [h.size]; exact hsize)
      (Nat.le_of_lt hb)
    obtain ⟨u, hu, hsum⟩ := rotate_drawn hsize (Nat.le_of_lt hmod)
    -- both arrays are `t` turned by the sum
    have htwice : DrawnBy (turn n ((a + b) % n)) t t'' :=
      (h.trans h').congr fun k => (turn_turn n a b k).trans (turn_mod n (a + b) k).symm
    have heq : t'' = u := htwice.unique hsum
    exact ⟨a, b, _, t', t'', ht', ht'', by rw [heq]; exact hu⟩

/-- Five elements and one behind them. -/
theorem rotate_correct_five :
    (∀ mid, mid ≤ 5 → ∃ r t', rotate #[1, 2, 3, 4, 5, 9] 5 mid = .ok (r, t') ∧ t'.size = 6 ∧
      (∀ i, i < 5 - mid → t'[i]? = #[1, 2, 3, 4, 5, 9][mid + i]?) ∧
      (∀ i, i < mid → t'[5 - mid + i]? = #[1, 2, 3, 4, 5, 9][i]?) ∧
      ∀ i, 5 ≤ i → t'[i]? = #[1, 2, 3, 4, 5, 9][i]?) ∧
    ∀ a b, a < 5 → b < 5 → ∃ r r' r'' t' t'', rotate #[1, 2, 3, 4, 5, 9] 5 a = .ok (r, t') ∧
      rotate t' 5 b = .ok (r', t'') ∧
      rotate #[1, 2, 3, 4, 5, 9] 5 ((a + b) % 5) = .ok (r'', t'') :=
  rotate_correct #[1, 2, 3, 4, 5, 9] 5 (by decide)

/-! ### The pointer that is returned

Rotating back would take the pointer to where the first element has gone.
-/

/-- What the pointer is for: it is where the former first element is, and rotating to it puts
every element back. -/
def Restores (t : Array α) (n mid : Nat) : Prop :=
  ∃ r t', rotate t n mid = .ok (r, t') ∧ t'[r]? = t[0]? ∧ ∃ r', rotate t' n r = .ok (r', t)

/--
**When the pointer of `rotate` is the right one.**  Rotating to it turns by `2 * mid` in all,
which puts the elements back if and only if they repeat with the greatest common divisor of
`2 * mid` and `n`.  In the middle of the range that is `n` itself, and nothing is asked.
-/
theorem rotate_restores_iff (t : Array α) (n mid : Nat) (hsize : n ≤ t.size) (hmid : 0 < mid)
    (hlt : mid < n) : Restores t n mid ↔ Repeats (fun i => t[i]?) n (Nat.gcd (2 * mid) n) := by
  obtain ⟨t', ht', h⟩ := rotate_drawn hsize (Nat.le_of_lt hlt)
  obtain ⟨t'', ht'', h'⟩ := rotate_drawn (t := t') (by rw [h.size]; exact hsize)
    (Nat.le_of_lt hlt)
  have htwice : DrawnBy (turn n (2 * mid)) t t'' := by
    refine (h.trans h').congr fun k => ?_
    rw [Nat.two_mul]
    exact turn_turn n mid mid k
  rw [← turn_fixed_iff (show 0 < 2 * mid by omega)]
  constructor
  · rintro ⟨r, u, hu, -, r', hback⟩ k hk
    rw [ht'] at hu
    obtain ⟨rfl, rfl⟩ := Prod.mk.inj (Except.ok.inj hu)
    rw [ht''] at hback
    have hrestored : t'' = t := (Prod.mk.inj (Except.ok.inj hback)).2
    exact htwice.eq_iff.mp hrestored k (by omega)
  · intro hfixed
    have hrestored : t'' = t := by
      refine htwice.eq_iff.mpr fun k _ => ?_
      by_cases hk : k < n
      · exact hfixed k hk
      · rw [turn_outside (Nat.le_of_not_lt hk)]
    -- the second rotation takes its first cell from `mid`
    have hfirst : t''[0]? = t'[mid]? := by
      rw [h'.cell, turn_of_lt (Nat.le_of_lt hlt) (by omega), Nat.add_zero]
    rw [hrestored] at hfirst ht''
    exact ⟨mid, t', ht', hfirst.symm, mid, ht''⟩

/-- Two elements that alternate, turned by one of them. -/
theorem rotate_restores_iff_alternating :
    Restores #[1, 2, 1, 2] 4 1 ↔ Repeats (fun i => #[1, 2, 1, 2][i]?) 4 (Nat.gcd (2 * 1) 4) :=
  rotate_restores_iff #[1, 2, 1, 2] 4 1 (by decide) (by decide) (by decide)

/-- Of three elements turned by one, the pointer is at the second one. -/
theorem rotate_restores_not_three : ¬ Restores #[1, 2, 3] 3 1 := by
  rintro ⟨r, t', hrot, hfirst, -⟩
  have hrun : rotate #[1, 2, 3] 3 1 = .ok (1, #[2, 3, 1]) := by rfl
  rw [hrun] at hrot
  obtain ⟨rfl, rfl⟩ := Prod.mk.inj (Except.ok.inj hrot)
  revert hfirst
  decide

end Ytl.Algorithm
