/-
`accumulate` undoes `adjacent_difference`.

A round reads the element it stands at and the one before it, and both are wanted as they were at
the start.  The rounds before have written to the result, so the round trip depends on how the two
ranges lie: the result may begin in front of the source, or behind its end.  In place the first
element is written back as it was, which is why two elements are still fine, and three are not.

The elements are those of any commutative group.  That the condition is needed is shown by
contents that break the round trip whenever it fails: zeros, but for one value at the place
that is read too late.
-/
import Mathlib.Algebra.Group.Basic
import Mathlib.Algebra.Group.Int.Defs
import Mathlib.Algebra.Ring.Int.Defs
import Ytl.Algorithm.Numeric
import Ytl.Proofs.Algorithm.Sift

namespace Ytl.Algorithm

section Write

variable {α : Type} {t : Array α} {i : Nat}

theorem write_cells (d : α) (h : i < t.size) (a : α) :
    ∃ u, write t i a = .ok u ∧ u.size = t.size ∧ cells d u = Function.update (cells d t) i a := by
  refine ⟨t.set i a, dif_pos h, by simp, ?_⟩
  funext j
  by_cases hj : j = i
  · subst hj
    simp [cells, h]
  · simp [cells, Function.update_of_ne hj, Ne.symm hj]

theorem getElem?_of_cells {d : α} {u : Array α} (hsize : u.size = t.size)
    (h : cells d u i = cells d t i) : u[i]? = t[i]? := by
  by_cases hi : i < t.size
  · rw [cells_eq d hi, cells_eq d (show i < u.size by omega)] at h
    rw [Array.getElem?_eq_getElem hi, Array.getElem?_eq_getElem (show i < u.size by omega), h]
  · rw [Array.getElem?_eq_none (by omega), Array.getElem?_eq_none (by omega)]

end Write

variable {α : Type} [AddCommGroup α] {t u v : Array α} {f g : Nat → α} {off result n m i : Nat}

/-! ### Sums

One element more at the end of the range is one more to add.
-/

theorem accumulateLoop_concat :
    ∀ (left i : Nat) (init : α), off + (i + left) < t.size →
      accumulateLoop t off (left + 1) i init = (do
        let x ← accumulateLoop t off left i init
        return x + cells 0 t (off + (i + left))) := by
  intro left
  induction left with
  | zero =>
      intro i init h
      simp [accumulateLoop, read_cells 0 (show off + i < t.size from h)]
  | succ left ih =>
      intro i init h
      have hsum : i + 1 + left = i + (left + 1) := by omega
      rw [accumulateLoop, accumulateLoop, read_cells 0 (show off + i < t.size by omega),
        bind_of_ok, bind_of_ok, ih (i + 1) _ (by omega), hsum]

/-- One element more. -/
theorem accumulate_concat {x : α} (h : off + n < t.size) {init : α}
    (hx : accumulate t off n init = .ok x) :
    accumulate t off (n + 1) init = .ok (x + cells 0 t (off + n)) := by
  unfold accumulate at hx ⊢
  rw [accumulateLoop_concat n 0 init (by omega), hx, Nat.zero_add]
  rfl

/-! ### Differences

What the result should hold is a function of what the source held.  A round may write to a
cell that a later round reads; whether that happens is a question about two numbers and the
length.
-/

/-- What position `k` of the result should be. -/
def difference (f : Nat → α) (off k : Nat) : α :=
  if k = 0 then f off else f (off + k) - f (off + (k - 1))

/-- The first `m` positions of the result are done, and nothing else has changed. -/
structure Differenced (f : Nat → α) (off result m : Nat) (g : Nat → α) : Prop where
  inside : ∀ k, k < m → g (result + k) = difference f off k
  outside : ∀ j, j < result ∨ result + m ≤ j → g j = f j

/-- The ranges of `m` elements lie so that no round reads what another has changed. -/
def Clear (off result m : Nat) : Prop :=
  result < off ∨ off + m ≤ result ∨ m ≤ 1 ∨ result = off ∧ m = 2

theorem Differenced.first (f : Nat → α) (off result : Nat) :
    Differenced f off result 1 (Function.update f result (f off)) := by
  refine ⟨fun k hk => ?_, fun j hj => Function.update_of_ne (by omega) _ _⟩
  obtain rfl : k = 0 := by omega
  simp [difference]

theorem Differenced.next (h : Differenced f off result i g) (hi : 0 < i)
    (hcurrent : g (off + i) = f (off + i)) (hbefore : g (off + (i - 1)) = f (off + (i - 1))) :
    Differenced f off result (i + 1)
      (Function.update g (result + i) (g (off + i) - g (off + (i - 1)))) := by
  refine ⟨fun k hk => ?_, fun j hj => ?_⟩
  · by_cases hki : k = i
    · rw [hki, Function.update_self, hcurrent, hbefore, difference, if_neg (Nat.ne_of_gt hi)]
    · rw [Function.update_of_ne (by omega)]
      exact h.inside k (by omega)
  · rw [Function.update_of_ne (by omega)]
    exact h.outside j (by omega)

/-- What round `i` reads has not been changed. -/
theorem Differenced.unread (h : Differenced f off result i g) (hi : 0 < i)
    (hclear : Clear off result (i + 1)) :
    g (off + i) = f (off + i) ∧ g (off + (i - 1)) = f (off + (i - 1)) := by
  unfold Clear at hclear
  by_cases hplace : result = off ∧ i = 1
  · obtain ⟨rfl, rfl⟩ := hplace
    exact ⟨h.outside _ (by omega), h.inside 0 (by omega)⟩
  · exact ⟨h.outside _ (by omega), h.outside _ (by omega)⟩

/-! ### The rounds

The rounds up to `m` leave the first `m` differences, as long as the ranges of that length are
clear of each other.
-/

theorem differenceCell_cells (hoff : off + i < t.size) (hresult : result + i < t.size) :
    ∃ u, differenceCell off result i t = .ok u ∧ u.size = t.size ∧
      cells 0 u = Function.update (cells 0 t) (result + i)
        (cells 0 t (off + i) - cells 0 t (off + (i - 1))) := by
  rw [differenceCell, read_cells 0 hoff, bind_of_ok, read_cells 0 (by omega), bind_of_ok]
  exact write_cells 0 hresult _

theorem differenceLoop_add (b : Nat) :
    ∀ (a i : Nat) (t : Array α), differenceLoop off result (a + b) i t = (do
      let u ← differenceLoop off result a i t
      differenceLoop off result b (i + a) u) := by
  intro a
  induction a with
  | zero =>
      intro i t
      simp [differenceLoop]
  | succ a ih =>
      intro i t
      rw [Nat.succ_add, differenceLoop, differenceLoop, bind_assoc]
      simp only [ih, Nat.add_assoc, Nat.add_comm 1 a]

/-- The rounds go on behind what is done. -/
theorem differenceLoop_behind (off result : Nat) :
    ∀ (left i : Nat) (t : Array α), off + (i + left) ≤ t.size → result + (i + left) ≤ t.size →
      ∃ u, differenceLoop off result left i t = .ok u ∧ u.size = t.size ∧
        ∀ j, j < result + i → cells 0 u j = cells 0 t j := by
  intro left
  induction left with
  | zero =>
      intro i t _ _
      exact ⟨t, rfl, rfl, fun _ _ => rfl⟩
  | succ left ih =>
      intro i t hoff hresult
      obtain ⟨u, hu, hsize, hcells⟩ := differenceCell_cells
        (show off + i < t.size by omega) (show result + i < t.size by omega)
      obtain ⟨v, hv, hsize', hkept⟩ := ih (i + 1) u (by omega) (by omega)
      refine ⟨v, ?_, hsize'.trans hsize, fun j hj => ?_⟩
      · rw [differenceLoop, hu, bind_of_ok]
        exact hv
      · rw [hkept j (by omega), hcells, Function.update_of_ne (by omega)]

theorem Clear.mono (h : Clear off result m) (hi : i ≤ m) : Clear off result i := by
  unfold Clear at h ⊢
  omega

theorem differenceLoop_differenced :
    ∀ (left i : Nat) (t : Array α), 0 < i → Clear off result (i + left) →
      off + (i + left) ≤ t.size → result + (i + left) ≤ t.size →
      Differenced f off result i (cells 0 t) →
      ∃ u, differenceLoop off result left i t = .ok u ∧ u.size = t.size ∧
        Differenced f off result (i + left) (cells 0 u) := by
  intro left
  induction left with
  | zero =>
      intro i t _ _ _ _ h
      exact ⟨t, rfl, rfl, h⟩
  | succ left ih =>
      intro i t hi hclear hoff hresult h
      have hsum : i + 1 + left = i + (left + 1) := by omega
      obtain ⟨hcurrent, hbefore⟩ := h.unread hi (hclear.mono (by omega))
      obtain ⟨u, hu, hsize, hcells⟩ := differenceCell_cells
        (show off + i < t.size by omega) (show result + i < t.size by omega)
      obtain ⟨v, hv, hsize', hdone⟩ := ih (i + 1) u (Nat.succ_pos i) (by rwa [hsum])
        (by omega) (by omega) (by rw [hcells]; exact h.next hi hcurrent hbefore)
      refine ⟨v, ?_, hsize'.trans hsize, by rwa [hsum] at hdone⟩
      rw [differenceLoop, hu, bind_of_ok]
      exact hv

/-- `adjacent_difference` of ranges that are clear of each other. -/
theorem adjacentDifference_differenced (hpos : 0 < n) (hclear : Clear off result n)
    (hoff : off + n ≤ t.size) (hresult : result + n ≤ t.size) :
    ∃ u, adjacentDifference t off result n = .ok u ∧ u.size = t.size ∧
      Differenced (cells 0 t) off result n (cells 0 u) := by
  obtain ⟨v, hv, hsize, hcells⟩ := write_cells 0 (show result < t.size by omega)
    (cells 0 t off)
  have hfirst : Differenced (cells 0 t) off result 1 (cells 0 v) := by
    rw [hcells]
    exact Differenced.first _ off result
  have hsum : 1 + (n - 1) = n := by omega
  obtain ⟨u, hu, hsize', hdone⟩ := differenceLoop_differenced (n - 1) 1 v Nat.one_pos
    (by rwa [hsum]) (by omega) (by omega) hfirst
  refine ⟨u, ?_, hsize'.trans hsize, by rwa [hsum] at hdone⟩
  rw [adjacentDifference, if_neg (Nat.ne_of_gt hpos), copyCell, Nat.add_zero, Nat.add_zero,
    read_cells 0 (show off < t.size by omega), bind_of_ok, hv, bind_of_ok]
  exact hu

theorem adjacentDifference_size (hoff : off + n ≤ t.size) (hresult : result + n ≤ t.size)
    (hu : adjacentDifference t off result n = .ok u) : u.size = t.size := by
  unfold adjacentDifference at hu
  by_cases hn : n = 0
  · rw [if_pos hn] at hu
    rw [Except.ok.inj hu]
  · rw [if_neg hn] at hu
    obtain ⟨v, hv, hrest⟩ := bind_returns.mp hu
    obtain ⟨a, -, ha⟩ := bind_returns.mp hv
    obtain ⟨w, hw, hsize, -⟩ := write_cells 0 (t := t) (i := result + 0) (by omega) a
    obtain ⟨u', hu', hsize', -⟩ := differenceLoop_behind off result (n - 1) 1 w
      (by omega) (by omega)
    rw [hw] at ha
    rw [← Except.ok.inj ha, hu'] at hrest
    rw [← Except.ok.inj hrest, hsize', hsize]

/-! ### There and back

If the ranges are in each other's way, there is a first round that notices.  Up to there all
is as it should be, so what that round reads is known, and what comes out in the end is not
what it was.
-/

/-- The differences up to a position add up to what was there. -/
theorem Differenced.accumulate (h : Differenced f off result n (cells 0 u))
    (hresult : result + n ≤ u.size) :
    ∀ k, k < n → Algorithm.accumulate u result (k + 1) 0 = .ok (f (off + k)) := by
  intro k
  induction k with
  | zero =>
      intro hk
      rw [accumulate_concat (x := 0) (by omega) rfl, h.inside 0 hk]
      simp [difference]
  | succ k ih =>
      intro hk
      rw [accumulate_concat (by omega) (ih (by omega)), h.inside _ hk]
      simp [difference]

/-- The first position where the ranges are in each other's way. -/
theorem exists_disturbed (h : ¬ Clear off result n) :
    ∃ m, 0 < m ∧ m < n ∧ Clear off result m ∧ (result = off ∧ m = 2 ∨ result = off + m) := by
  unfold Clear at h ⊢
  by_cases hsame : result = off
  · exact ⟨2, by omega⟩
  · exact ⟨result - off, by omega⟩

theorem adjacentDifference_split (hm : 0 < m) (hmn : m ≤ n) :
    adjacentDifference t off result n = (do
      let u ← adjacentDifference t off result m
      differenceLoop off result (n - m) m u) := by
  have hsum : n - 1 = m - 1 + (n - m) := by omega
  have hnext : 1 + (m - 1) = m := by omega
  simp only [adjacentDifference, if_neg (show ¬ n = 0 by omega), if_neg (Nat.ne_of_gt hm),
    bind_assoc, hsum, differenceLoop_add, hnext]

/-- The round at that position, and what it finds. -/
theorem disturbed_value (hm : 0 < m) (hmn : m < n) (hclear : Clear off result m)
    (hoff : off + n ≤ t.size) (hresult : result + n ≤ t.size)
    (hu : adjacentDifference t off result n = .ok u) :
    ∃ g, Differenced (cells 0 t) off result m g ∧
      cells 0 u (result + m) = g (off + m) - g (off + (m - 1)) := by
  obtain ⟨v, hv, hsize, hdone⟩ := adjacentDifference_differenced (t := t) hm hclear
    (by omega) (by omega)
  obtain ⟨k, hk⟩ : ∃ k, n - m = k + 1 := ⟨n - m - 1, by omega⟩
  rw [adjacentDifference_split hm hmn.le, hv, bind_of_ok, hk, differenceLoop] at hu
  obtain ⟨w, hw, hwsize, hcells⟩ := differenceCell_cells
    (show off + m < v.size by omega) (show result + m < v.size by omega)
  obtain ⟨u', hu', -, hkept⟩ := differenceLoop_behind off result k (m + 1) w
    (by omega) (by omega)
  rw [hw, bind_of_ok, hu'] at hu
  rw [Except.ok.inj hu] at hkept
  refine ⟨cells 0 v, hdone, ?_⟩
  rw [hkept _ (by omega), hcells, Function.update_self]

/-- One value in front of zeros comes back at the wrong place. -/
theorem disturbed_sum (hm : 0 < m) (hplace : result = off ∧ m = 2 ∨ result = off + m)
    (h : Differenced f off result m g) (hzero : f (off + m) = 0) :
    f (off + (m - 1)) + (g (off + m) - g (off + (m - 1))) = f off := by
  rcases hplace with ⟨rfl, rfl⟩ | rfl
  · rw [h.outside _ (by omega), h.inside (2 - 1) (by omega), hzero]
    simp [difference]
  · have hfirst := h.inside 0 hm
    rw [Nat.add_zero] at hfirst
    rw [hfirst, h.outside _ (by omega)]
    simp [difference]

/--
**`accumulate` undoes `adjacent_difference`, as long as the ranges allow it.**  For every contents
of the array the sums of the result are the elements that the source had, and nothing outside the
result changes, exactly when the result begins in front of the source or behind its end, or there
is at most one element, or there are two and the result is in their place.
-/
theorem adjacentDifference_undone_iff [Nontrivial α] (size off result n : Nat)
    (hoff : off + n ≤ size) (hresult : result + n ≤ size) :
    (∀ t : Array α, t.size = size → ∃ u, adjacentDifference t off result n = .ok u ∧
      (∀ k, k < n → accumulate u result (k + 1) 0 = read t (off + k)) ∧
      ∀ j, j < result ∨ result + n ≤ j → u[j]? = t[j]?) ↔
    result < off ∨ off + n ≤ result ∨ n ≤ 1 ∨ result = off ∧ n = 2 := by
  constructor
  · intro h
    by_contra hclear
    obtain ⟨m, hm, hmn, hbefore, hplace⟩ := exists_disturbed hclear
    obtain ⟨a, ha⟩ := exists_ne (0 : α)
    let t : Array α := Array.ofFn fun i : Fin size => if i.val = off then a else 0
    have hsize : t.size = size := Array.size_ofFn
    have hcells : ∀ j, j < size → cells 0 t j = if j = off then a else 0 := by
      intro j hj
      simp [t, cells, hj]
    obtain ⟨u, hu, hsums, -⟩ := h t hsize
    obtain ⟨g, hdone, hvalue⟩ := disturbed_value hm hmn hbefore (by omega) (by omega) hu
    have hzero : cells 0 t (off + m) = 0 := by
      rw [hcells _ (by omega), if_neg (by omega)]
    have hspike := disturbed_sum hm hplace hdone hzero
    rw [← hvalue, hcells off (by omega), if_pos rfl] at hspike
    -- the sum up to the position is the spike, and it should be 0
    have hsum := hsums (m - 1) (by omega)
    rw [Nat.sub_add_cancel hm, read_cells 0 (by omega)] at hsum
    have hnext := hsums m hmn
    have husize := adjacentDifference_size (by omega) (by omega) hu
    rw [accumulate_concat (by omega) hsum, read_cells 0 (by omega), hspike, hzero] at hnext
    exact ha (Except.ok.inj hnext)
  · intro hclear t hsize
    by_cases hn : n = 0
    · subst hn
      exact ⟨t, rfl, fun k hk => absurd hk (Nat.not_lt_zero k), fun _ _ => rfl⟩
    · obtain ⟨u, hu, husize, hdone⟩ := adjacentDifference_differenced (t := t)
        (Nat.pos_of_ne_zero hn) hclear (by omega) (by omega)
      refine ⟨u, hu, fun k hk => ?_, fun j hj => ?_⟩
      · rw [hdone.accumulate (by omega) k hk, read_cells 0 (by omega)]
      · exact getElem?_of_cells husize (hdone.outside j hj)

/-- Two elements are replaced by their difference, and three are not. -/
theorem adjacentDifference_undone_iff_in_place :
    (∃ u, adjacentDifference (#[7, 9, 4] : Array Int) 0 0 2 = .ok u ∧
      accumulate u 0 2 0 = .ok 9) ∧
    ¬ ∀ t : Array Int, t.size = 3 → ∃ u, adjacentDifference t 0 0 3 = .ok u ∧
      (∀ k, k < 3 → accumulate u 0 (k + 1) 0 = read t (0 + k)) ∧
      ∀ j, j < 0 ∨ 0 + 3 ≤ j → u[j]? = t[j]? := by
  refine ⟨?_, fun h => ?_⟩
  · obtain ⟨u, hu, hsums, -⟩ := (adjacentDifference_undone_iff (α := Int) 3 0 0 2 (by decide)
      (by decide)).mpr (by decide) #[7, 9, 4] rfl
    exact ⟨u, hu, hsums 1 (by decide)⟩
  · exact absurd ((adjacentDifference_undone_iff (α := Int) 3 0 0 3 (by decide) (by decide)).mp h)
      (by decide)

end Ytl.Algorithm
