/-
`nth_element` finds what sorting would put at `nth`.

Each round partitions the window that is left and keeps the side `nth` lies in.  Both
ends of the window are borders of the whole array: nothing in front of one is above
anything behind it.  A partition moves values inside the window only, so the ends stay
borders, and the pivot gives two more.  When it comes to rest at `nth` there is a
border on both sides of `nth`, and that determines the value.
-/
import Ytl.Proofs.Algorithm.Sort

namespace Ytl.Algorithm

variable {α : Type} [LinearOrder α] {t : Array α} {nth : Nat}

/-! ### The window

Two borders are enough to know where a value belongs: with one in front of `nth` and one
behind it, the value between them is the one that sorting puts there.
-/

/-- What holds of the array `t` and a window of it in every round. -/
structure Searching (d : α) (t : Array α) (nth : Nat) (w : Window α) : Prop where
  moves : Moves d 0 t.size t w.cells
  left_le : w.left ≤ nth
  le_right : nth ≤ w.right
  right_lt : w.right < t.size
  low : Separated (cells d w.cells) w.left t.size
  high : Separated (cells d w.cells) (w.right + 1) t.size

/-- The array with a border on both sides of `nth`. -/
structure Selected (d : α) (t : Array α) (nth : Nat) (t' : Array α) : Prop where
  moves : Moves d 0 t.size t t'
  low : Separated (cells d t') nth t.size
  high : Separated (cells d t') (nth + 1) t.size

theorem searching_init (d : α) (h : nth < t.size) :
    Searching d t nth ⟨t, 0, pred64 t.size⟩ := by
  have hpred : pred64 t.size = t.size - 1 := if_neg (by omega)
  rw [hpred]
  refine ⟨Moves.refl d 0 t.size t, Nat.zero_le nth, by dsimp only; omega, by dsimp only; omega,
    Separated.zero _ _, ?_⟩
  rw [show t.size - 1 + 1 = t.size by omega]
  exact Separated.all _ _

/-! ### One round, and all of them -/

/-- The partition of a window: the pivot lies in it and has a border on both sides. -/
theorem partition_window {d : α} {w : Window α} (h : Searching d t nth w) :
    ∃ p u, partition w.cells w.left (span64 w.left w.right) = .ok (p, u) ∧
      p + w.left ≤ w.right ∧ Moves d 0 t.size t u ∧
      Separated (cells d u) w.left t.size ∧ Separated (cells d u) (w.right + 1) t.size ∧
      Separated (cells d u) (p + w.left) t.size ∧
      Separated (cells d u) (p + w.left + 1) t.size := by
  have hle := h.left_le
  have hge := h.le_right
  have hlt := h.right_lt
  have hsize := h.moves.size
  have hspan : span64 w.left w.right = w.right - w.left + 1 := if_pos (by omega)
  obtain ⟨p, u, hu, hp, hmoves, hlow, hhigh⟩ := partition_spec d w.left (t := w.cells)
    (n := w.right - w.left + 1) (by omega) (by omega)
  rw [show w.left + (w.right - w.left + 1) = w.right + 1 by omega] at hmoves
  have hl : Separated (cells d u) w.left t.size :=
    h.low.rearranged hmoves.cells (by omega) (Or.inl (Nat.le_refl _))
  have hr : Separated (cells d u) (w.right + 1) t.size :=
    h.high.rearranged hmoves.cells (by omega) (Or.inr (Nat.le_refl _))
  have hpivot := hl.of_pivot hr (p := p + w.left) (by omega)
    (fun i hi hip => by
      have hk := hlow (i - w.left) (by omega)
      rwa [show w.left + (i - w.left) = i by omega, Nat.add_comm w.left p] at hk)
    (fun i hi hih => by
      have hk := hhigh (i - w.left) (by omega) (by omega)
      rw [show w.left + (i - w.left) = i by omega, Nat.add_comm w.left p] at hk
      exact hk.le)
    (by omega)
  refine ⟨p, u, ?_, by omega, ?_, hl, hr, hpivot.1, hpivot.2⟩
  · rw [hspan]
    exact hu
  · exact h.moves.trans (hmoves.mono (Nat.zero_le _) (by omega))

/-- **One round** ends the search or makes the window smaller. -/
theorem nthStep_spec {d : α} {w : Window α} (h : Searching d t nth w) :
    (∃ t', nthStep nth w = .ok (.inl t') ∧ Selected d t nth t') ∨
    ∃ w', nthStep nth w = .ok (.inr w') ∧ Searching d t nth w' ∧
      w'.right - w'.left < w.right - w.left := by
  obtain ⟨p, u, hu, hp, hmoves, hl, hr, hlow, hhigh⟩ := partition_window h
  have hle := h.left_le
  have hge := h.le_right
  have hlt := h.right_lt
  unfold nthStep
  rw [hu, bind_of_ok]
  dsimp only
  by_cases heq : p + w.left = nth
  · rw [if_pos heq]
    rw [heq] at hlow hhigh
    exact Or.inl ⟨u, rfl, hmoves, hlow, hhigh⟩
  · rw [if_neg heq]
    refine Or.inr ?_
    by_cases hbelow : p + w.left < nth
    · rw [if_pos hbelow]
      refine ⟨_, rfl, ⟨hmoves, ?_, hge, hlt, hhigh, hr⟩, ?_⟩
      · exact hbelow
      · dsimp only
        omega
    · rw [if_neg hbelow]
      have hpred : pred64 (p + w.left) = p + w.left - 1 := if_neg (by omega)
      rw [hpred]
      refine ⟨_, rfl, ⟨hmoves, hle, ?_, ?_, hl, ?_⟩, ?_⟩
      · dsimp only
        omega
      · dsimp only
        omega
      · rw [show p + w.left - 1 + 1 = p + w.left by omega]
        exact hlow
      · dsimp only
        omega

theorem nthLoop_spec (d : α) (t : Array α) (nth : Nat) :
    ∀ (fuel : Nat) (w : Window α), w.right - w.left < fuel → Searching d t nth w →
      ∃ t', nthLoop nth fuel w = .ok t' ∧ Selected d t nth t' := by
  intro fuel
  induction fuel with
  | zero =>
      intro w hfuel
      omega
  | succ fuel ih =>
      intro w hfuel h
      rw [nthLoop]
      rcases nthStep_spec h with ⟨t', ht', hsel⟩ | ⟨w', hw', hsearch, hless⟩
      · rw [ht', bind_of_ok]
        exact ⟨t', rfl, hsel⟩
      · rw [hw', bind_of_ok]
        exact ih w' (by omega) hsearch

/-- Every window of a run keeps the invariant. -/
theorem searching_of_rounds {d : α} {w : Window α} (h : nth < t.size)
    (hrun : Relation.ReflTransGen (fun w w' => nthStep nth w = .ok (.inr w'))
      ⟨t, 0, pred64 t.size⟩ w) : Searching d t nth w := by
  induction hrun with
  | refl => exact searching_init d h
  | tail _ hstep ih =>
      rcases nthStep_spec ih with ⟨t', ht', -⟩ | ⟨w', hw', hsearch, -⟩
      · rw [ht'] at hstep
        cases hstep
      · rw [hw'] at hstep
        cases hstep
        exact hsearch

/-- A border on both sides of `nth` determines the value there. -/
theorem Selected.value {d : α} {t' u : Array α} (h : Selected d t nth t') (hn : nth < t.size)
    (hu : u.toList.Pairwise (· ≤ ·)) (hperm : u.toList.Perm t.toList) :
    ∃ x, t'[nth]? = some x ∧ u[nth]? = some x ∧ (∀ y ∈ t'.toList.take nth, y ≤ x) ∧
      ∀ y ∈ t'.toList.drop (nth + 1), x ≤ y := by
  have hsize := h.moves.size
  have hn' : nth < t'.size := by omega
  have hlow := h.low
  have hhigh := h.high
  rw [← hsize] at hlow hhigh
  have hbefore := forall_take_le_drop hlow
  have hafter := forall_take_le_drop hhigh
  have hdrop : t'.toList.drop nth = t'[nth] :: t'.toList.drop (nth + 1) := by
    rw [List.drop_eq_getElem_cons (by simpa using hn')]
    simp
  have hmem : t'[nth] ∈ t'.toList.take (nth + 1) := by
    rw [List.mem_take_iff_getElem]
    exact ⟨nth, by simpa using hn', by simp⟩
  have hleast : ∀ y ∈ t'.toList.drop (nth + 1), t'[nth] ≤ y := hafter t'[nth] hmem
  refine ⟨t'[nth], by simp [hn'], ?_, fun y hy => hbefore y hy _ (by rw [hdrop]; simp), hleast⟩
  -- sorted, the values from `nth` on begin with the one at `nth`
  have hfront : u.toList = _ := ascending_append_of_perm hu
    ((hperm.trans h.moves.perm.symm).trans (by rw [List.take_append_drop nth])) hbefore
  rw [← Array.getElem?_toList, hfront, hdrop,
    List.insertionSort_cons_of_forall_rel _ hleast, List.getElem?_append_right (by simp)]
  simp [Nat.min_eq_left hn'.le]

/--
**`nth_element` selects.**  For `nth` inside the array it returns a permutation of it
with the element at `nth` that sorting puts there, nothing larger before it and nothing
smaller behind it; and in every round `nth` lies in the window, which lies in the array.
-/
theorem nthElement_selects (t : Array α) (nth : Nat) (h : nth < t.size) :
    (∃ t' u, nthElement t t.size nth = .ok t' ∧ sort t t.size = .ok u ∧
      t'.toList.Perm t.toList ∧
      ∃ x, t'[nth]? = some x ∧ u[nth]? = some x ∧ (∀ y ∈ t'.toList.take nth, y ≤ x) ∧
        ∀ y ∈ t'.toList.drop (nth + 1), x ≤ y) ∧
    ∀ w : Window α, Relation.ReflTransGen (fun w w' => nthStep nth w = .ok (.inr w'))
      ⟨t, 0, pred64 t.size⟩ w → w.left ≤ nth ∧ nth ≤ w.right ∧ w.right < t.size := by
  have hpos : 0 < t.size := by omega
  refine ⟨?_, fun w hrun => ?_⟩
  · obtain ⟨t', ht', hsel⟩ := nthLoop_spec t[0] t nth t.size ⟨t, 0, pred64 t.size⟩
      (by rw [show pred64 t.size = t.size - 1 from if_neg (by omega)]; dsimp only; omega)
      (searching_init t[0] h)
    obtain ⟨u, hu, hsorted, hperm⟩ := sort_sorts t
    refine ⟨t', u, ?_, hu, hsel.moves.perm, hsel.value h hsorted hperm⟩
    rw [nthElement, if_neg (by omega)]
    exact ht'
  · have hsearch := searching_of_rounds (d := t[0]) h hrun
    exact ⟨hsearch.left_le, hsearch.le_right, hsearch.right_lt⟩

/-- The median of five. -/
theorem nthElement_selects_median : 2 < (#[4, 1, 5, 2, 3] : Array Nat).size ∧
    ∃ t' u, nthElement (#[4, 1, 5, 2, 3] : Array Nat) 5 2 = .ok t' ∧
      sort (#[4, 1, 5, 2, 3] : Array Nat) 5 = .ok u ∧ t'.toList.Perm [4, 1, 5, 2, 3] ∧
      ∃ x, t'[2]? = some x ∧ u[2]? = some x ∧ (∀ y ∈ t'.toList.take 2, y ≤ x) ∧
        ∀ y ∈ t'.toList.drop 3, x ≤ y :=
  ⟨by decide, (nthElement_selects #[4, 1, 5, 2, 3] 2 (by decide)).1⟩

end Ytl.Algorithm
