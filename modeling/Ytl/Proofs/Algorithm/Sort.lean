/-
Two ways to sort.

`sort_heap` takes the largest value out of a shrinking heap; `quick_sort` splits the
range at a pivot and sorts the two sides.  Both leave the values of the range in
ascending order, and an array has only one ascending arrangement, so they leave the
same array.
-/
import Ytl.Algorithm.Sort
import Ytl.Proofs.Algorithm.Heap

namespace Ytl.Algorithm

variable {α : Type} [LinearOrder α] {t : Array α} {n : Nat}

/-! ### `sort_heap`

The heap is the front of the range and what was taken out the back.
-/

/-- The first `i` values are a heap, the others ascend, and no value of the heap is
above one of the others. -/
structure HalfSorted (f : Nat → α) (i n : Nat) : Prop where
  heap : HeapFrom f 0 i
  tail : Ascending f i n
  below : ∀ a b, a < i → i ≤ b → b < n → f a ≤ f b

/-- Taking out the largest value moves the border down by one. -/
theorem HalfSorted.shrink {d : α} {t' : Array α} {k : Nat}
    (h : HalfSorted (cells d t) (k + 1) n) (hmoves : Moves d 0 (k + 1) t t')
    (hheap : HeapFrom (cells d t') 0 k) (hlast : cells d t' k = cells d t 0) :
    HalfSorted (cells d t') k n := by
  have hmax : ∀ a, a < k + 1 → cells d t' a ≤ cells d t' k := by
    rw [hlast]
    intro a ha
    exact hmoves.cells.forall_inside (P := fun x => x ≤ cells d t 0)
      (fun i _ hi => h.heap.root_max i hi) a (Nat.zero_le a) ha
  have hbelow : ∀ a b, a < k + 1 → k + 1 ≤ b → b < n → cells d t' a ≤ cells d t' b := by
    intro a b ha hb hbn
    rw [hmoves.cells.outside (i := b) (Or.inr hb)]
    exact hmoves.cells.forall_inside (P := fun x => x ≤ cells d t b)
      (fun i _ hi => h.below i b hi hb hbn) a (Nat.zero_le a) ha
  refine ⟨hheap, ?_, ?_⟩
  · refine Ascending.join (k + 1) (Ascending.of_short (Nat.le_refl _)) ?_ ?_
    · exact h.tail.congr fun i hi _ => hmoves.cells.outside (Or.inr hi)
    · intro i j _ hi hj hjn
      exact hbelow i j hi hj hjn
  · intro a b ha hb hbn
    by_cases hbk : b = k
    · rw [hbk]
      exact hmax a (by omega)
    · exact hbelow a b (by omega) (by omega) hbn

theorem sortHeapLoop_spec (d : α) (n : Nat) :
    ∀ (i : Nat) (t : Array α), n ≤ t.size → i ≤ n → HalfSorted (cells d t) i n →
      ∃ t', sortHeapLoop i t = .ok t' ∧ Moves d 0 n t t' ∧ Ascending (cells d t') 0 n := by
  intro i
  induction i with
  | zero =>
      intro t _ _ h
      exact ⟨t, rfl, Moves.refl d 0 n t, h.tail⟩
  | succ k ih =>
      intro t hn hk h
      rw [sortHeapLoop]
      by_cases hone : k + 1 > 1
      · rw [if_pos hone]
        obtain ⟨u, v, hu, hv, hmoves, hheap, hlast⟩ :=
          extract_spec d (t := t) (k := k) (by omega) (by omega) h.heap
        obtain ⟨t', ht', hmoves', hasc⟩ := ih v (by rw [hmoves.size]; exact hn) (by omega)
          (h.shrink hmoves hheap hlast)
        refine ⟨t', ?_, (hmoves.mono (Nat.le_refl 0) (by omega)).trans hmoves', hasc⟩
        rw [hu, bind_of_ok, hv, bind_of_ok]
        exact ht'
      · rw [if_neg hone]
        have hk0 : k = 0 := by omega
        subst hk0
        refine ⟨t, rfl, Moves.refl d 0 n t, ?_⟩
        refine Ascending.join 1 (Ascending.of_short (by omega)) h.tail ?_
        intro i j _ hi hj hjn
        exact h.below i j hi hj hjn

/-- **`sort_heap` sorts a heap.** -/
theorem sortHeap_spec (d : α) (hn : n ≤ t.size) (h : HeapFrom (cells d t) 0 n) :
    ∃ t', sortHeap t n = .ok t' ∧ Moves d 0 n t t' ∧ Ascending (cells d t') 0 n := by
  refine sortHeapLoop_spec d n n t hn (Nat.le_refl n)
    ⟨h, Ascending.of_short (by omega), fun a b ha hb hbn => ?_⟩
  omega

/-! ### `partition`

The range is in three parts while the loop runs: values that are not above the pivot, values
that are, and values that have not been looked at.
-/

/-- Up to `i` no value is above the pivot, from `i` up to `j` all are. -/
structure Split (f : Nat → α) (off : Nat) (pivot : α) (i j : Nat) : Prop where
  le : i ≤ j
  low : ∀ k, k < i → f (off + k) ≤ pivot
  high : ∀ k, i ≤ k → k < j → pivot < f (off + k)

/-- A value that is not above the pivot changes places with the first one that is. -/
theorem Split.take {f : Nat → α} {off i j : Nat} {pivot : α} (h : Split f off pivot i j)
    (hlow : f (off + j) ≤ pivot) :
    Split (f ∘ Equiv.swap (off + i) (off + j)) off pivot (i + 1) (j + 1) := by
  have hle := h.le
  refine ⟨by omega, fun k hk => ?_, fun k hk hkj => ?_⟩
  · show f (Equiv.swap (off + i) (off + j) (off + k)) ≤ pivot
    by_cases hki : k = i
    · rw [hki, Equiv.swap_apply_left]
      exact hlow
    · rw [Equiv.swap_apply_of_ne_of_ne (by omega) (by omega)]
      exact h.low k (by omega)
  · show pivot < f (Equiv.swap (off + i) (off + j) (off + k))
    by_cases hkj' : k = j
    · -- the value that made room is one of the larger ones
      rw [hkj', Equiv.swap_apply_right]
      exact h.high i (Nat.le_refl i) (by omega)
    · rw [Equiv.swap_apply_of_ne_of_ne (by omega) (by omega)]
      exact h.high k (by omega) (by omega)

/-- A value above the pivot stays where it is. -/
theorem Split.skip {f : Nat → α} {off i j : Nat} {pivot : α} (h : Split f off pivot i j)
    (hhigh : pivot < f (off + j)) : Split f off pivot i (j + 1) := by
  have hle := h.le
  refine ⟨by omega, h.low, fun k hk hkj => ?_⟩
  by_cases hkj' : k = j
  · rw [hkj']
    exact hhigh
  · exact h.high k hk (by omega)

theorem partitionLoop_spec (d : α) (off : Nat) (pivot : α) :
    ∀ (remaining j i : Nat) (t : Array α), off + (j + remaining) ≤ t.size →
      Split (cells d t) off pivot i j →
      ∃ i' t', partitionLoop off pivot remaining j i t = .ok (i', t') ∧
        Moves d off (off + (j + remaining)) t t' ∧
        Split (cells d t') off pivot i' (j + remaining) := by
  intro remaining
  induction remaining with
  | zero =>
      intro j i t _ h
      exact ⟨i, t, rfl, Moves.refl d off _ t, h⟩
  | succ remaining ih =>
      intro j i t hn h
      have hle := h.le
      rw [partitionLoop, read_cells d (show off + j < t.size by omega), bind_of_ok]
      have hcount : j + 1 + remaining = j + (remaining + 1) := by omega
      by_cases hlow : cells d t (off + j) ≤ pivot
      · rw [if_pos hlow]
        obtain ⟨u, hu, hmoves, hcells⟩ := swap_moves d off
          (off + (j + (remaining + 1))) (off + i) (off + j) hn
          ⟨by omega, by omega⟩ ⟨by omega, by omega⟩
        have hsplit : Split (cells d u) off pivot (i + 1) (j + 1) := by
          rw [hcells]
          exact h.take hlow
        obtain ⟨i', t', ht', hmoves', hsplit'⟩ :=
          ih (j + 1) (i + 1) u (by rw [hmoves.size]; omega) hsplit
        rw [hcount] at hmoves' hsplit'
        refine ⟨i', t', ?_, hmoves.trans hmoves', hsplit'⟩
        rw [hu, bind_of_ok]
        exact ht'
      · rw [if_neg hlow]
        obtain ⟨i', t', ht', hmoves', hsplit'⟩ :=
          ih (j + 1) i t (by omega) (h.skip (not_le.mp hlow))
        rw [hcount] at hmoves' hsplit'
        exact ⟨i', t', ht', hmoves', hsplit'⟩

/-- **`partition` puts the pivot in its place.** -/
theorem partition_spec (d : α) (off : Nat) (hpos : 0 < n) (hn : off + n ≤ t.size) :
    ∃ p t', partition t off n = .ok (p, t') ∧ p < n ∧ Moves d off (off + n) t t' ∧
      (∀ k, k < p → cells d t' (off + k) ≤ cells d t' (off + p)) ∧
      (∀ k, p < k → k < n → cells d t' (off + p) < cells d t' (off + k)) := by
  have hpred : pred64 n = n - 1 := if_neg (by omega)
  unfold partition
  rw [hpred, read_cells d (show off + (n - 1) < t.size by omega), bind_of_ok]
  obtain ⟨p, u, hu, hmoves, hsplit⟩ := partitionLoop_spec d off (cells d t (off + (n - 1)))
    (n - 1) 0 0 t (by omega) ⟨Nat.le_refl 0, nofun, nofun⟩
  rw [Nat.zero_add] at hmoves hsplit
  have hle := hsplit.le
  rw [hu, bind_of_ok]
  dsimp only
  obtain ⟨t', ht', hmoves', hcells⟩ := swap_moves d off (off + n) (off + p)
    (off + (n - 1)) (t := u) (by rw [hmoves.size]; exact hn)
    ⟨by omega, by omega⟩ ⟨by omega, by omega⟩
  have hpivot : cells d t' (off + p) = cells d t (off + (n - 1)) := by
    rw [hcells]
    show cells d u (Equiv.swap (off + p) (off + (n - 1)) (off + p)) = _
    rw [Equiv.swap_apply_left]
    exact hmoves.cells.outside (Or.inr (Nat.le_refl _))
  refine ⟨p, t', ?_, by omega, (hmoves.mono (Nat.le_refl off) (by omega)).trans hmoves', ?_, ?_⟩
  · rw [ht']
    rfl
  · intro k hk
    rw [hpivot, hcells]
    show cells d u (Equiv.swap (off + p) (off + (n - 1)) (off + k)) ≤ _
    rw [Equiv.swap_apply_of_ne_of_ne (by omega) (by omega)]
    exact hsplit.low k hk
  · intro k hk hkn
    rw [hpivot, hcells]
    show _ < cells d u (Equiv.swap (off + p) (off + (n - 1)) (off + k))
    by_cases hlast : k = n - 1
    · rw [hlast, Equiv.swap_apply_right]
      exact hsplit.high p (Nat.le_refl p) (by omega)
    · rw [Equiv.swap_apply_of_ne_of_ne (by omega) (by omega)]
      exact hsplit.high k (by omega) (by omega)

/-! ### `quick_sort`

The recursion is on two shorter ranges, so its depth is bounded by the length, whatever the
pivots are.
-/

/-- The two sides of a pivot are sorted one after the other. -/
theorem ascending_of_sides {d : α} {off p : Nat} {u v t' : Array α}
    (hlow : ∀ k, k < p → cells d u (off + k) ≤ cells d u (off + p))
    (hhigh : ∀ k, p < k → k < n → cells d u (off + p) < cells d u (off + k))
    (hleft : Moves d off (off + p) u v) (hasc : Ascending (cells d v) off (off + p))
    (hright : Moves d (off + p + 1) (off + n) v t')
    (hasc' : Ascending (cells d t') (off + p + 1) (off + n)) :
    Ascending (cells d t') off (off + n) := by
  have hpivot : cells d t' (off + p) = cells d u (off + p) := by
    rw [hright.cells.outside (Or.inl (by omega)), hleft.cells.outside (Or.inr (Nat.le_refl _))]
  have hbelow : ∀ i, off ≤ i → i < off + p → cells d t' i ≤ cells d u (off + p) := by
    intro i hi hip
    rw [hright.cells.outside (Or.inl (by omega))]
    refine hleft.cells.forall_inside (P := fun x => x ≤ cells d u (off + p)) ?_ i hi hip
    intro k hk hkp
    have := hlow (k - off) (by omega)
    rwa [show off + (k - off) = k by omega] at this
  have habove : ∀ i, off + p + 1 ≤ i → i < off + n → cells d u (off + p) ≤ cells d t' i := by
    refine hright.cells.forall_inside (P := fun x => cells d u (off + p) ≤ x) ?_
    intro k hk hkn
    rw [hleft.cells.outside (Or.inr (by omega))]
    have := (hhigh (k - off) (by omega) (by omega)).le
    rwa [show off + (k - off) = k by omega] at this
  refine Ascending.join (off + p) ?_ ?_ ?_
  · exact hasc.congr fun i _ hi => hright.cells.outside (Or.inl (by omega))
  · refine Ascending.join (off + p + 1) (Ascending.of_short (Nat.le_refl _)) hasc' ?_
    intro i j hi hip hj hjn
    rw [show i = off + p by omega, hpivot]
    exact habove j hj hjn
  · intro i j hi hip hj hjn
    refine (hbelow i hi hip).trans ?_
    by_cases hjp : j = off + p
    · rw [hjp, hpivot]
    · exact habove j (by omega) hjn

theorem quickSortLoop_spec (d : α) :
    ∀ (fuel : Nat) (t : Array α) (off n : Nat), n < fuel → off + n ≤ t.size →
      ∃ t', quickSortLoop fuel t off n = .ok t' ∧ Moves d off (off + n) t t' ∧
        Ascending (cells d t') off (off + n) := by
  intro fuel
  induction fuel with
  | zero =>
      intro t off n hfuel
      omega
  | succ fuel ih =>
      intro t off n hfuel hn
      rw [quickSortLoop]
      by_cases hshort : n ≤ 1
      · rw [if_pos hshort]
        exact ⟨t, rfl, Moves.refl d off _ t, Ascending.of_short (by omega)⟩
      · rw [if_neg hshort]
        obtain ⟨p, u, hu, hp, hmoves, hlow, hhigh⟩ := partition_spec d off (show 0 < n by omega) hn
        obtain ⟨v, hv, hleft, hasc⟩ := ih u off p (by omega) (by rw [hmoves.size]; omega)
        obtain ⟨t', ht', hright, hasc'⟩ :=
          ih v (off + p + 1) (n - p - 1) (by omega) (by rw [hleft.size, hmoves.size]; omega)
        rw [show off + p + 1 + (n - p - 1) = off + n by omega] at hright hasc'
        refine ⟨t', ?_, ?_, ascending_of_sides hlow hhigh hleft hasc hright hasc'⟩
        · rw [hu, bind_of_ok]
          dsimp only
          rw [hv, bind_of_ok]
          exact ht'
        · exact hmoves.trans ((hleft.mono (Nat.le_refl off) (by omega)).trans
            (hright.mono (by omega) (Nat.le_refl _)))

/-- **`sort` sorts.** -/
theorem sort_spec (d : α) (hn : n ≤ t.size) :
    ∃ t', sort t n = .ok t' ∧ Moves d 0 n t t' ∧ Ascending (cells d t') 0 n := by
  have h := quickSortLoop_spec d (n + 1) t 0 n (Nat.lt_succ_self n) (by omega)
  rwa [Nat.zero_add] at h

/-! ### One ascending arrangement

From the positions back to lists.
-/

theorem pairwise_take_of_ascending {d : α} (hn : n ≤ t.size) (h : Ascending (cells d t) 0 n) :
    (t.toList.take n).Pairwise (· ≤ ·) := by
  rw [List.pairwise_iff_getElem]
  intro i j hi hj hij
  have hj' : j < n := by
    rw [List.length_take] at hj
    omega
  have hle := h i j (Nat.zero_le i) hij.le hj'
  rw [cells_eq d (show i < t.size by omega), cells_eq d (show j < t.size by omega)] at hle
  simpa using hle

theorem pairwise_of_ascending {d : α} (h : Ascending (cells d t) 0 t.size) :
    t.toList.Pairwise (· ≤ ·) := by
  have htake := pairwise_take_of_ascending (Nat.le_refl t.size) h
  rwa [← Array.length_toList, List.take_length] at htake

theorem eq_of_pairwise {u v : Array α} (hu : u.toList.Pairwise (· ≤ ·))
    (hv : v.toList.Pairwise (· ≤ ·)) (hperm : u.toList.Perm v.toList) : u = v :=
  Array.toList_inj.mp (hperm.eq_of_pairwise (fun _ _ _ _ => le_antisymm) hu hv)

/-- What sorts the positions of an array sorts the array; a default value is there to
look at it with unless it is empty. -/
theorem sorts_of_ascending {result : Except Fault (Array α)} (hempty : t = #[] → result = .ok #[])
    (hspec : ∀ d, ∃ t', result = .ok t' ∧ Moves d 0 t.size t t' ∧
      Ascending (cells d t') 0 t.size) :
    ∃ t', result = .ok t' ∧ t'.toList.Pairwise (· ≤ ·) ∧ t'.toList.Perm t.toList := by
  by_cases hzero : t.size = 0
  · have hnil : t = #[] := Array.eq_empty_of_size_eq_zero hzero
    refine ⟨#[], hempty hnil, List.Pairwise.nil, ?_⟩
    rw [hnil]
  · have hpos : 0 < t.size := by omega
    obtain ⟨t', ht', hmoves, hasc⟩ := hspec t[0]
    refine ⟨t', ht', ?_, hmoves.perm⟩
    rw [← hmoves.size] at hasc
    exact pairwise_of_ascending hasc

/-- Nothing in front of `n` is above anything from there on. -/
theorem forall_take_le_drop {d : α} (h : Separated (cells d t) n t.size) :
    ∀ x ∈ t.toList.take n, ∀ y ∈ t.toList.drop n, x ≤ y := by
  intro x hx y hy
  obtain ⟨a, ha, rfl⟩ := List.mem_take_iff_getElem.mp hx
  obtain ⟨b, hb, rfl⟩ := List.mem_drop_iff_getElem.mp hy
  rw [Array.length_toList] at ha hb
  have hle := h a (n + b) (by omega) (Nat.le_add_right n b) (by omega)
  rw [cells_eq d (show a < t.size by omega), cells_eq d (show n + b < t.size by omega)] at hle
  simpa using hle

/--
**`sort` on the front of an array.**  It returns; the first `num` elements are an
ascending permutation of what they were, and the others are what they were.
-/
theorem sort_prefix_sorts (t : Array α) (num : Nat) (hnum : num ≤ t.size) :
    ∃ t', sort t num = .ok t' ∧ (t'.toList.take num).Pairwise (· ≤ ·) ∧
      (t'.toList.take num).Perm (t.toList.take num) ∧
      t'.toList.drop num = t.toList.drop num := by
  by_cases hzero : num = 0
  · subst hzero
    exact ⟨t, rfl, by simp, by simp, rfl⟩
  · -- some element is there to look at the array with
    have hpos : 0 < t.size := by omega
    obtain ⟨t', ht', hmoves, hasc⟩ := sort_spec t[0] hnum
    refine ⟨t', ht', ?_, hmoves.take_perm, hmoves.drop_eq⟩
    exact pairwise_take_of_ascending (by rw [hmoves.size]; exact hnum) hasc

/-- The first three of four elements. -/
theorem sort_prefix_sorts_three : 3 ≤ (#[2, 3, 1, 0] : Array Nat).size ∧
    ∃ t', sort (#[2, 3, 1, 0] : Array Nat) 3 = .ok t' ∧ (t'.toList.take 3).Pairwise (· ≤ ·) ∧
      (t'.toList.take 3).Perm [2, 3, 1] ∧ t'.toList.drop 3 = [0] :=
  ⟨by decide, sort_prefix_sorts #[2, 3, 1, 0] 3 (by decide)⟩

/-- Sorting a whole array that is a heap. -/
theorem sortHeap_sorts (h : IsMaxHeap t) :
    ∃ t', sortHeap t t.size = .ok t' ∧ t'.toList.Pairwise (· ≤ ·) ∧ t'.toList.Perm t.toList := by
  refine sorts_of_ascending ?_ fun d => ?_
  · rintro rfl
    rfl
  · exact sortHeap_spec d (Nat.le_refl t.size) ((isMaxHeap_iff d).mp h)

theorem sort_sorts (t : Array α) :
    ∃ t', sort t t.size = .ok t' ∧ t'.toList.Pairwise (· ≤ ·) ∧ t'.toList.Perm t.toList := by
  refine sorts_of_ascending ?_ fun d => ?_
  · rintro rfl
    rfl
  · exact sort_spec d (Nat.le_refl t.size)

/--
**The two ways to sort agree.**  `sort_heap` of a max-heap is an ascending permutation
of it, and `make_heap` followed by `sort_heap` leaves the array that `sort` leaves.
-/
theorem heap_sort_eq_sort (t : Array α) :
    (IsMaxHeap t → ∃ t', sortHeap t t.size = .ok t' ∧ t'.toList.Pairwise (· ≤ ·) ∧
      t'.toList.Perm t.toList) ∧
    ∃ u, (do let h ← makeHeap t t.size; sortHeap h t.size) = .ok u ∧ sort t t.size = .ok u := by
  refine ⟨sortHeap_sorts, ?_⟩
  obtain ⟨h, hh, hheap, hperm⟩ := makeHeap_isMaxHeap t
  have hsize : h.size = t.size := by simpa using hperm.length_eq
  obtain ⟨u, hu, hsorted, hperm'⟩ := sortHeap_sorts hheap
  obtain ⟨v, hv, hsorted', hperm''⟩ := sort_sorts t
  have heq : u = v := eq_of_pairwise hsorted hsorted' (hperm'.trans (hperm.trans hperm''.symm))
  refine ⟨u, ?_, heq ▸ hv⟩
  rw [hh, bind_of_ok, ← hsize]
  exact hu

/-- A heap of three elements, and the same elements in another order. -/
theorem heap_sort_eq_sort_three :
    (∃ t', sortHeap #[3, 1, 2] 3 = .ok t' ∧ t'.toList.Pairwise (· ≤ ·) ∧
      t'.toList.Perm [3, 1, 2]) ∧
    ∃ u, (do let h ← makeHeap #[2, 3, 1] 3; sortHeap h 3) = .ok u ∧
      sort (#[2, 3, 1] : Array Nat) 3 = .ok u := by
  have hheap : IsMaxHeap (#[3, 1, 2] : Array Nat) := by
    intro i j hi hj hc
    have hj' : j < 3 := hj
    have hi0 : i = 0 := by omega
    subst hi0
    rcases hc with rfl | rfl
    · show 1 ≤ 3
      omega
    · show 2 ≤ 3
      omega
  exact ⟨(heap_sort_eq_sort #[3, 1, 2]).1 hheap, (heap_sort_eq_sort #[2, 3, 1]).2⟩

end Ytl.Algorithm
