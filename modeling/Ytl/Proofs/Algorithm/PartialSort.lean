/-
`partial_sort` leaves the front that `sort` leaves.

The `sift_down` of `sort.inl` takes the last position of the heap where the one of
`heap.inl` takes the number of its elements; apart from that they are one function,
so the first loop builds a heap as `make_heap` does and the last one takes it apart
as `sort_heap` does.  The loop between them keeps the `m` smallest values seen so
far in the heap: nothing behind it that was looked at is below its root.

For `m = 0` the bound `m - 1` wraps, and the first call of `sift_down` already reads
far behind the array.
-/
import Ytl.Proofs.Algorithm.Sort

namespace Ytl.Algorithm

variable {α : Type} [LinearOrder α] {t : Array α} {n : Nat}

/-! ### The two ways to sift down

The two functions make the same tests in another order, and count the elements of the heap in
another way.  They are shown to be the same function, so that what is known of the one is
known of the other.
-/

/-- The test of one child, with the two reads in the other order. -/
theorem larger_eq (t : Array α) (n m child : Nat) :
    larger t n m child =
      (if child < n then do
        if (← read t m) < (← read t child) then pure child else pure m
      else pure m) := by
  unfold larger
  by_cases hlt : child < n
  · rw [if_pos hlt, if_pos hlt]
    by_cases hm : m < t.size
    · rw [read_cells t[m] hm]
      cases read t child <;> rfl
    · -- a failed read is the same fault in both places
      rw [read_error hm]
      by_cases hc : child < t.size
      · rw [read_cells t[child] hc]
        rfl
      · rw [read_error hc]
        rfl
  · rw [if_neg hlt, if_neg hlt]

theorem Sort.rightChild_eq (t : Array α) (last m child : Nat) :
    Sort.rightChild t last m child = larger t (last + 1) m (child + 1) := by
  rw [larger_eq]
  unfold Sort.rightChild
  by_cases hle : child + 1 ≤ last
  · rw [if_pos hle, if_pos (Nat.lt_succ_of_le hle)]
  · rw [if_neg hle, if_neg (fun hc => hle (Nat.le_of_lt_succ hc))]

theorem Sort.siftDownLoop_eq :
    ∀ (fuel : Nat) (t : Array α) (root last : Nat),
      Sort.siftDownLoop fuel t root last = Algorithm.siftDownLoop fuel t root (last + 1) := by
  intro fuel
  induction fuel with
  | zero =>
      intro t root last
      rfl
  | succ fuel ih =>
      intro t root last
      rw [Sort.siftDownLoop, Algorithm.siftDownLoop, larger_eq, Nat.mul_comm root 2]
      simp only [Sort.rightChild_eq, ih]
      by_cases hchild : 2 * root + 1 ≤ last
      · rw [if_pos hchild, if_pos (Nat.lt_succ_of_le hchild)]
        cases read t root with
        | error e => rfl
        | ok a =>
            cases read t (2 * root + 1) with
            | error e => rfl
            | ok b =>
                simp only [bind_of_ok]
                by_cases hlt : a < b
                · simp only [if_pos hlt, pure_is_ok, bind_of_ok]
                · simp only [if_neg hlt, pure_is_ok, bind_of_ok]
      · rw [if_neg hchild, if_neg (by omega), pure_is_ok, pure_is_ok, bind_of_ok, larger_eq,
          if_neg (by omega), pure_is_ok, bind_of_ok, if_pos rfl]

/-- **The `sift_down` of `sort.inl` is the one of `heap.inl`**, with the last position
in place of the number of elements. -/
theorem Sort.siftDown_eq (t : Array α) (start last : Nat) :
    Sort.siftDown t start last = Algorithm.siftDown t start (last + 1) :=
  Sort.siftDownLoop_eq (last + 2) t start last

/--
**The two `sift_down` functions agree.**  For every linear order, every array and all positions
`pos < n`, the one of `heap.inl` called with `n` and the one of `sort.inl` called with `n - 1`
return, and leave the same array.  With `n` below 2^63 both compute the children without wrapping.
-/
theorem sift_downs_agree (t : Array α) (n pos : Nat) (hn : n ≤ t.size) (hpos : pos < n) :
    ∃ t', Algorithm.siftDown t pos n = .ok t' ∧ Sort.siftDown t pos (n - 1) = .ok t' := by
  obtain ⟨t', ht', -⟩ := siftDown_spec t[pos] 0 hn hpos (Nat.zero_le pos)
  refine ⟨t', ht', ?_⟩
  rw [Sort.siftDown_eq, Nat.sub_add_cancel (Nat.lt_of_le_of_lt (Nat.zero_le pos) hpos)]
  exact ht'

/-- At position 1 of four elements, the last one is a lone child. -/
theorem sift_downs_agree_lone :
    ∃ t', Algorithm.siftDown #[5, 1, 4, 3] 1 4 = .ok t' ∧
      Sort.siftDown #[5, 1, 4, 3] 1 3 = .ok t' :=
  sift_downs_agree #[5, 1, 4, 3] 4 1 (by decide) (by decide)

theorem heapifyLoop_eq (last : Nat) :
    ∀ (i : Nat) (t : Array α), heapifyLoop last i t = makeHeapLoop (last + 1) i t := by
  intro i
  induction i with
  | zero =>
      intro t
      rfl
  | succ i ih =>
      intro t
      simp only [heapifyLoop, makeHeapLoop, Sort.siftDown_eq, ih]

theorem unwindLoop_eq :
    ∀ (i : Nat) (t : Array α), unwindLoop i t = sortHeapLoop (i + 1) t := by
  intro i
  induction i with
  | zero =>
      intro t
      rfl
  | succ i ih =>
      intro t
      rw [sortHeapLoop, if_pos (by omega)]
      simp only [unwindLoop, Sort.siftDown_eq, ih]

/-! ### The scan

An element that is smaller than the root takes its place.  The root goes to where that element was,
and is not below the new root there, since nothing in the heap was above it.
-/

/-- The first `m` values are a heap, and none from there up to `i` is below its root. -/
structure Scanned (f : Nat → α) (m i : Nat) : Prop where
  heap : HeapFrom f 0 m
  above : ∀ j, m ≤ j → j < i → f 0 ≤ f j

theorem Scanned.skip {f : Nat → α} {m i : Nat} (h : Scanned f m i) (hge : f 0 ≤ f i) :
    Scanned f m (i + 1) := by
  refine ⟨h.heap, fun j hj hji => ?_⟩
  by_cases hij : j = i
  · rw [hij]
    exact hge
  · exact h.above j hj (by omega)

/-- A smaller value replaces the root, which goes behind the heap. -/
theorem Scanned.replace {d : α} {u t' : Array α} {m i : Nat} (hm : 0 < m) (hmi : m ≤ i)
    (h : Scanned (cells d t) m i) (hlt : cells d t i < cells d t 0)
    (hcells : cells d u = cells d t ∘ Equiv.swap 0 i) (hmoves : Moves d 0 m u t')
    (hheap : HeapFrom (cells d t') 0 m) : Scanned (cells d t') m (i + 1) := by
  have hat : ∀ j, j ≠ 0 → j ≠ i → cells d u j = cells d t j := by
    intro j hj hji
    rw [hcells]
    show cells d t (Equiv.swap 0 i j) = cells d t j
    rw [Equiv.swap_apply_of_ne_of_ne hj hji]
  have hroot : cells d t' 0 ≤ cells d t 0 := by
    refine hmoves.cells.forall_inside (P := fun x => x ≤ cells d t 0) ?_ 0 (Nat.le_refl 0) hm
    intro j _ hj
    by_cases hzero : j = 0
    · rw [hzero, hcells]
      show cells d t (Equiv.swap 0 i 0) ≤ cells d t 0
      rw [Equiv.swap_apply_left]
      exact hlt.le
    · rw [hat j hzero (by omega)]
      exact h.heap.root_max j hj
  refine ⟨hheap, fun j hj hji => hroot.trans ?_⟩
  rw [hmoves.cells.outside (Or.inr hj)]
  by_cases hij : j = i
  · rw [hij, hcells]
    show cells d t 0 ≤ cells d t (Equiv.swap 0 i i)
    rw [Equiv.swap_apply_right]
  · rw [hat j (by omega) hij]
    exact h.above j hj (by omega)

theorem scanLoop_spec (d : α) (last : Nat) :
    ∀ (remaining i : Nat) (t : Array α), i + remaining ≤ t.size → last + 1 ≤ i →
      Scanned (cells d t) (last + 1) i →
      ∃ t', scanLoop last remaining i t = .ok t' ∧ Moves d 0 (i + remaining) t t' ∧
        Scanned (cells d t') (last + 1) (i + remaining) := by
  intro remaining
  induction remaining with
  | zero =>
      intro i t _ _ h
      exact ⟨t, rfl, Moves.refl d 0 _ t, h⟩
  | succ remaining ih =>
      intro i t hn hi h
      have hcount : i + 1 + remaining = i + (remaining + 1) := by omega
      rw [scanLoop, read_cells d (show i < t.size by omega), bind_of_ok,
        read_cells d (show 0 < t.size by omega), bind_of_ok]
      by_cases hlt : cells d t i < cells d t 0
      · rw [if_pos hlt]
        obtain ⟨u, v, hu, hv, hmoves, hheap, hcells, hsift⟩ :=
          exchange_spec d (Nat.succ_pos last) hi (by omega) h.heap
        obtain ⟨t', ht', hmoves', hscan⟩ := ih (i + 1) v (by rw [hmoves.size]; omega) (by omega)
          (h.replace (Nat.succ_pos last) hi hlt hcells hsift hheap)
        rw [hcount] at hmoves' hscan
        refine ⟨t', ?_, (hmoves.mono (Nat.le_refl 0) (by omega)).trans hmoves', hscan⟩
        rw [hu, bind_of_ok, Sort.siftDown_eq, hv, bind_of_ok]
        exact ht'
      · rw [if_neg hlt]
        obtain ⟨t', ht', hmoves', hscan⟩ :=
          ih (i + 1) t (by omega) (by omega) (h.skip (not_lt.mp hlt))
        rw [hcount] at hmoves' hscan
        exact ⟨t', ht', hmoves', hscan⟩

/-! ### All three loops

After the scan the heap has the smallest values, and the last loop sorts it.
-/

/-- **`partial_sort` finds and sorts the `m` smallest values**, for `1 ≤ m < n`. -/
theorem partialSort_spec (d : α) {m : Nat} (hm : 0 < m) (hmn : m < n) (hn : n ≤ t.size) :
    ∃ t', partialSort t n m = .ok t' ∧ Moves d 0 n t t' ∧ Ascending (cells d t') 0 m ∧
      Separated (cells d t') m n := by
  obtain ⟨last, rfl⟩ : ∃ last, m = last + 1 := ⟨m - 1, by omega⟩
  have hpred : pred64 (last + 1) = last := if_neg (by omega)
  obtain ⟨u, hu, hbuild, hheap⟩ := makeHeapLoop_spec d (last + 1) (last / 2 + 1) t (by omega)
    (by omega) (HeapFrom.of_leaves (by omega))
  obtain ⟨v, hv, hscan, hscanned⟩ := scanLoop_spec d last (n - (last + 1)) (last + 1) u
    (by rw [hbuild.size]; omega) (Nat.le_refl _) ⟨hheap, fun j hj hji => by omega⟩
  rw [show last + 1 + (n - (last + 1)) = n by omega] at hscan hscanned
  obtain ⟨t', ht', hsorted, hasc⟩ :=
    sortHeap_spec d (t := v) (n := last + 1) (by rw [hscan.size, hbuild.size]; omega)
      hscanned.heap
  refine ⟨t', ?_, ?_, hasc, ?_⟩
  · unfold partialSort
    rw [if_neg (by omega), hpred, heapifyLoop_eq, hu, bind_of_ok, hv, bind_of_ok, unwindLoop_eq]
    exact ht'
  · exact (hbuild.mono (Nat.le_refl 0) hmn.le).trans
      (hscan.trans (hsorted.mono (Nat.le_refl 0) hmn.le))
  · have hsep : Separated (cells d v) (last + 1) n := fun a b ha hb hbn =>
      (hscanned.heap.root_max a ha).trans (hscanned.above b hb hbn)
    exact hsep.rearranged hsorted.cells hmn.le (Or.inr (Nat.le_refl _))

/-- An array whose first `m` values ascend and are not above the others begins like the
ascending arrangement of its values. -/
theorem take_eq_of_sorted {d : α} {u : Array α} {m : Nat} (hm : m ≤ t.size)
    (hasc : Ascending (cells d t) 0 m)
    (hle : Separated (cells d t) m t.size)
    (hu : u.toList.Pairwise (· ≤ ·)) (hperm : u.toList.Perm t.toList) :
    t.toList.take m = u.toList.take m := by
  rw [← List.take_append_drop m t.toList] at hperm
  rw [ascending_append_of_perm hu hperm (forall_take_le_drop hle),
    (pairwise_take_of_ascending hm hasc).insertionSort_eq, List.take_append]
  simp [hm]

/--
**`partial_sort` agrees with `sort` on the front.**  For every `m ≥ 1` both return,
the first `min m n` of the `n` elements are the same, and `partial_sort` only permutes.
-/
theorem partialSort_take_eq_sort (t : Array α) (m : Nat) (hm : 1 ≤ m) :
    ∃ t' u, partialSort t t.size m = .ok t' ∧ sort t t.size = .ok u ∧
      t'.toList.take (min m t.size) = u.toList.take (min m t.size) ∧
      t'.toList.Perm t.toList := by
  obtain ⟨u, hu, hsorted, hperm⟩ := sort_sorts t
  by_cases hlarge : m ≥ t.size
  · refine ⟨u, u, ?_, hu, rfl, hperm⟩
    rw [partialSort, if_pos hlarge]
    exact hu
  · have hlt : m < t.size := by omega
    have hpos : 0 < t.size := by omega
    obtain ⟨t', ht', hmoves, hasc, hle⟩ :=
      partialSort_spec t[0] hm hlt (Nat.le_refl t.size)
    refine ⟨t', u, ht', hu, ?_, hmoves.perm⟩
    rw [min_eq_left hlt.le]
    rw [← hmoves.size] at hle
    exact take_eq_of_sorted (by rw [hmoves.size]; exact hlt.le) hasc hle hsorted
      (hperm.trans hmoves.perm.symm)

/-- Two of five, and more than there are. -/
theorem partialSort_take_eq_sort_two :
    (∃ t' u, partialSort (#[4, 1, 5, 2, 3] : Array Nat) 5 2 = .ok t' ∧
      sort (#[4, 1, 5, 2, 3] : Array Nat) 5 = .ok u ∧ t'.toList.take 2 = u.toList.take 2 ∧
      t'.toList.Perm [4, 1, 5, 2, 3]) ∧
    (∃ t' u, partialSort (#[2, 1] : Array Nat) 2 7 = .ok t' ∧
      sort (#[2, 1] : Array Nat) 2 = .ok u ∧ t'.toList.take 2 = u.toList.take 2 ∧
      t'.toList.Perm [2, 1]) :=
  ⟨partialSort_take_eq_sort #[4, 1, 5, 2, 3] 2 (by decide),
    partialSort_take_eq_sort #[2, 1] 7 (by decide)⟩

/-! ### In bounds

For `m = 0` the last position of the heap has wrapped, so the first access is far outside, whatever
the elements are.
-/

/-- A node whose first child is the last position of a heap larger than the array. -/
theorem Sort.siftDown_outOfBounds {k : Nat} (h : t.size ≤ 2 * k + 1) :
    Sort.siftDown t k (2 * k + 1) = .error .outOfBounds := by
  unfold Sort.siftDown
  rw [Sort.siftDownLoop, if_pos (by omega), Nat.mul_comm k 2]
  dsimp only
  rw [read_error (i := 2 * k + 1) (by omega)]
  by_cases hk : k < t.size
  · rw [read_cells t[k] hk]
    rfl
  · rw [read_error hk]
    rfl

/-- For `m = 0` the bound of the heap wraps, and its first node with a child is outside. -/
theorem partialSort_zero (hpos : 0 < t.size) (hsize : t.size < 2 ^ 64) :
    partialSort t t.size 0 = .error .outOfBounds := by
  obtain ⟨k, hk⟩ : ∃ k, pred64 0 = 2 * k + 1 := ⟨2 ^ 63 - 1, rfl⟩
  have hlarge : t.size ≤ 2 * k + 1 := by
    rw [← hk, show pred64 0 = 2 ^ 64 - 1 from rfl]
    omega
  unfold partialSort
  rw [if_neg (by omega), hk, show (2 * k + 1) / 2 = k by omega, heapifyLoop,
    Sort.siftDown_outOfBounds hlarge]
  rfl

/--
**`partial_sort` stays in bounds exactly when there is something to sort.**  On an
array of `t.size` elements it returns, with every access inside, if and only if `m` is
at least 1 or the array is empty.
-/
theorem partialSort_returns_iff (t : Array α) (m : Nat) (hsize : t.size < 2 ^ 64) :
    (∃ t', partialSort t t.size m = .ok t') ↔ 1 ≤ m ∨ t.size = 0 := by
  constructor
  · rintro ⟨t', ht'⟩
    by_contra hc
    have hm : m = 0 := by omega
    rw [hm, partialSort_zero (by omega) hsize] at ht'
    cases ht'
  · intro h
    by_cases hlarge : m ≥ t.size
    · obtain ⟨t', ht', -⟩ := sort_sorts t
      refine ⟨t', ?_⟩
      rw [partialSort, if_pos hlarge]
      exact ht'
    · have hpos : 0 < t.size := by omega
      obtain ⟨t', ht', -⟩ :=
        partialSort_spec t[0] (show 0 < m by omega) (by omega) (Nat.le_refl t.size)
      exact ⟨t', ht'⟩

/-- One element is asked for, or none of none. -/
theorem partialSort_returns_iff_three :
    (∃ t', partialSort (#[5, 3, 9] : Array Nat) 3 1 = .ok t') ∧
    ∃ t', partialSort (#[] : Array Nat) 0 0 = .ok t' :=
  ⟨(partialSort_returns_iff #[5, 3, 9] 1 (by decide)).mpr (Or.inl (Nat.le_refl 1)),
    (partialSort_returns_iff #[] 0 (by decide)).mpr (Or.inr rfl)⟩

/-- No element of three: the first access is at position 2^63 - 1. -/
theorem partialSort_none_outOfBounds :
    ¬ ∀ (t : Array Nat) (m : Nat), t.size < 2 ^ 64 → ∃ t', partialSort t t.size m = .ok t' := by
  intro h
  obtain ⟨t', ht'⟩ := h #[5, 3, 9] 0 (by decide)
  rw [partialSort_zero (by decide) (by decide)] at ht'
  cases ht'

end Ytl.Algorithm
