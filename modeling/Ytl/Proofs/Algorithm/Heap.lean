/-
The heap functions keep a priority queue.

`make_heap` builds the heap from the back, closing one hole for every node that
has children; `push_heap` closes the hole at the new last position, `pop_heap` the
one at the root after the largest value has gone to the end.  A queue that starts
from `make_heap` and is used through `push_heap` and `pop_heap` is a heap after
every operation, loses and invents nothing, and hands out a largest value each
time.
-/
import Mathlib.Algebra.Order.Group.Multiset
import Ytl.Base.Machine
import Ytl.Proofs.Algorithm.Sift

namespace Ytl.Algorithm

variable {α : Type} [LinearOrder α] {t : Array α} {n : Nat}

/-- Every element is at least as large as its children. -/
def IsMaxHeap (t : Array α) : Prop :=
  ∀ (i j : Nat) (hi : i < t.size) (hj : j < t.size), j = 2 * i + 1 ∨ j = 2 * i + 2 → t[j] ≤ t[i]

theorem isMaxHeap_iff (d : α) : IsMaxHeap t ↔ HeapFrom (cells d t) 0 t.size := by
  constructor
  · intro h i j _ hc hj
    have hlt := hc.lt
    rw [cells_eq d hj, cells_eq d (show i < t.size by omega)]
    exact h i j (by omega) hj hc
  · intro h i j hi hj hc
    rw [← cells_eq d hi, ← cells_eq d hj]
    exact h i j (Nat.zero_le _) hc hj

/-! ### What each function does

Each lemma starts from a heap with one hole, or with one node more, and says where the hole is
closed.
-/

theorem makeHeapLoop_spec (d : α) (n : Nat) :
    ∀ (i : Nat) (t : Array α), n ≤ t.size → i ≤ n → HeapFrom (cells d t) i n →
      ∃ t', makeHeapLoop n i t = .ok t' ∧ Moves d 0 n t t' ∧ HeapFrom (cells d t') 0 n := by
  intro i
  induction i with
  | zero =>
      intro t _ _ h
      exact ⟨t, rfl, Moves.refl d 0 n t, h⟩
  | succ i ih =>
      intro t hn hi h
      obtain ⟨u, hu, hmoves, hheap⟩ := siftDown_spec d i hn (show i < n by omega) (Nat.le_refl i)
      obtain ⟨t', ht', hmoves', hheap'⟩ :=
        ih u (by rw [hmoves.size]; exact hn) (by omega) (hheap (SinkHole.of_heap h))
      refine ⟨t', ?_, (hmoves.mono (Nat.zero_le i) (Nat.le_refl n)).trans hmoves', hheap'⟩
      rw [makeHeapLoop, hu, bind_of_ok]
      exact ht'

/-- **`make_heap` makes a heap.** -/
theorem makeHeap_spec (d : α) (hn : n ≤ t.size) :
    ∃ t', makeHeap t n = .ok t' ∧ Moves d 0 n t t' ∧ HeapFrom (cells d t') 0 n :=
  makeHeapLoop_spec d n (n / 2) t hn (Nat.div_le_self n 2) (HeapFrom.of_leaves (by omega))

/-- `make_heap` of a whole array. -/
theorem makeHeap_isMaxHeap (t : Array α) :
    ∃ h, makeHeap t t.size = .ok h ∧ IsMaxHeap h ∧ h.toList.Perm t.toList := by
  by_cases hzero : t.size = 0
  · refine ⟨t, by rw [hzero]; rfl, ?_, List.Perm.refl _⟩
    intro i j hi
    omega
  · have hpos : 0 < t.size := by omega
    obtain ⟨h, hh, hmoves, hheap⟩ := makeHeap_spec t[0] (Nat.le_refl t.size)
    refine ⟨h, hh, ?_, hmoves.perm⟩
    rw [isMaxHeap_iff t[0], hmoves.size]
    exact hheap

/-- **`push_heap` takes in the last element.** -/
theorem pushHeap_spec (d : α) (hn : n + 1 ≤ t.size) (h : HeapFrom (cells d t) 0 n) :
    ∃ t', pushHeap t (n + 1) = .ok t' ∧ Moves d 0 (n + 1) t t' ∧
      HeapFrom (cells d t') 0 (n + 1) := by
  obtain ⟨t', ht', hmoves, hheap⟩ := siftUp_spec d hn (Nat.lt_succ_self n)
  exact ⟨t', ht', hmoves, hheap (RiseHole.of_heap h)⟩

/-- The root changes places with a value behind the heap and sinks. -/
theorem exchange_spec (d : α) {m k : Nat} (hm : 0 < m) (hmk : m ≤ k) (hk : k < t.size)
    (h : HeapFrom (cells d t) 0 m) :
    ∃ u t', swap t 0 k = .ok u ∧ siftDown u 0 m = .ok t' ∧ Moves d 0 (k + 1) t t' ∧
      HeapFrom (cells d t') 0 m ∧ cells d u = cells d t ∘ Equiv.swap 0 k ∧ Moves d 0 m u t' := by
  obtain ⟨u, hu, hmoves, hcells⟩ := swap_moves d 0 (k + 1) 0 k (t := t) (by omega)
    ⟨Nat.le_refl 0, by omega⟩ ⟨Nat.zero_le k, by omega⟩
  obtain ⟨t', ht', hmoves', hheap⟩ :=
    siftDown_spec d 0 (t := u) (n := m) (by rw [hmoves.size]; omega) hm (Nat.le_refl 0)
  refine ⟨u, t', hu, ht', hmoves.trans (hmoves'.mono (Nat.le_refl 0) (by omega)), hheap ?_,
    hcells, hmoves'⟩
  -- only the root has another value
  refine SinkHole.of_root fun i j hi hc hj => ?_
  have hlt := hc.lt
  rw [hcells]
  show cells d t (Equiv.swap 0 k j) ≤ cells d t (Equiv.swap 0 k i)
  rw [Equiv.swap_apply_of_ne_of_ne (by omega) (by omega),
    Equiv.swap_apply_of_ne_of_ne (by omega) (by omega)]
  exact h i j (Nat.zero_le _) hc hj

/-- The largest value goes to position `k`, and the ones before it are a heap again. -/
theorem extract_spec (d : α) {k : Nat} (hk : 0 < k) (hkt : k < t.size)
    (h : HeapFrom (cells d t) 0 (k + 1)) :
    ∃ u t', swap t 0 k = .ok u ∧ siftDown u 0 k = .ok t' ∧ Moves d 0 (k + 1) t t' ∧
      HeapFrom (cells d t') 0 k ∧ cells d t' k = cells d t 0 := by
  obtain ⟨u, t', hu, ht', hmoves, hheap, hcells, hmoves'⟩ :=
    exchange_spec d hk (Nat.le_refl k) hkt (h.mono (Nat.le_refl 0) (Nat.le_succ k))
  refine ⟨u, t', hu, ht', hmoves, hheap, ?_⟩
  rw [hmoves'.cells.outside (Or.inr (Nat.le_refl k)), hcells]
  show cells d t (Equiv.swap 0 k k) = cells d t 0
  rw [Equiv.swap_apply_right]

/-- **`pop_heap` brings the largest element to the end.** -/
theorem popHeap_spec (d : α) (hn : n + 1 ≤ t.size) (h : HeapFrom (cells d t) 0 (n + 1)) :
    ∃ t', popHeap t (n + 1) = .ok t' ∧ Moves d 0 (n + 1) t t' ∧ HeapFrom (cells d t') 0 n ∧
      cells d t' n = cells d t 0 := by
  unfold popHeap
  by_cases hone : n = 0
  · subst hone
    rw [if_pos (Nat.le_refl 1)]
    exact ⟨t, rfl, Moves.refl d 0 1 t, HeapFrom.of_leaves (by omega), rfl⟩
  · rw [if_neg (by omega), Nat.add_sub_cancel]
    obtain ⟨u, t', hu, ht', hrest⟩ := extract_spec d (by omega) hn h
    refine ⟨t', ?_, hrest⟩
    rw [hu, bind_of_ok]
    exact ht'

/-! ### A queue that is used

The array is only one half of the state.  The other is what was pushed and popped so far,
which the statement needs and the code does not have.
-/

/-- An element is pushed, or one is popped. -/
inductive HeapOp (α : Type) where
  | push (x : α)
  | pop

/-- The array, and what has been pushed and popped so far. -/
structure Work (α : Type) where
  heap : Array α
  pushed : List α
  popped : List α

namespace Work

variable {w w' : Work α}

/-- `push_heap` after an append, and removal of the last element after `pop_heap`. -/
def step (w : Work α) : HeapOp α → Except Fault (Work α)
  | .push x => do
      let t ← pushHeap (w.heap.push x) (w.heap.size + 1)
      return ⟨t, w.pushed ++ [x], w.popped⟩
  | .pop => do
      let t ← popHeap w.heap w.heap.size
      let x ← read t (t.size - 1)
      return ⟨t.pop, w.pushed, w.popped ++ [x]⟩

/-- Nothing is popped from an empty array. -/
def admits (w : Work α) : HeapOp α → Prop
  | .push _ => True
  | .pop => 0 < w.heap.size

/-- Queues that begin with any heap. -/
def machine (α : Type) [LinearOrder α] : Machine (Work α) (HeapOp α) Fault where
  start w := IsMaxHeap w.heap
  admits := admits
  step := step

instance (w : Work α) (op : HeapOp α) : Decidable ((machine α).admits w op) :=
  match op with
  | .push _ => inferInstanceAs (Decidable True)
  | .pop => inferInstanceAs (Decidable (0 < w.heap.size))

/-- What one operation does to a queue that began with the elements of `t`. -/
structure Served (t : Array α) (w : Work α) (op : HeapOp α) (w' : Work α) : Prop where
  heap : IsMaxHeap w'.heap
  content : (w'.heap.toList : Multiset α) + w'.popped = (t.toList : Multiset α) + w'.pushed
  largest : op = .pop → ∃ x ∈ w.heap.toList, w'.popped = w.popped ++ [x] ∧
    ∀ y ∈ w.heap.toList, y ≤ x

theorem push_step (h : IsMaxHeap w.heap) (x : α) :
    ∃ u, w.step (.push x) = .ok ⟨u, w.pushed ++ [x], w.popped⟩ ∧ IsMaxHeap u ∧
      u.toList.Perm (w.heap.toList ++ [x]) := by
  have hbefore : HeapFrom (cells x (w.heap.push x)) 0 w.heap.size := by
    refine ((isMaxHeap_iff x).mp h).congr fun i hi => ?_
    simp [cells, Array.getElem?_push, hi, Nat.ne_of_lt hi]
  obtain ⟨u, hu, hmoves, hheap⟩ :=
    pushHeap_spec x (t := w.heap.push x) (n := w.heap.size) (by simp) hbefore
  have hsize : u.size = w.heap.size + 1 := by
    rw [hmoves.size]
    simp
  refine ⟨u, ?_, ?_, ?_⟩
  · rw [step, hu]
    rfl
  · rw [isMaxHeap_iff x, hsize]
    exact hheap
  · simpa using hmoves.perm

theorem pop_step (h : IsMaxHeap w.heap) (hpos : 0 < w.heap.size) :
    ∃ u x, w.step .pop = .ok ⟨u, w.pushed, w.popped ++ [x]⟩ ∧ IsMaxHeap u ∧
      (u.toList ++ [x]).Perm w.heap.toList ∧ ∀ y ∈ w.heap.toList, y ≤ x := by
  obtain ⟨n, hn⟩ := Nat.exists_eq_succ_of_ne_zero (Nat.ne_of_gt hpos)
  have hroot : w.heap[0] = cells w.heap[0] w.heap 0 := (cells_eq _ hpos).symm
  have hheap := (isMaxHeap_iff w.heap[0]).mp h
  rw [hn] at hheap
  obtain ⟨t', ht', hmoves, hheap', hlast⟩ :=
    popHeap_spec w.heap[0] (n := n) (by omega) hheap
  have hsize : t'.size = n + 1 := by rw [hmoves.size, hn]
  have hread : read t' (t'.size - 1) = .ok w.heap[0] := by
    rw [hsize, Nat.add_sub_cancel, read_cells w.heap[0] (by omega), hlast, ← hroot]
  refine ⟨t'.pop, w.heap[0], ?_, ?_, ?_, ?_⟩
  · rw [step, hn, ht', bind_of_ok, hread]
    rfl
  · rw [isMaxHeap_iff w.heap[0], Array.size_pop, hsize, Nat.add_sub_cancel]
    refine hheap'.congr fun i hi => ?_
    have hlt : i < t'.pop.size := by
      rw [Array.size_pop]
      omega
    rw [cells_eq _ hlt, cells_eq _ (show i < t'.size by omega), Array.getElem_pop]
  · -- the last element is the one that was read
    have hsplit : t'.toList = t'.pop.toList ++ [w.heap[0]] := by
      have hback : t'.toList.getLast? = some w.heap[0] := by
        have hcell : cells w.heap[0] t' n = w.heap[0] := by rw [hlast, ← hroot]
        rw [cells_eq _ (show n < t'.size by omega)] at hcell
        rw [List.getLast?_eq_getElem?]
        simp [hsize, hcell]
      obtain ⟨l, hl⟩ := List.getLast?_eq_some_iff.mp hback
      rw [Array.toList_pop, hl]
      simp
    rw [← hsplit]
    exact hmoves.perm
  · intro y hy
    obtain ⟨i, hi, rfl⟩ := List.mem_iff_getElem.mp hy
    have hi' : i < w.heap.size := by simpa using hi
    have hle := HeapFrom.root_max hheap i (by omega)
    rw [cells_eq _ hi', ← hroot] at hle
    simpa using hle

/-- The invariant: a heap that accounts for everything. -/
def Accounts (t : Array α) (w : Work α) : Prop :=
  IsMaxHeap w.heap ∧ (w.heap.toList : Multiset α) + w.popped = (t.toList : Multiset α) + w.pushed

theorem step_served {t : Array α} (h : Accounts t w) (op : HeapOp α) (ha : w.admits op) :
    ∃ w', w.step op = .ok w' ∧ Served t w op w' ∧ Accounts t w' := by
  obtain ⟨hheap, hcontent⟩ := h
  cases op with
  | push x =>
      obtain ⟨u, hu, hheap', hperm⟩ := push_step hheap x
      have hcontent' : (u.toList : Multiset α) + w.popped =
          (t.toList : Multiset α) + (w.pushed ++ [x] : List α) := by
        have hu' : (u.toList : Multiset α) = (w.heap.toList : Multiset α) + ([x] : List α) := by
          rw [Multiset.coe_add]
          exact Multiset.coe_eq_coe.mpr hperm
        rw [hu', ← Multiset.coe_add, ← add_assoc, ← hcontent, add_right_comm]
      exact ⟨_, hu, ⟨hheap', hcontent', nofun⟩, hheap', hcontent'⟩
  | pop =>
      obtain ⟨u, x, hu, hheap', hperm, hmax⟩ := pop_step hheap ha
      have hcontent' : (u.toList : Multiset α) + (w.popped ++ [x] : List α) =
          (t.toList : Multiset α) + w.pushed := by
        have hw : (w.heap.toList : Multiset α) = (u.toList : Multiset α) + ([x] : List α) := by
          rw [Multiset.coe_add]
          exact (Multiset.coe_eq_coe.mpr hperm).symm
        rw [← hcontent, hw, ← Multiset.coe_add, add_right_comm, ← add_assoc]
      refine ⟨_, hu, ⟨hheap', hcontent', fun _ => ⟨x, ?_, rfl, hmax⟩⟩, hheap', hcontent'⟩
      exact hperm.subset (by simp)

end Work

/--
**A priority queue.**  Started from `make_heap` of any array and used by pushing and
popping in any order, the array is a max-heap after every operation, holds what was
there at the start and was pushed except what was popped, and every popped element is
a largest one of those that were there.
-/
theorem heap_priority_queue (t : Array α) :
    ∃ h, makeHeap t t.size = .ok h ∧ IsMaxHeap h ∧ h.toList.Perm t.toList ∧
      ∀ ops, (Work.machine α).Admitted ⟨h, [], []⟩ ops →
        (Work.machine α).Always (Work.Served t) ⟨h, [], []⟩ ops := by
  obtain ⟨h, hh, hheap, hperm⟩ := makeHeap_isMaxHeap t
  refine ⟨h, hh, hheap, hperm, fun ops hadm => ?_⟩
  refine Machine.always_of_invariant (m := Work.machine α) (I := Work.Accounts t)
    (fun _ op hI ha => Work.step_served hI op ha) ops _ ⟨hheap, ?_⟩ hadm
  simpa using hperm

/-- Three elements, one more is pushed, and two are popped. -/
theorem heap_priority_queue_used :
    ∃ h, makeHeap #[1, 3, 2] 3 = .ok h ∧
      (Work.machine Nat).Admitted ⟨h, [], []⟩ [.push 5, .pop, .pop] ∧
      (Work.machine Nat).Always (Work.Served #[1, 3, 2]) ⟨h, [], []⟩ [.push 5, .pop, .pop] := by
  obtain ⟨h, hh, -, -, hrun⟩ := heap_priority_queue (#[1, 3, 2] : Array Nat)
  have hvalue : h = #[3, 1, 2] := of_decide_eq_true (of_checkResult
    (P := fun h : Array Nat => decide (h = #[3, 1, 2])) (by decide +kernel) hh)
  have hadm : (Work.machine Nat).Admitted ⟨h, [], []⟩ [.push 5, .pop, .pop] := by
    rw [hvalue]
    exact (Machine.meets_of_check (m := Work.machine Nat) (C := fun _ _ => True) _ _
      (by decide +kernel)).1
  exact ⟨h, hh, hadm, hrun _ hadm⟩

end Ytl.Algorithm
