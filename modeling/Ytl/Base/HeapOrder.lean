/-
Heaps, and heaps with one node out of place.

The nodes are the positions below a bound, and the children of `i` are `2i + 1` and `2i + 2`.
Restoring the order moves one value along a path: downwards it is below what it should be
above (`SinkHole`), upwards it is above what it should be below (`RiseHole`).  Both say that
the order holds except at that one node and that the node's parent is above the node's
children, which is what makes a swap on the path keep the rest in order.

A swap of positions is the function composed with `Equiv.swap`.

The order is any linear order, and values may be equal.  Nothing is said of where a loop
stops: `done` is for a loop that finds the value in place, and a loop that runs off the end of
the path finds it there too, because there are no children left to compare it with.
-/
import Mathlib.Logic.Equiv.Basic
import Mathlib.Order.Lattice
import Mathlib.Tactic.Common

namespace Ytl

/-- Position `j` is a child of position `i`. -/
def IsChild (i j : Nat) : Prop := j = 2 * i + 1 ∨ j = 2 * i + 2

theorem IsChild.lt {i j : Nat} (h : IsChild i j) : i < j := by
  unfold IsChild at h
  omega

theorem IsChild.unique {i i' j : Nat} (h : IsChild i j) (h' : IsChild i' j) : i = i' := by
  unfold IsChild at h h'
  omega

theorem isChild_parent {j : Nat} (h : 0 < j) : IsChild ((j - 1) / 2) j := by
  unfold IsChild
  omega

section

variable {α : Type} [LinearOrder α]

/-- Every node from `lo` on is at least as large as its children below `n`. -/
def HeapFrom (f : Nat → α) (lo n : Nat) : Prop :=
  ∀ i j, lo ≤ i → IsChild i j → j < n → f j ≤ f i

/-- A heap, except that node `pos` may be smaller than its children. -/
structure SinkHole (f : Nat → α) (lo n pos : Nat) : Prop where
  order : ∀ i j, lo ≤ i → i ≠ pos → IsChild i j → j < n → f j ≤ f i
  across : ∀ i j, lo ≤ i → IsChild i pos → IsChild pos j → j < n → f j ≤ f i

/-- A heap, except that node `pos` may be larger than its parent. -/
structure RiseHole (f : Nat → α) (n pos : Nat) : Prop where
  order : ∀ i j, j ≠ pos → IsChild i j → j < n → f j ≤ f i
  across : ∀ i j, IsChild i pos → IsChild pos j → j < n → f j ≤ f i

variable {f : Nat → α} {lo n pos : Nat}

/-- The root of a heap is a largest value. -/
theorem HeapFrom.root_max (h : HeapFrom f 0 n) : ∀ j, j < n → f j ≤ f 0 := by
  intro j
  induction j using Nat.strong_induction_on with
  | _ j ih =>
      intro hj
      by_cases hzero : j = 0
      · rw [hzero]
      · have hchild : IsChild ((j - 1) / 2) j := isChild_parent (by omega)
        have hlt := hchild.lt
        exact (h _ j (Nat.zero_le _) hchild hj).trans (ih _ hlt (by omega))

theorem HeapFrom.mono {lo' n' : Nat} (h : HeapFrom f lo n) (hlo : lo ≤ lo') (hn : n' ≤ n) :
    HeapFrom f lo' n' :=
  fun i j hi hc hj => h i j (hlo.trans hi) hc (Nat.lt_of_lt_of_le hj hn)

theorem HeapFrom.congr {f' : Nat → α} (h : HeapFrom f lo n) (heq : ∀ i, i < n → f' i = f i) :
    HeapFrom f' lo n := by
  intro i j hi hc hj
  have hlt := hc.lt
  rw [heq i (by omega), heq j hj]
  exact h i j hi hc hj

/-- Positions from the middle on have no children. -/
theorem HeapFrom.of_leaves (h : n ≤ 2 * lo + 1) : HeapFrom f lo n := by
  intro i j hi hc hj
  unfold IsChild at hc
  omega

/-! ### Downwards

The value goes to the place of the larger child, so the child that moves up is above its
sibling and above everything that was below it.  Its new parent is above it too, because that
is what a hole says of a node's parent and its children.
-/

/-- One more node in front of a heap is out of place at most itself. -/
theorem SinkHole.of_heap (h : HeapFrom f (pos + 1) n) : SinkHole f pos n pos := by
  refine ⟨fun i j hi hne hc hj => h i j (by omega) hc hj, fun i j hi hc _ _ => ?_⟩
  have hlt := hc.lt
  omega

/-- A root that was replaced. -/
theorem SinkHole.of_root (h : ∀ i j, 0 < i → IsChild i j → j < n → f j ≤ f i) :
    SinkHole f 0 n 0 := by
  refine ⟨fun i j _ hne hc hj => h i j (by omega) hc hj, fun i j _ hc _ _ => ?_⟩
  have hlt := hc.lt
  omega

theorem SinkHole.done (h : SinkHole f lo n pos)
    (hpos : ∀ j, IsChild pos j → j < n → f j ≤ f pos) : HeapFrom f lo n := by
  intro i j hi hc hj
  by_cases hip : i = pos
  · rw [hip] at hc ⊢
    exact hpos j hc hj
  · exact h.order i j hi hip hc hj

/-- The value goes down to the place of the larger child. -/
theorem SinkHole.sink (h : SinkHole f lo n pos) (hlo : lo ≤ pos) {m : Nat}
    (hm : IsChild pos m) (hmn : m < n) (hlt : f pos < f m)
    (hmax : ∀ j, IsChild pos j → j < n → f j ≤ f m) :
    SinkHole (f ∘ Equiv.swap pos m) lo n m := by
  have hpm := hm.lt
  have hat : ∀ k, k ≠ pos → k ≠ m → (f ∘ Equiv.swap pos m) k = f k := by
    intro k hk hk'
    show f (Equiv.swap pos m k) = f k
    rw [Equiv.swap_apply_of_ne_of_ne hk hk']
  have hatpos : (f ∘ Equiv.swap pos m) pos = f m := by
    show f (Equiv.swap pos m pos) = f m
    rw [Equiv.swap_apply_left]
  have hatm : (f ∘ Equiv.swap pos m) m = f pos := by
    show f (Equiv.swap pos m m) = f pos
    rw [Equiv.swap_apply_right]
  refine ⟨?_, ?_⟩
  · intro i j hi hne hc hj
    have hij := hc.lt
    by_cases hip : i = pos
    · -- the new parent of both children is the larger of them
      subst hip
      rw [hatpos]
      by_cases hjm : j = m
      · rw [hjm, hatm]
        exact hlt.le
      · rw [hat j (by omega) hjm]
        exact hmax j hc hj
    · rw [hat i hip hne]
      by_cases hjp : j = pos
      · subst hjp
        rw [hatpos]
        exact h.across i m hi hc hm hmn
      · by_cases hjm : j = m
        · exact absurd ((hjm ▸ hc).unique hm) hip
        · rw [hat j hjp hjm]
          exact h.order i j hi hip hc hj
  · intro i j hi hc hc' hj
    have hip : i = pos := hc.unique hm
    subst hip
    have hmj := hc'.lt
    rw [hatpos, hat j (by omega) (by omega)]
    exact h.order m j (by omega) (by omega) hc' hj

/-! ### Upwards

The value goes to the place of its parent, and the parent down to where the value was.  The
parent was above the sibling already, so only the pair further up is left to compare.
-/

/-- One more node behind a heap is out of place at most itself. -/
theorem RiseHole.of_heap (h : HeapFrom f 0 pos) : RiseHole f (pos + 1) pos := by
  refine ⟨fun i j hne hc hj => h i j (Nat.zero_le _) hc (by omega), fun i j _ hc' hj => ?_⟩
  have hlt := hc'.lt
  omega

theorem RiseHole.done (h : RiseHole f n pos) (hpos : ∀ i, IsChild i pos → f pos ≤ f i) :
    HeapFrom f 0 n := by
  intro i j _ hc hj
  by_cases hjp : j = pos
  · rw [hjp] at hc ⊢
    exact hpos i hc
  · exact h.order i j hjp hc hj

/-- The value goes up to the place of its parent. -/
theorem RiseHole.rise (h : RiseHole f n pos) {p : Nat} (hp : IsChild p pos) (hpn : pos < n)
    (hlt : f p < f pos) : RiseHole (f ∘ Equiv.swap p pos) n p := by
  have hpp := hp.lt
  have hat : ∀ k, k ≠ p → k ≠ pos → (f ∘ Equiv.swap p pos) k = f k := by
    intro k hk hk'
    show f (Equiv.swap p pos k) = f k
    rw [Equiv.swap_apply_of_ne_of_ne hk hk']
  have hatp : (f ∘ Equiv.swap p pos) p = f pos := by
    show f (Equiv.swap p pos p) = f pos
    rw [Equiv.swap_apply_left]
  have hatpos : (f ∘ Equiv.swap p pos) pos = f p := by
    show f (Equiv.swap p pos pos) = f p
    rw [Equiv.swap_apply_right]
  refine ⟨?_, ?_⟩
  · intro i j hne hc hj
    by_cases hjpos : j = pos
    · have hip : i = p := (hjpos ▸ hc).unique hp
      rw [hjpos, hip, hatp, hatpos]
      exact hlt.le
    · rw [hat j hne hjpos]
      by_cases hip : i = p
      · -- the sibling was below the old parent
        rw [hip] at hc ⊢
        rw [hatp]
        exact (h.order p j hjpos hc hj).trans hlt.le
      · by_cases hipos : i = pos
        · rw [hipos] at hc ⊢
          rw [hatpos]
          exact h.across p j hp hc hj
        · rw [hat i hip hipos]
          exact h.order i j hjpos hc hj
  · intro i j hc hc' hj
    have hip := hc.lt
    have hpj := hc'.lt
    rw [hat i (by omega) (by omega)]
    have hgrand : f p ≤ f i := h.order i p (by omega) hc (by omega)
    by_cases hjpos : j = pos
    · rw [hjpos, hatpos]
      exact hgrand
    · rw [hat j (by omega) hjpos]
      exact (h.order p j hjpos hc' hj).trans hgrand

end

end Ytl
