/-
Sifting restores the heap order.

An array is looked at as the function `cells d t` of its positions; the default
value `d` stands for what lies outside and never matters.  Each loop lemma says
that the loop returns, moves values only where it may, and closes the hole in the
heap order it was started at.

The loops are used by functions that call them with different bounds, and on heaps of which
only a part is in order.  So the lemmas have the bounds as parameters, and the hole instead of
a heap.
-/
import Ytl.Algorithm.Heap
import Ytl.Base.HeapOrder
import Ytl.Base.Rearrange

namespace Ytl.Algorithm

/-! ### Arrays as functions

A swap of two cells is a swap of two positions of the function, and permutes the values of any
range that has both.
-/

section Cells

variable {α : Type} {t t' t'' : Array α} {d : α} {lo hi i j : Nat}

/-- The values of an array by position. -/
def cells (d : α) (t : Array α) (i : Nat) : α := t.getD i d

theorem cells_eq (d : α) (h : i < t.size) : cells d t i = t[i] := by
  simp [cells, h]

theorem read_cells (d : α) (h : i < t.size) : read t i = .ok (cells d t i) := by
  simp [read, cells, h]

theorem read_error (h : ¬ i < t.size) : read t i = .error .outOfBounds := by
  unfold read
  rw [Array.getElem?_eq_none (Nat.le_of_not_lt h)]

/-- The values between `lo` and `hi` have changed places among themselves. -/
structure Moves (d : α) (lo hi : Nat) (t t' : Array α) : Prop where
  size : t'.size = t.size
  perm : t'.toList.Perm t.toList
  cells : Rearranged lo hi (cells d t) (cells d t')

namespace Moves

theorem refl (d : α) (lo hi : Nat) (t : Array α) : Moves d lo hi t t :=
  ⟨rfl, List.Perm.refl _, Rearranged.refl lo hi _⟩

theorem trans (h : Moves d lo hi t t') (h' : Moves d lo hi t' t'') : Moves d lo hi t t'' :=
  ⟨h'.size.trans h.size, h'.perm.trans h.perm, h.cells.trans h'.cells⟩

theorem mono {lo' hi' : Nat} (h : Moves d lo hi t t') (hlo : lo' ≤ lo) (hhi : hi ≤ hi') :
    Moves d lo' hi' t t' := ⟨h.size, h.perm, h.cells.mono hlo hhi⟩

/-- What moves only in front of `hi` leaves the rest of the list. -/
theorem drop_eq (h : Moves d 0 hi t t') : t'.toList.drop hi = t.toList.drop hi := by
  apply List.ext_getElem
  · simp [h.size]
  · intro i hi' hi''
    have hlt : hi + i < t.size := by
      rw [List.length_drop, Array.length_toList] at hi''
      omega
    have hcell := h.cells.outside (i := hi + i) (Or.inr (Nat.le_add_right hi i))
    rw [cells_eq d hlt, cells_eq d (show hi + i < t'.size by rw [h.size]; exact hlt)] at hcell
    simpa using hcell

theorem take_perm (h : Moves d 0 hi t t') : (t'.toList.take hi).Perm (t.toList.take hi) := by
  have hperm := h.perm
  rw [← List.take_append_drop hi t'.toList, ← List.take_append_drop hi t.toList,
    h.drop_eq] at hperm
  exact (List.perm_append_right_iff _).mp hperm

end Moves

theorem swap_cells (d : α) (h₁ : i < t.size) (h₂ : j < t.size) :
    ∃ t', swap t i j = .ok t' ∧ t'.size = t.size ∧ t'.toList.Perm t.toList ∧
      cells d t' = cells d t ∘ Equiv.swap i j := by
  refine ⟨t.swap i j h₁ h₂, dif_pos ⟨h₁, h₂⟩, by simp, (Array.swap_perm h₁ h₂).toList, ?_⟩
  funext k
  show cells d (t.swap i j h₁ h₂) k = cells d t (Equiv.swap i j k)
  by_cases hki : k = i
  · subst hki
    rw [Equiv.swap_apply_left]
    simp [cells, h₁, h₂]
  · by_cases hkj : k = j
    · subst hkj
      rw [Equiv.swap_apply_right]
      simp [cells, h₁, h₂]
    · rw [Equiv.swap_apply_of_ne_of_ne hki hkj]
      have hi' : ¬ i = k := fun hc => hki hc.symm
      have hj' : ¬ j = k := fun hc => hkj hc.symm
      simp [cells, Array.getElem?_swap, hi', hj']

/-- A swap inside a range. -/
theorem swap_moves (d : α) (lo hi i j : Nat) (hhi : hi ≤ t.size) (h₁ : lo ≤ i ∧ i < hi)
    (h₂ : lo ≤ j ∧ j < hi) :
    ∃ t', swap t i j = .ok t' ∧ Moves d lo hi t t' ∧
      cells d t' = cells d t ∘ Equiv.swap i j := by
  obtain ⟨t', ht', hsize, hperm, hcells⟩ :=
    swap_cells d (t := t) (i := i) (j := j) (by omega) (by omega)
  refine ⟨t', ht', ⟨hsize, hperm, ?_⟩, hcells⟩
  rw [hcells]
  exact Rearranged.swap h₁ h₂

end Cells

variable {α : Type} [LinearOrder α] {t : Array α} {d : α} {lo n pos : Nat}

/-! ### Upwards

The loop stops when the parent is not smaller, or at the root.
-/

/-- **`sift_up` closes the hole.** -/
theorem siftUpLoop_spec (d : α) (n : Nat) :
    ∀ (fuel : Nat) (t : Array α) (pos : Nat), n ≤ t.size → pos < n → pos ≤ fuel →
      ∃ t', siftUpLoop fuel t pos = .ok t' ∧ Moves d 0 n t t' ∧
        (RiseHole (cells d t) n pos → HeapFrom (cells d t') 0 n) := by
  -- at the root there is no parent to compare with
  have hroot : ∀ t : Array α, RiseHole (cells d t) n 0 → HeapFrom (cells d t) 0 n := by
    intro t h
    refine h.done fun i hi => ?_
    have hlt := hi.lt
    omega
  intro fuel
  induction fuel with
  | zero =>
      intro t pos _ _ hle
      have hzero : pos = 0 := by omega
      subst hzero
      exact ⟨t, rfl, Moves.refl d 0 n t, hroot t⟩
  | succ fuel ih =>
      intro t pos hn hpos hle
      rw [siftUpLoop]
      by_cases hzero : 0 < pos
      · have hchild : IsChild ((pos - 1) / 2) pos := isChild_parent hzero
        have hlt := hchild.lt
        rw [if_pos hzero]
        dsimp only
        rw [read_cells d (show (pos - 1) / 2 < t.size by omega), bind_of_ok,
          read_cells d (show pos < t.size by omega), bind_of_ok]
        by_cases hge : cells d t pos ≤ cells d t ((pos - 1) / 2)
        · rw [if_pos hge]
          refine ⟨t, rfl, Moves.refl d 0 n t, fun h => h.done fun i hi => ?_⟩
          rw [hi.unique hchild]
          exact hge
        · rw [if_neg hge]
          obtain ⟨u, hu, hmoves, hcells⟩ := swap_moves d 0 n ((pos - 1) / 2) pos
            hn ⟨by omega, by omega⟩ ⟨by omega, hpos⟩
          rw [hu, bind_of_ok]
          obtain ⟨t', ht', hmoves', hheap⟩ :=
            ih u ((pos - 1) / 2) (by rw [hmoves.size]; exact hn) (by omega) (by omega)
          refine ⟨t', ht', hmoves.trans hmoves', fun h => hheap ?_⟩
          rw [hcells]
          exact h.rise hchild hpos (not_le.mp hge)
      · rw [if_neg hzero]
        have hpos0 : pos = 0 := by omega
        subst hpos0
        exact ⟨t, rfl, Moves.refl d 0 n t, hroot t⟩

theorem siftUp_spec (d : α) (hn : n ≤ t.size) (hpos : pos < n) :
    ∃ t', siftUp t pos = .ok t' ∧ Moves d 0 n t t' ∧
      (RiseHole (cells d t) n pos → HeapFrom (cells d t') 0 n) :=
  siftUpLoop_spec d n pos t pos hn hpos (Nat.le_refl _)

/-! ### Downwards

The loop stops when no child is larger, or where there are none.
-/

theorem larger_spec (d : α) (m child : Nat) (hn : n ≤ t.size) (hm : m < t.size) :
    ∃ r, larger t n m child = .ok r ∧ cells d t m ≤ cells d t r ∧
      (child < n → cells d t child ≤ cells d t r) ∧
      (r = m ∨ r = child ∧ child < n ∧ cells d t m < cells d t child) := by
  unfold larger
  by_cases hchild : child < n
  · rw [if_pos hchild, read_cells d (show child < t.size by omega), bind_of_ok, read_cells d hm,
      bind_of_ok]
    by_cases hgt : cells d t child > cells d t m
    · rw [if_pos hgt]
      exact ⟨child, rfl, hgt.le, fun _ => le_refl _, Or.inr ⟨rfl, hchild, hgt⟩⟩
    · rw [if_neg hgt]
      exact ⟨m, rfl, le_refl _, fun _ => not_lt.mp hgt, Or.inl rfl⟩
  · rw [if_neg hchild]
    exact ⟨m, rfl, le_refl _, fun hc => absurd hc hchild, Or.inl rfl⟩

/-- The two tests find the node itself or its larger child. -/
theorem larger_both (d : α) (hn : n ≤ t.size) (hpos : pos < n) :
    ∃ m₁ m, larger t n pos (2 * pos + 1) = .ok m₁ ∧ larger t n m₁ (2 * pos + 2) = .ok m ∧
      (∀ j, IsChild pos j → j < n → cells d t j ≤ cells d t m) ∧
      (m = pos ∨ IsChild pos m ∧ m < n ∧ cells d t pos < cells d t m) := by
  obtain ⟨m₁, hm₁, hge₁, hleft, hor₁⟩ := larger_spec d pos (2 * pos + 1) hn (by omega)
  have hlt₁ : m₁ < t.size := by omega
  obtain ⟨m, hm, hge, hright, hor⟩ := larger_spec d m₁ (2 * pos + 2) hn hlt₁
  refine ⟨m₁, m, hm₁, hm, ?_, ?_⟩
  · intro j hj hjn
    rcases hj with rfl | rfl
    · exact (hleft hjn).trans hge
    · exact hright hjn
  · rcases hor with rfl | ⟨rfl, hlt, hgt⟩
    · rcases hor₁ with rfl | ⟨rfl, hlt, hgt⟩
      · exact Or.inl rfl
      · exact Or.inr ⟨Or.inl rfl, hlt, hgt⟩
    · exact Or.inr ⟨Or.inr rfl, hlt, hge₁.trans_lt hgt⟩

/-- **`sift_down` closes the hole.** -/
theorem siftDownLoop_spec (d : α) (lo n : Nat) :
    ∀ (fuel : Nat) (t : Array α) (pos : Nat), n ≤ t.size → pos < n → n ≤ fuel + pos → lo ≤ pos →
      ∃ t', siftDownLoop fuel t pos n = .ok t' ∧ Moves d lo n t t' ∧
        (SinkHole (cells d t) lo n pos → HeapFrom (cells d t') lo n) := by
  intro fuel
  induction fuel with
  | zero =>
      intro t pos _ hpos hle _
      omega
  | succ fuel ih =>
      intro t pos hn hpos hle hlo
      obtain ⟨m₁, m, hm₁, hm, hmax, hor⟩ := larger_both d hn hpos
      rw [siftDownLoop, hm₁, bind_of_ok, hm, bind_of_ok]
      by_cases hmp : m = pos
      · rw [if_pos hmp]
        refine ⟨t, rfl, Moves.refl d lo n t, fun h => h.done ?_⟩
        rw [← hmp]
        exact fun j hj hjn => hmax j (hmp ▸ hj) hjn
      · rw [if_neg hmp]
        obtain ⟨hchild, hmn, hlt⟩ := hor.resolve_left hmp
        have hpm := hchild.lt
        obtain ⟨u, hu, hmoves, hcells⟩ := swap_moves d lo n pos m
          hn ⟨hlo, hpos⟩ ⟨by omega, hmn⟩
        rw [hu, bind_of_ok]
        obtain ⟨t', ht', hmoves', hheap⟩ :=
          ih u m (by rw [hmoves.size]; exact hn) hmn (by omega) (by omega)
        refine ⟨t', ht', hmoves.trans hmoves', fun h => hheap ?_⟩
        rw [hcells]
        exact h.sink hlo hchild hmn hlt hmax

theorem siftDown_spec (d : α) (lo : Nat) (hn : n ≤ t.size) (hpos : pos < n) (hlo : lo ≤ pos) :
    ∃ t', siftDown t pos n = .ok t' ∧ Moves d lo n t t' ∧
      (SinkHole (cells d t) lo n pos → HeapFrom (cells d t') lo n) :=
  siftDownLoop_spec d lo n (n + 1) t pos hn hpos (by omega) hlo

end Ytl.Algorithm
