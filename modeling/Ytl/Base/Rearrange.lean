/-
Rearranging part of a sequence.

A sequence is a function on positions.  `Rearranged lo hi f f'` says that `f'` has
the values of `f`, permuted among the positions from `lo` up to `hi` and with
everything else in its place.  Swaps are rearrangements, rearrangements compose,
and what holds of every value of a range holds of every value of it afterwards.

An ascending list is determined by its values; where they fall into two parts with
nothing in the first above anything in the second, so does the list.
-/
import Mathlib.Data.List.Sort
import Mathlib.Logic.Equiv.Basic
import Mathlib.Order.Lattice
import Mathlib.Tactic.Common

namespace Ytl

/-- The values between `lo` and `hi` have changed places among themselves. -/
def Rearranged {α : Type} (lo hi : Nat) (f f' : Nat → α) : Prop :=
  ∃ σ : Equiv.Perm Nat, f' = f ∘ σ ∧ ∀ i, (i < lo ∨ hi ≤ i) → σ i = i

namespace Rearranged

variable {α : Type} {lo hi : Nat} {f f' f'' : Nat → α}

theorem refl (lo hi : Nat) (f : Nat → α) : Rearranged lo hi f f :=
  ⟨Equiv.refl Nat, rfl, fun _ _ => rfl⟩

theorem trans (h : Rearranged lo hi f f') (h' : Rearranged lo hi f' f'') :
    Rearranged lo hi f f'' := by
  obtain ⟨σ, rfl, hσ⟩ := h
  obtain ⟨τ, rfl, hτ⟩ := h'
  refine ⟨τ.trans σ, rfl, fun i hi => ?_⟩
  show σ (τ i) = i
  rw [hτ i hi, hσ i hi]

/-- A rearrangement of a part is one of the whole. -/
theorem mono {lo' hi' : Nat} (h : Rearranged lo hi f f') (hlo : lo' ≤ lo) (hhi : hi ≤ hi') :
    Rearranged lo' hi' f f' := by
  obtain ⟨σ, hf, hσ⟩ := h
  refine ⟨σ, hf, fun i hi => hσ i ?_⟩
  omega

theorem swap {i j : Nat} (h₁ : lo ≤ i ∧ i < hi) (h₂ : lo ≤ j ∧ j < hi) :
    Rearranged lo hi f (f ∘ Equiv.swap i j) := by
  refine ⟨Equiv.swap i j, rfl, fun k hk => ?_⟩
  exact Equiv.swap_apply_of_ne_of_ne (by omega) (by omega)

theorem outside (h : Rearranged lo hi f f') {i : Nat} (hi : i < lo ∨ hi ≤ i) : f' i = f i := by
  obtain ⟨σ, rfl, hσ⟩ := h
  show f (σ i) = f i
  rw [hσ i hi]

/-- A value in the range was in the range before. -/
theorem inside (h : Rearranged lo hi f f') {i : Nat} (hlo : lo ≤ i) (hhi : i < hi) :
    ∃ k, lo ≤ k ∧ k < hi ∧ f' i = f k := by
  obtain ⟨σ, rfl, hσ⟩ := h
  refine ⟨σ i, ?_, ?_, rfl⟩
  · by_contra hc
    have hfix := σ.injective (hσ (σ i) (Or.inl (by omega)))
    omega
  · by_contra hc
    have hfix := σ.injective (hσ (σ i) (Or.inr (by omega)))
    omega

/-- What holds of every value of the range still does. -/
theorem forall_inside {P : α → Prop} (h : Rearranged lo hi f f')
    (hP : ∀ i, lo ≤ i → i < hi → P (f i)) : ∀ i, lo ≤ i → i < hi → P (f' i) := by
  intro i hlo hhi
  obtain ⟨k, hk, hk', heq⟩ := h.inside hlo hhi
  rw [heq]
  exact hP k hk hk'

end Rearranged

/-! ### Ascending ranges

A range may be put together from two that ascend, if the first has nothing above the second.
That is what a sort by dividing needs, and it needs no more of the two parts than this.
-/

/-- The values from `lo` up to `hi` ascend. -/
def Ascending {α : Type} [LE α] (f : Nat → α) (lo hi : Nat) : Prop :=
  ∀ i j, lo ≤ i → i ≤ j → j < hi → f i ≤ f j

namespace Ascending

variable {α : Type} [LinearOrder α] {f f' : Nat → α} {lo mid hi : Nat}

theorem of_short (h : hi ≤ lo + 1) : Ascending f lo hi := by
  intro i j hi' hij hj
  have heq : i = j := by omega
  rw [heq]

theorem congr (h : Ascending f lo hi) (heq : ∀ i, lo ≤ i → i < hi → f' i = f i) :
    Ascending f' lo hi := by
  intro i j hi' hij hj
  rw [heq i hi' (by omega), heq j (by omega) hj]
  exact h i j hi' hij hj

/-- Two ascending ranges with nothing on the left above anything on the right. -/
theorem join (mid : Nat) (hl : Ascending f lo mid) (hr : Ascending f mid hi)
    (hle : ∀ i j, lo ≤ i → i < mid → mid ≤ j → j < hi → f i ≤ f j) : Ascending f lo hi := by
  intro i j hi' hij hj
  by_cases hjm : j < mid
  · exact hl i j hi' hij hjm
  · by_cases him : i < mid
    · exact hle i j hi' him (by omega) hj
    · exact hr i j (by omega) hij hj

end Ascending

/-! ### Borders

A border is a position that a sorted sequence need not move anything across.  The two parts on
its sides may be rearranged on their own, and a value that splits a part makes two borders.
-/

/-- Of the first `n` values, none in front of `k` is above one from `k` on. -/
def Separated {α : Type} [LE α] (f : Nat → α) (k n : Nat) : Prop :=
  ∀ a b, a < k → k ≤ b → b < n → f a ≤ f b

namespace Separated

variable {α : Type} [LinearOrder α] {f f' : Nat → α} {k n lo hi : Nat}

theorem zero (f : Nat → α) (n : Nat) : Separated f 0 n := nofun

theorem all (f : Nat → α) (n : Nat) : Separated f n n := by
  intro a b _ hb hbn
  omega

/-- A border stays one when values move on one side of it only. -/
theorem rearranged (h : Separated f k n) (hmoves : Rearranged lo hi f f') (hhi : hi ≤ n)
    (hside : k ≤ lo ∨ hi ≤ k) : Separated f' k n := by
  intro a b ha hb hbn
  rcases hside with hk | hk
  · rw [hmoves.outside (i := a) (Or.inl (by omega))]
    by_cases hin : lo ≤ b ∧ b < hi
    · obtain ⟨j, hj, hj', heq⟩ := hmoves.inside hin.1 hin.2
      rw [heq]
      exact h a j ha (by omega) (by omega)
    · rw [hmoves.outside (i := b) (by omega)]
      exact h a b ha hb hbn
  · rw [hmoves.outside (i := b) (Or.inr (by omega))]
    by_cases hin : lo ≤ a ∧ a < hi
    · obtain ⟨j, hj, hj', heq⟩ := hmoves.inside hin.1 hin.2
      rw [heq]
      exact h j b (by omega) hb hbn
    · rw [hmoves.outside (i := a) (by omega)]
      exact h a b ha hb hbn

/-- Between two borders, a value that splits what is there has a border on both sides. -/
theorem of_pivot {p : Nat} (hl : Separated f lo n) (hr : Separated f hi n) (hp : lo ≤ p)
    (hlow : ∀ i, lo ≤ i → i < p → f i ≤ f p) (hhigh : ∀ i, p < i → i < hi → f p ≤ f i)
    (hphi : p < hi) : Separated f p n ∧ Separated f (p + 1) n := by
  -- everything in front of the pivot is below it, everything behind it above
  have hfront : p < n → ∀ a, a < p → f a ≤ f p := by
    intro hpn a ha
    by_cases hal : a < lo
    · exact hl a p hal hp hpn
    · exact hlow a (by omega) ha
  have hback : ∀ b, p < b → b < n → f p ≤ f b := by
    intro b hb hbn
    by_cases hbh : b < hi
    · exact hhigh b hb hbh
    · exact hr p b hphi (by omega) hbn
  refine ⟨fun a b ha hb hbn => ?_, fun a b ha hb hbn => ?_⟩
  · by_cases hbp : b = p
    · rw [hbp]
      exact hfront (by omega) a ha
    · exact (hfront (by omega) a ha).trans (hback b (by omega) hbn)
  · by_cases hap : a = p
    · rw [hap]
      exact hback b (by omega) hbn
    · exact (hfront (by omega) a (by omega)).trans (hback b (by omega) hbn)

end Separated

/-! ### Ascending lists

Sorting is not a matter of how it is done: an ascending list with given values is the one that
Mathlib's sort gives.
-/

/-- An ascending list of values in two parts is the two parts in ascending order. -/
theorem ascending_append_of_perm {α : Type} [LinearOrder α] {s front rest : List α}
    (hs : s.Pairwise (· ≤ ·)) (hperm : s.Perm (front ++ rest))
    (hle : ∀ x ∈ front, ∀ y ∈ rest, x ≤ y) :
    s = front.insertionSort (· ≤ ·) ++ rest.insertionSort (· ≤ ·) := by
  have hsorted : (front.insertionSort (· ≤ ·) ++ rest.insertionSort (· ≤ ·)).Pairwise
      (· ≤ ·) := by
    rw [List.pairwise_append]
    refine ⟨List.pairwise_insertionSort _ _, List.pairwise_insertionSort _ _, ?_⟩
    intro x hx y hy
    rw [List.mem_insertionSort] at hx hy
    exact hle x hx y hy
  have hperm' : (front.insertionSort (· ≤ ·) ++ rest.insertionSort (· ≤ ·)).Perm (front ++ rest) :=
    (List.perm_insertionSort _ front).append (List.perm_insertionSort _ rest)
  exact (hperm.trans hperm'.symm).eq_of_pairwise (fun _ _ _ _ => le_antisymm) hs hsorted

end Ytl
