/-
What `lower_bound` knows on its way down.

At the test of its loop, and after the last step, the search stands at a place of the tree:
at a node, or at a gap.  The keys on the left of that place are all below `x`, and none of
those on the right is (`Decided`).  This is the walk alone, before any of its steps are
taken off again.  An array has fewer than 2^63 elements, and so no step wraps.
-/
import Ytl.Proofs.Algorithm.Search

namespace Ytl.Algorithm

open Eytzinger

/-! ### Rounds of the loop

The loop is taken as a relation between the places at its tests, because the statement is
about all of them and not only about the last one.
-/

section Rounds

variable {α : Type} {t : Array α} {n k k' : Nat} {right : α → Bool}

/-- One round of the loop of a search. -/
def Round (t : Array α) (n : Nat) (right : α → Bool) (k k' : Nat) : Prop :=
  k ≤ n / 2 ∧ ∃ a, read t k = .ok a ∧ k' = child64 k (right a)

/-- The loop is at its test with `k`, after any number of rounds. -/
def Iteration (t : Array α) (n : Nat) (right : α → Bool) (k : Nat) : Prop :=
  Relation.ReflTransGen (Round t n right) 1 k

/-- What the loop returns is the place of its last test. -/
theorem iteration_of_walkLoop : ∀ (fuel k : Nat), Iteration t n right k →
    walkLoop t n right fuel k = .ok k' → Iteration t n right k' ∧ n / 2 < k' := by
  intro fuel
  induction fuel with
  | zero =>
      intro k _ h
      cases h
  | succ fuel ih =>
      intro k hk h
      rw [walkLoop] at h
      by_cases hmore : k ≤ n / 2
      · rw [if_pos hmore] at h
        obtain ⟨a, ha, hrest⟩ := bind_returns.mp h
        exact ih _ (hk.tail ⟨hmore, a, ha, rfl⟩) hrest
      · rw [if_neg hmore] at h
        rw [← Except.ok.inj h]
        exact ⟨hk, by omega⟩

/-- The places at the tests of the loop are those a walk passes. -/
theorem passes_of_iteration (hsize : 0 < n → n < t.size) (hlt : t.size < 2 ^ 63)
    (h : Iteration t n right k) : Passes n (turns t right) k := by
  induction h with
  | refl => exact Relation.ReflTransGen.refl
  | @tail k k' _ hround ih =>
      have hpos := ih.pos
      obtain ⟨hmore, a, ha, hk'⟩ := hround
      obtain ⟨b, hb, -, hturn⟩ := read_turns right (show k < t.size by omega)
      rw [Except.ok.inj (hb.symm.trans ha)] at hturn
      refine ih.tail ⟨hmore, ?_⟩
      rw [hk', child64_eq (by omega), hturn]

end Rounds

/-! ### The keys on both sides

A node that sends the walk to the right has a key below `x`, and by the order of the keys so
has everything to its left.
-/

variable {α : Type} [LinearOrder α] {t : Array α} {n k : Nat} {s : List α} {x : α}

/-- Every key that precedes place `k` is below `x`, and every key that follows it is not. -/
structure Decided (t : Array α) (n : Nat) (x : α) (k : Nat) : Prop where
  precede : ∀ i ∈ leftOf n k, ∃ a, t[i]? = some a ∧ a < x
  follow : ∀ i ∈ rightOf n k, ∃ a, t[i]? = some a ∧ x ≤ a

namespace Laid

theorem exists_cell (h : Laid t n s) {i : Nat} (hi : i ∈ inorder n 1) : ∃ a, t[i]? = some a := by
  have hmem : t[i]? ∈ (inorder n 1).map (t[·]?) := List.mem_map_of_mem hi
  rw [h.cells] at hmem
  obtain ⟨a, -, ha⟩ := List.mem_map.mp hmem
  exact ⟨a, ha.symm⟩

theorem lt_size (h : Laid t n s) (hn : 0 < n) : n < t.size := by
  obtain ⟨a, ha⟩ := h.exists_cell (mem_inorder.mpr ⟨hn, Nat.le_refl n⟩)
  by_contra hout
  rw [Array.getElem?_eq_none (Nat.le_of_not_lt hout)] at ha
  cases ha

/-- What the walk knows of the nodes it knows of their keys. -/
theorem decided (h : Laid t n s) (hat : At n (below t x) k (leftOf n k) (rightOf n k)) :
    Decided t n x k := by
  have hside : ∀ i, i ∈ leftOf n k ∨ i ∈ rightOf n k → ∃ a, t[i]? = some a ∧
      below t x i = decide (a < x) := by
    intro i hi
    have hnode : i ∈ inorder n 1 := by
      rw [hat.split, List.append_assoc]
      rcases hi with hl | hr
      · exact List.mem_append_left _ hl
      · exact List.mem_append_right _ (List.mem_append_right _ hr)
    obtain ⟨a, ha⟩ := h.exists_cell hnode
    refine ⟨a, ha, ?_⟩
    unfold below turns
    rw [ha, Option.any_some]
  constructor
  · intro i hi
    obtain ⟨a, ha, hbelow⟩ := hside i (Or.inl hi)
    rw [hat.left i hi] at hbelow
    exact ⟨a, ha, of_decide_eq_true hbelow.symm⟩
  · intro i hi
    obtain ⟨a, ha, hbelow⟩ := hside i (Or.inr hi)
    rw [hat.right i hi] at hbelow
    exact ⟨a, ha, not_lt.mp (of_decide_eq_false hbelow.symm)⟩

end Laid

/-- Below a gap, the same keys are on both sides. -/
theorem Decided.below_gap (h : Decided t n x k) (hgap : n < k) (b : Bool) :
    Decided t n x (2 * k + b.toNat) := by
  obtain ⟨hl, hr⟩ := sides_below hgap (by omega) b
  refine ⟨?_, ?_⟩
  · rw [hl]
    exact h.precede
  · rw [hr]
    exact h.follow

/--
**The descent of `lower_bound`.**  Let a sorted list be stored in the cells 1 to `n`.  Whenever
the loop comes to its test, the place `k` splits the tree in order, every key that precedes it
is below `x`, and every key that follows it is at least `x`.  The loop ends with
`n / 2 < k ≤ n + 1`, and the same is true of the place after the last step.
-/
theorem lowerBound_descent (t : Array α) (n : Nat) (s : List α) (x : α) (h : Laid t n s)
    (hlt : t.size < 2 ^ 63) :
    (∀ k, Iteration t n (· < x) k →
      inorder n 1 = leftOf n k ++ inorder n k ++ rightOf n k ∧ Decided t n x k) ∧
    ∃ k, walkLoop t n (· < x) (n + 1) 1 = .ok k ∧ Iteration t n (· < x) k ∧
      n / 2 < k ∧ k ≤ n + 1 ∧
      ∃ k', walk t n (· < x) = .ok k' ∧ k' = 2 * k + (decide (k ≤ n) && below t x k).toNat ∧
        inorder n 1 = leftOf n k' ++ inorder n k' ++ rightOf n k' ∧ Decided t n x k' := by
  have hord := below_ordered h x
  have hat : ∀ k, Iteration t n (· < x) k → Passes n (below t x) k :=
    fun k hk => passes_of_iteration h.lt_size hlt hk
  refine ⟨fun k hk => ⟨inorder_split (hat k hk).pos, h.decided (At.of_passes hord (hat k hk))⟩, ?_⟩
  obtain ⟨k, hk, hpass, hlow⟩ := walkLoop_spec (· < x) h.lt_size hlt (n + 1) 1
    Relation.ReflTransGen.refl (by omega)
  have hlast := walk_of_walkLoop h.lt_size hlt hpass hk
  refine ⟨k, hk, (iteration_of_walkLoop _ _ Relation.ReflTransGen.refl hk).1, hlow, hpass.le, _,
    hlast, rfl, inorder_split (by have := hpass.pos; omega), ?_⟩
  have hat' := At.of_passes hord hpass
  by_cases hin : k ≤ n
  · rw [decide_eq_true hin, Bool.true_and]
    exact h.decided (hat'.step hord hpass.pos hin)
  · rw [decide_eq_false hin, Bool.false_and]
    exact (h.decided hat').below_gap (Nat.lt_of_not_le hin) false

/-- Three elements. -/
theorem lowerBound_descent_three :
    ∃ k, walkLoop (#[0, 2, 1, 3] : Array Nat) 3 (· < 2) 4 1 = .ok k ∧ 1 < k ∧ k ≤ 4 := by
  obtain ⟨-, k, hk, -, hlow, hhigh, -⟩ := lowerBound_descent (#[0, 2, 1, 3] : Array Nat) 3
    [1, 2, 3] 2 stored_three.toLaid (by decide)
  exact ⟨k, hk, hlow, hhigh⟩

end Ytl.Algorithm
