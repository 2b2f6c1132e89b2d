/-
Walks down an implicit binary tree.

The nodes are the positions 1 to `n`; the root is 1, and the children of `k` are `2 * k`
and `2 * k + 1`, as far as they are nodes.  A walk that turns left or right at each node
is at a subtree; the nodes outside it are to the left or to the right of it.  That is also
said of places that are not nodes: the subtree is empty then, and a gap between nodes.

Where a walk last turned left can be read off the place it has come to: one step to the
left from `p` and `j` to the right lead to `2 ^ j * (2 * p + 1) - 1`, which has `2 * p` in
its upper bits and `j` ones below them.  With `p = 0` that is the place after `j` steps to
the right from above the root.
-/
import Mathlib.Algebra.Order.Ring.Int
import Mathlib.Data.List.Basic
import Mathlib.Algebra.Group.Nat.Even
import Mathlib.Logic.Relation
import Mathlib.Tactic.Ring

namespace Ytl.Eytzinger

variable {n k p i j : Nat} {go : Nat → Bool}

/-! ### The order of the nodes

From left to right, the nodes of a subtree are those of its left half, its root, and those of
its right half.  The recursion ends because a child is larger than its parent.
-/

/-- The nodes of the subtree of `k`, from left to right. -/
def inorder (n k : Nat) : List Nat :=
  if 0 < k ∧ k ≤ n then inorder n (2 * k) ++ k :: inorder n (2 * k + 1) else []
termination_by n + 1 - k

theorem inorder_node (hpos : 0 < k) (hle : k ≤ n) :
    inorder n k = inorder n (2 * k) ++ k :: inorder n (2 * k + 1) := by
  rw [inorder, if_pos ⟨hpos, hle⟩]

theorem inorder_empty (h : n < k) : inorder n k = [] := by
  rw [inorder, if_neg]
  omega

theorem self_mem_inorder (hpos : 0 < k) (hle : k ≤ n) : k ∈ inorder n k := by
  rw [inorder_node hpos hle]
  exact List.mem_append_right _ List.mem_cons_self

theorem of_mem_inorder : ∀ (k : Nat), i ∈ inorder n k → 0 < i ∧ i ≤ n := by
  intro k
  induction k using inorder.induct n with
  | case1 k hk ihl ihr =>
      intro h
      rw [inorder_node hk.1 hk.2] at h
      rcases List.mem_append.mp h with hl | hr
      · exact ihl hl
      · rcases List.mem_cons.mp hr with rfl | hr
        · exact hk
        · exact ihr hr
  | case2 k hk =>
      intro h
      rw [inorder, if_neg hk] at h
      exact absurd h List.not_mem_nil

/-! ### The two sides of a place

Both are found on the way down: a step to the right puts the node and its left half on the
left side, and a step to the left does the same for the other side.  Together with the subtree
they are all the nodes, in order.
-/

/-- The nodes to the left of place `k`, from left to right. -/
def leftOf (n k : Nat) : List Nat :=
  if k ≤ 1 then []
  else if k % 2 = 1 ∧ k / 2 ≤ n then leftOf n (k / 2) ++ inorder n (2 * (k / 2)) ++ [k / 2]
  else leftOf n (k / 2)
termination_by k

/-- The nodes to the right of place `k`, from left to right. -/
def rightOf (n k : Nat) : List Nat :=
  if k ≤ 1 then []
  else if k % 2 = 0 ∧ k / 2 ≤ n then k / 2 :: inorder n (2 * (k / 2) + 1) ++ rightOf n (k / 2)
  else rightOf n (k / 2)
termination_by k

@[simp] theorem leftOf_one (n : Nat) : leftOf n 1 = [] := by
  rw [leftOf, if_pos (Nat.le_refl 1)]

@[simp] theorem rightOf_one (n : Nat) : rightOf n 1 = [] := by
  rw [rightOf, if_pos (Nat.le_refl 1)]

theorem leftOf_left (hpos : 0 < k) : leftOf n (2 * k) = leftOf n k := by
  rw [leftOf, if_neg (by omega), if_neg (by omega), show 2 * k / 2 = k by omega]

theorem leftOf_right (hpos : 0 < k) (hle : k ≤ n) :
    leftOf n (2 * k + 1) = leftOf n k ++ inorder n (2 * k) ++ [k] := by
  rw [leftOf, if_neg (by omega), if_pos (by omega), show (2 * k + 1) / 2 = k by omega]

theorem rightOf_left (hpos : 0 < k) (hle : k ≤ n) :
    rightOf n (2 * k) = k :: inorder n (2 * k + 1) ++ rightOf n k := by
  rw [rightOf, if_neg (by omega), if_pos (by omega), show 2 * k / 2 = k by omega]

theorem rightOf_right (hpos : 0 < k) : rightOf n (2 * k + 1) = rightOf n k := by
  rw [rightOf, if_neg (by omega), if_neg (by omega), show (2 * k + 1) / 2 = k by omega]

/-- Below a gap there is the same gap. -/
theorem sides_below (hgap : n < k) (hpos : 0 < k) (b : Bool) :
    leftOf n (2 * k + b.toNat) = leftOf n k ∧ rightOf n (2 * k + b.toNat) = rightOf n k := by
  cases b with
  | false =>
      refine ⟨leftOf_left hpos, ?_⟩
      rw [Bool.toNat_false, Nat.add_zero, rightOf, if_neg (by omega), if_neg (by omega),
        show 2 * k / 2 = k by omega]
  | true =>
      refine ⟨?_, rightOf_right hpos⟩
      rw [Bool.toNat_true, leftOf, if_neg (by omega), if_neg (by omega),
        show (2 * k + 1) / 2 = k by omega]

/-- **Every node is in the subtree of a place, or on one side of it.** -/
theorem inorder_split (hpos : 0 < k) :
    inorder n 1 = leftOf n k ++ inorder n k ++ rightOf n k := by
  induction k using Nat.strong_induction_on with
  | _ k ih =>
      by_cases hroot : k = 1
      · subst hroot
        simp
      · obtain ⟨p, b, hp, rfl⟩ : ∃ p, ∃ b : Bool, 0 < p ∧ k = 2 * p + b.toNat := by
          rcases Nat.even_or_odd' k with ⟨p, rfl | rfl⟩
          · exact ⟨p, false, by omega, rfl⟩
          · exact ⟨p, true, by omega, rfl⟩
        rw [ih p (by omega) hp]
        by_cases hle : p ≤ n
        · rw [inorder_node hp hle]
          cases b with
          | false =>
              rw [show 2 * p + false.toNat = 2 * p from rfl, leftOf_left hp, rightOf_left hp hle]
              simp
          | true =>
              rw [Bool.toNat_true, leftOf_right hp hle, rightOf_right hp]
              simp
        · obtain ⟨hl, hr⟩ := sides_below (Nat.lt_of_not_le hle) hp b
          rw [hl, hr, inorder_empty (by omega), inorder_empty (by omega)]

/-- The nodes are the positions from 1 to `n`. -/
theorem mem_inorder : i ∈ inorder n 1 ↔ 0 < i ∧ i ≤ n := by
  constructor
  · exact of_mem_inorder 1
  · rintro ⟨hpos, hle⟩
    rw [inorder_split hpos]
    exact List.mem_append_left _ (List.mem_append_right _ (self_mem_inorder hpos hle))

/-! ### Walking

The condition on a step is the one of the code: it looks at a node only while the node may
have two children.  A walk that follows `go` has no choice, so it has one end.
-/

/-- One step of a walk that goes to the right where `go` says so, as long as there are two
children to choose from. -/
def Down (n : Nat) (go : Nat → Bool) (i k : Nat) : Prop :=
  i ≤ n / 2 ∧ k = 2 * i + (go i).toNat

/-- The places that a walk from the root passes. -/
def Passes (n : Nat) (go : Nat → Bool) (k : Nat) : Prop := Relation.ReflTransGen (Down n go) 1 k

/-- A walk has one place to end at. -/
theorem Passes.unique (h : Passes n go i) (h' : Passes n go k) (hi : n / 2 < i) (hk : n / 2 < k) :
    i = k := by
  have hdet : Relator.RightUnique (Down n go) := by
    rintro a b c ⟨-, rfl⟩ ⟨-, rfl⟩
    rfl
  have hstop : ∀ {a b : Nat}, n / 2 < a → Relation.ReflTransGen (Down n go) a b → a = b := by
    intro a b ha hab
    rcases Relation.ReflTransGen.cases_head hab with heq | ⟨c, hc, -⟩
    · exact heq
    · exact absurd hc.1 (by omega)
  rcases Relation.ReflTransGen.total_of_right_unique hdet h h' with hik | hki
  · exact hstop hi hik
  · exact (hstop hk hki).symm

theorem Passes.pos (h : Passes n go k) : 0 < k := by
  induction h with
  | refl => exact Nat.one_pos
  | tail _ hstep ih =>
      rw [hstep.2]
      omega

theorem Passes.le (h : Passes n go k) : k ≤ n + 1 := by
  cases h with
  | refl => omega
  | tail _ hstep =>
      have hle := hstep.1
      have hbool := Bool.toNat_le (go ‹Nat›)
      rw [hstep.2]
      omega

/-! ### The turn to the left

The code does not remember where it last turned left.  It recovers that from the place it has
come to, by counting the ones at the end of its number; these are the steps to the right
since.
-/

/-- Place `k` is one step to the left of `p` and `j` to the right of that. -/
def Spine (p j k : Nat) : Prop := k + 1 = 2 ^ j * (2 * p + 1)

theorem Spine.left (p : Nat) : Spine p 0 (2 * p) := by
  unfold Spine
  rw [pow_zero, one_mul]

theorem Spine.right (h : Spine p j k) : Spine p (j + 1) (2 * k + 1) := by
  unfold Spine at h ⊢
  rw [pow_succ, show 2 * k + 1 + 1 = (k + 1) * 2 by ring, h]
  ring

/-- The upper bits of the place. -/
theorem Spine.shift (h : Spine p j k) : k >>> j = 2 * p := by
  have hpos : 0 < 2 ^ j := Nat.two_pow_pos j
  have hk : k = 2 ^ j - 1 + 2 ^ j * (2 * p) := by
    unfold Spine at h
    rw [Nat.mul_add, Nat.mul_one] at h
    omega
  rw [Nat.shiftRight_eq_div_pow, hk, Nat.add_mul_div_left _ _ hpos,
    Nat.div_eq_of_lt (by omega), Nat.zero_add]

theorem Spine.pred (h : Spine p (j + 1) k) : ∃ i, k = 2 * i + 1 ∧ Spine p j i := by
  have hpos : 0 < 2 ^ j * (2 * p + 1) := Nat.mul_pos (Nat.two_pow_pos j) (Nat.succ_pos _)
  unfold Spine at h
  rw [pow_succ, Nat.mul_right_comm] at h
  refine ⟨2 ^ j * (2 * p + 1) - 1, by omega, ?_⟩
  unfold Spine
  omega

/-- The steps to the right are the ones at the end. -/
theorem Spine.testBit :
    ∀ {j k i : Nat}, Spine p j k → i ≤ j → k.testBit i = decide (i < j) := by
  intro j
  induction j with
  | zero =>
      intro k i h hi
      have hk : k = 2 * p := by
        unfold Spine at h
        omega
      rw [Nat.le_zero.mp hi, hk]
      simp
  | succ j ih =>
      intro k i h hi
      obtain ⟨k', rfl, h'⟩ := h.pred
      cases i with
      | zero => simp
      | succ i =>
          rw [Nat.testBit_succ, show (2 * k' + 1) / 2 = k' by omega, ih h' (by omega)]
          simp

/-- Every place is on the spine of one node, or to the right of the root. -/
theorem Spine.exists (k : Nat) : ∃ p j, Spine p j k := by
  induction k using Nat.strong_induction_on with
  | _ k ih =>
      rcases Nat.even_or_odd' k with ⟨i, rfl | rfl⟩
      · exact ⟨i, 0, Spine.left i⟩
      · obtain ⟨p, j, h⟩ := ih i (by omega)
        exact ⟨p, j + 1, h.right⟩

theorem Spine.steps_unique {q j' : Nat} (h : Spine p j k) (h' : Spine q j' k) : j = j' := by
  rcases Nat.lt_trichotomy j j' with hlt | heq | hlt
  · have hbit := h.testBit (Nat.le_refl j)
    rw [h'.testBit (Nat.le_of_lt hlt)] at hbit
    simp [hlt] at hbit
  · exact heq
  · have hbit := h'.testBit (Nat.le_refl j')
    rw [h.testBit (Nat.le_of_lt hlt)] at hbit
    simp [hlt] at hbit

theorem Spine.lt_of_lt {j' k' : Nat} (h : Spine p j k) (h' : Spine p j' k') (hj : j < j') :
    2 * (k + 1) ≤ k' + 1 := by
  have hpow : 2 ^ (j + 1) ≤ 2 ^ j' := Nat.pow_le_pow_right (by omega) hj
  have hmul := Nat.mul_le_mul_right (2 * p + 1) hpow
  rw [pow_succ, Nat.mul_right_comm] at hmul
  unfold Spine at h h'
  omega

/-- Two places as far from `p` as each other up to a factor below 2 are the same. -/
theorem Spine.unique {j' k' : Nat} (h : Spine p j k) (h' : Spine p j' k')
    (hlow : k + 1 < 2 * (k' + 1)) (hhigh : k' + 1 < 2 * (k + 1)) : j = j' ∧ k = k' := by
  rcases Nat.lt_trichotomy j j' with hlt | rfl | hlt
  · have := h.lt_of_lt h' hlt
    omega
  · refine ⟨rfl, ?_⟩
    unfold Spine at h h'
    omega
  · have := h'.lt_of_lt h hlt
    omega

/-! ### What a walk knows in an ordered tree

If the nodes that send a walk to the right come first, every step keeps each node outside the
subtree on the side it belongs to.  At the end the subtree is empty, and the first node to the
right of the gap is the first one that does not send a walk to the right.
-/

/-- The walk has come to `k`: the nodes outside the subtree are `l` to the left of it and
`r` to the right, each on the side it belongs to, and the first one to the right is where
the walk last turned left. -/
structure At (n : Nat) (go : Nat → Bool) (k : Nat) (l r : List Nat) : Prop where
  split : inorder n 1 = l ++ inorder n k ++ r
  left : ∀ i ∈ l, go i = true
  right : ∀ i ∈ r, go i = false
  turn : ∃ j, Spine (r.headD 0) j k
  child : 0 < r.headD 0 → 2 * r.headD 0 ≤ n → 2 * r.headD 0 ∈ l ++ inorder n k

/-- The nodes that send a walk to the right come before those that do not. -/
def Ordered (n : Nat) (go : Nat → Bool) : Prop :=
  (inorder n 1).Pairwise fun i k => go k = true → go i = true

variable {l r : List Nat}

theorem At.root (n : Nat) (go : Nat → Bool) : At n go 1 [] [] := by
  refine ⟨by simp, fun i hi => absurd hi List.not_mem_nil, fun i hi => absurd hi List.not_mem_nil,
    ⟨1, rfl⟩, fun hpos => absurd hpos (Nat.lt_irrefl 0)⟩

/-- **One step.** -/
theorem At.step (hord : Ordered n go) (h : At n go k (leftOf n k) (rightOf n k)) (hpos : 0 < k)
    (hle : k ≤ n) : At n go (2 * k + (go k).toNat) (leftOf n (2 * k + (go k).toNat))
      (rightOf n (2 * k + (go k).toNat)) := by
  have hsplit := h.split
  rw [inorder_node hpos hle] at hsplit
  obtain ⟨j, hturn⟩ := h.turn
  -- the order of the nodes around `k`
  have hpair := hord
  unfold Ordered at hpair
  rw [hsplit, List.append_assoc, List.append_assoc, List.cons_append] at hpair
  have hsub := (List.pairwise_append.mp hpair).2.1
  have hsides := inorder_split (n := n) (show 0 < 2 * k + (go k).toNat by omega)
  cases hgo : go k with
  | true =>
      rw [hgo] at hsides
      rw [Bool.toNat_true, leftOf_right hpos hle, rightOf_right hpos] at hsides ⊢
      refine ⟨hsides, ?_, h.right, ⟨j + 1, hturn.right⟩, ?_⟩
      · intro i hi
        rcases List.mem_append.mp hi with hi | hi
        · rcases List.mem_append.mp hi with hi | hi
          · exact h.left i hi
          · exact (List.pairwise_append.mp hsub).2.2 i hi k List.mem_cons_self hgo
        · rw [List.mem_singleton.mp hi]
          exact hgo
      · intro hp hn
        have hchild := h.child hp hn
        rw [inorder_node hpos hle] at hchild
        simpa using hchild
  | false =>
      rw [hgo] at hsides
      rw [show 2 * k + false.toNat = 2 * k from rfl, leftOf_left hpos, rightOf_left hpos hle]
        at hsides ⊢
      refine ⟨hsides, h.left, ?_, ⟨0, Spine.left k⟩, ?_⟩
      · intro i hi
        rcases List.mem_cons.mp (List.cons_append ▸ hi) with rfl | hi
        · exact hgo
        · have hafter := (List.pairwise_cons.mp (List.pairwise_append.mp hsub).2.1).1 i hi
          by_contra hc
          rw [hafter (Bool.eq_true_of_not_eq_false hc)] at hgo
          cases hgo
      · intro _ hn
        exact List.mem_append_right _ (self_mem_inorder (by omega) hn)

/-- Wherever a walk passes, the nodes on both sides are on the side they belong to. -/
theorem At.of_passes (hord : Ordered n go) (h : Passes n go k) :
    At n go k (leftOf n k) (rightOf n k) := by
  induction h with
  | refl =>
      rw [leftOf_one, rightOf_one]
      exact At.root n go
  | @tail i k hi hstep ih =>
      have hle := hstep.1
      rw [hstep.2]
      exact ih.step hord (Passes.pos hi) (by omega)

/-- The first node that does not send a walk to the right. -/
def firstLeft (n : Nat) (go : Nat → Bool) : Option Nat := (inorder n 1).find? fun i => !go i

/-- Below the leaves, the last turn to the left was there. -/
theorem At.firstLeft_eq (h : At n go k l r) (hout : n < k) : firstLeft n go = r.head? := by
  unfold firstLeft
  rw [h.split, inorder_empty hout, List.append_nil, List.find?_append]
  have hnone : l.find? (fun i => !go i) = none := by
    rw [List.find?_eq_none]
    intro i hi
    simp [h.left i hi]
  rw [hnone, Option.none_or]
  cases r with
  | nil => rfl
  | cons i r =>
      rw [List.find?_cons_of_pos, List.head?_cons]
      simp [h.right i List.mem_cons_self]

end Ytl.Eytzinger
