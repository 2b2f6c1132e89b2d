/-
What the searches find.

The walk is right: it ends below a leaf, or at the free place next to the last node, and
the bits of the place where it ends say where it last turned left, which is the answer.
But `strip` takes off the ones only and leaves the zero of that turn, so what is read is
not the node of the last turn but its left child, twice as far down.  `lowerBound` goes
to `t[n - 1]` when there is no such child; the other two read past the array.

Everything is about one number, the place where the walk ends, and which bits of it are taken
off.  So the results are stated for the walk's own last turn to the left, and each of them
says in terms of nodes of the tree when the bits that are left lead there.  `__builtin_ctz`
has no result for 0; whatever it may be is part of the statements.
-/
import Mathlib.Order.Bounds.Basic
import Ytl.Algorithm.Search
import Ytl.Base.Eytzinger
import Ytl.Proofs.Algorithm.Sift

namespace Ytl.Algorithm

open Eytzinger

/-! ### `strip`

`__builtin_ctz` of the complement counts the ones at the end, as long as there are fewer than 32.
-/

section Strip

variable {p j k z : Nat}

theorem strip_bit (k : Nat) {i : Nat} (hi : i < 32) :
    ((~~~BitVec.ofNat 64 k).setWidth 32).getLsbD i = !k.testBit i := by
  rw [BitVec.getLsbD_setWidth, BitVec.getLsbD_not, BitVec.getLsbD_ofNat]
  simp [hi, show i < 64 by omega]

/-- `strip` leaves the step to the left. -/
theorem strip_spine (h : Spine p j k) (hj : j < 32) : strip z k = 2 * p := by
  have hctz : ctz z ((~~~BitVec.ofNat 64 k).setWidth 32) = j := by
    unfold ctz
    rw [List.find?_range_eq_some.mpr, Option.getD_some]
    refine ⟨?_, List.mem_range.mpr hj, fun i hi => ?_⟩
    · rw [strip_bit k hj, h.testBit (Nat.le_refl j)]
      simp
    · rw [strip_bit k (by omega), h.testBit (Nat.le_of_lt hi)]
      simp [hi]
  unfold strip
  rw [hctz, h.shift]

/-- With ones only in what `__builtin_ctz` sees, anything may be taken off. -/
theorem strip_undefined (h : Spine p j k) (hj : 32 ≤ j) : strip z k = k >>> z := by
  have hctz : ctz z ((~~~BitVec.ofNat 64 k).setWidth 32) = z := by
    unfold ctz
    rw [List.find?_range_eq_none.mpr, Option.getD_none]
    intro i hi
    rw [strip_bit k hi, h.testBit (by omega)]
    simp [show i < j by omega]
  unfold strip
  rw [hctz]

/-- A node with its right child at the end of the walk has no left child to speak of. -/
theorem spine_short {n : Nat} (h : Spine p j k) (hleaf : n ≤ 2 * p) (hk : k ≤ 2 * n + 1) :
    j < 32 := by
  by_contra hj
  have hfar := (Spine.left p).right.lt_of_lt h (show 0 + 1 < j by omega)
  omega

theorem exists_strip (h : Spine p j k) : ∃ z, strip z k = 2 * p := by
  by_cases hj : j < 32
  · exact ⟨0, strip_spine h hj⟩
  · exact ⟨j, by rw [strip_undefined h (by omega), h.shift]⟩

theorem strip_even (k : Nat) : strip z (2 * k) = 2 * k := strip_spine (Spine.left k) (by omega)

end Strip

/-! ### The walk

The loop runs while a node may have two children, and one more step follows it.
-/

section Walk

variable {α : Type} {t : Array α} {n k : Nat}

/-- The test at each node. -/
def turns (t : Array α) (right : α → Bool) (i : Nat) : Bool := t[i]?.any right

theorem read_ok {a : α} {i : Nat} : read t i = .ok a ↔ t[i]? = some a := by
  unfold read
  cases t[i]? with
  | none => simp
  | some b => simp

theorem read_turns (right : α → Bool) (hk : k < t.size) :
    ∃ a, read t k = .ok a ∧ t[k]? = some a ∧ right a = turns t right k := by
  have hcell : t[k]? = some t[k] := Array.getElem?_eq_getElem hk
  exact ⟨t[k], read_ok.mpr hcell, hcell, by simp [turns, hcell]⟩

theorem read_end (hsize : t.size = n + 1) {i : Nat} (hi : n < i) :
    read t i = .error .outOfBounds := read_error (by omega)

theorem child64_eq (hk : k < 2 ^ 63) (b : Bool) : child64 k b = 2 * k + b.toNat := by
  have hb := Bool.toNat_le b
  exact Nat.mod_eq_of_lt (by omega)

theorem walkLoop_spec (right : α → Bool) (hsize : 0 < n → n < t.size) (hlt : t.size < 2 ^ 63) :
    ∀ (fuel k : Nat), Passes n (turns t right) k → n + 1 < fuel + k →
      ∃ k', walkLoop t n right fuel k = .ok k' ∧ Passes n (turns t right) k' ∧ n / 2 < k' := by
  intro fuel
  induction fuel with
  | zero =>
      intro k hk hfuel
      have hle := hk.le
      omega
  | succ fuel ih =>
      intro k hk hfuel
      have hpos := hk.pos
      rw [walkLoop]
      by_cases hmore : k ≤ n / 2
      · obtain ⟨a, ha, -, hturn⟩ := read_turns right (show k < t.size by omega)
        rw [if_pos hmore, ha, bind_of_ok, hturn, child64_eq (by omega)]
        exact ih _ (hk.tail ⟨hmore, rfl⟩) (by omega)
      · rw [if_neg hmore]
        exact ⟨k, rfl, hk, by omega⟩

/-- The step after the loop. -/
theorem walk_of_walkLoop {right : α → Bool} (hsize : 0 < n → n < t.size) (hlt : t.size < 2 ^ 63)
    (hpass : Passes n (turns t right) k) (hk : walkLoop t n right (n + 1) 1 = .ok k) :
    walk t n right = .ok (2 * k + (decide (k ≤ n) && turns t right k).toNat) := by
  have hle := hpass.le
  have hpos := hpass.pos
  unfold walk
  rw [hk, bind_of_ok]
  by_cases hin : k ≤ n
  · obtain ⟨a, ha, -, hturn⟩ := read_turns right (show k < t.size by omega)
    rw [if_pos hin, ha, bind_of_ok, hturn, child64_eq (by omega), pure_is_ok]
    simp [hin]
  · rw [if_neg hin, child64_eq (by omega), pure_is_ok]
    simp [hin]

/-- The walk ends at a leaf, which is asked too, or at the place after the last node. -/
theorem walk_spec (right : α → Bool) (hsize : 0 < n → n < t.size) (hlt : t.size < 2 ^ 63) :
    ∃ k, Passes n (turns t right) k ∧ n / 2 < k ∧
      walk t n right = .ok (2 * k + (decide (k ≤ n) && turns t right k).toNat) := by
  obtain ⟨k, hk, hpass, hlow⟩ := walkLoop_spec right hsize hlt (n + 1) 1
    Relation.ReflTransGen.refl (by omega)
  exact ⟨k, hpass, hlow, walk_of_walkLoop hsize hlt hpass hk⟩

/-- Where a walk ends in an ordered tree, with the node `p` of its last turn to the left. -/
inductive Ends (n : Nat) (go : Nat → Bool) (p : Nat) : Nat → Prop
  | leaf {k j : Nat} (spine : Spine p j k) (low : n < 2 * (k / 2)) (high : k / 2 ≤ n)
      (child : 0 < p → 2 * p ≤ n → 2 * p ∈ inorder n 1 ∧ go (2 * p) = true) : Ends n go p k
  | free {j : Nat} (spine : Spine p j (n + 1)) : Ends n go p (2 * (n + 1))

theorem walk_ends (right : α → Bool) (hsize : t.size = n + 1) (hlt : t.size < 2 ^ 63)
    (hord : Ordered n (turns t right)) :
    ∃ k, walk t n right = .ok k ∧
      Ends n (turns t right) ((firstLeft n (turns t right)).getD 0) k := by
  have hcells : 0 < n → n < t.size := fun _ => by omega
  obtain ⟨k, hpass, hlow, hk⟩ := walk_spec right hcells hlt
  have hat := At.of_passes hord hpass
  by_cases hin : k ≤ n
  · have hat' := hat.step hord hpass.pos hin
    have hbool := Bool.toNat_le (turns t right k)
    have hout : n < 2 * k + (turns t right k).toNat := by omega
    have hp : (firstLeft n (turns t right)).getD 0 =
        (rightOf n (2 * k + (turns t right k).toNat)).headD 0 := by
      rw [hat'.firstLeft_eq hout, List.headD_eq_head?_getD]
    refine ⟨_, hk, ?_⟩
    rw [decide_eq_true hin, Bool.true_and, hp]
    obtain ⟨j, hturn⟩ := hat'.turn
    refine Ends.leaf hturn (by omega) (by omega) fun hpos hle => ?_
    have hmem := hat'.child hpos hle
    rw [inorder_empty hout, List.append_nil] at hmem
    refine ⟨?_, hat'.left _ hmem⟩
    rw [hat'.split, List.append_assoc]
    exact List.mem_append_left _ hmem
  · have hout : k = n + 1 := by
      have hle := hpass.le
      omega
    subst hout
    obtain ⟨j, hturn⟩ := hat.turn
    refine ⟨_, hk, ?_⟩
    rw [hat.firstLeft_eq (Nat.lt_succ_self n), ← List.headD_eq_head?_getD]
    simp only [hin, decide_false, Bool.false_and, Bool.toNat_false, Nat.add_zero]
    exact Ends.free hturn

end Walk

/-! ### Stored lists

The elements are stored so that the order of the nodes is the order of the elements, beginning
with cell 1.
-/

section Stored

variable {α : Type}

/-- The sorted list `s` is in the cells 1 to `n`, node by node from left to right, and the array
may have any other cells. -/
structure Laid [LE α] (t : Array α) (n : Nat) (s : List α) : Prop where
  cells : (inorder n 1).map (t[·]?) = s.map some
  sorted : s.Pairwise (· ≤ ·)

/-- The array has those cells and `t[0]`. -/
structure Stored [LE α] (t : Array α) (n : Nat) (s : List α) : Prop extends Laid t n s where
  size : t.size = n + 1

/-- Looking for a value in a list and for its place is the same. -/
theorem find?_cells {β : Type} {f : β → Option α} (right : α → Bool) :
    ∀ (l : List β) (s : List α), l.map f = s.map some →
      (l.find? fun i => !(f i).any right).bind f = s.find? fun a => !right a := by
  intro l
  induction l with
  | nil =>
      intro s h
      rw [List.map_nil] at h
      rw [List.map_eq_nil_iff.mp h.symm]
      rfl
  | cons i l ih =>
      intro s h
      cases s with
      | nil => cases h
      | cons a s =>
          obtain ⟨hfi, hrest⟩ := List.cons.inj h
          rw [List.find?_cons, List.find?_cons, hfi, Option.any_some]
          cases hright : right a with
          | true => exact ih s hrest
          | false => exact hfi

variable [LinearOrder α] {t : Array α} {n p : Nat} {s : List α} {a : α}

/-- A test that holds below every element it holds of sends a walk the right way. -/
theorem Laid.ordered (h : Laid t n s) {right : α → Bool}
    (hmono : ∀ a b, a ≤ b → right b = true → right a = true) : Ordered n (turns t right) := by
  have hsome : (s.map some).Pairwise fun o o' => o'.any right = true → o.any right = true :=
    List.pairwise_map.mpr (h.sorted.imp fun {a b} hle => hmono a b hle)
  rw [← h.cells, List.pairwise_map] at hsome
  exact hsome

namespace Stored

theorem find?_eq (h : Stored t n s) (right : α → Bool) :
    (firstLeft n (turns t right)).bind (t[·]?) = s.find? fun a => !right a :=
  find?_cells right _ _ h.cells

theorem mem_of_cell (h : Stored t n s) {i : Nat} (hi : i ∈ inorder n 1) (ha : t[i]? = some a) :
    a ∈ s := by
  have hmem : some a ∈ (inorder n 1).map (t[·]?) := List.mem_map.mpr ⟨i, hi, ha⟩
  rw [h.cells] at hmem
  obtain ⟨b, hb, heq⟩ := List.mem_map.mp hmem
  rwa [← Option.some.inj heq]

/-- The first element in order that passes a test is the least one that does. -/
theorem isLeast_iff (h : Stored t n s) (right : α → Bool) :
    IsLeast {b | b ∈ s ∧ right b = false} a ↔ s.find? (fun b => !right b) = some a := by
  have hleast : ∀ b, s.find? (fun b => !right b) = some b →
      IsLeast {b | b ∈ s ∧ right b = false} b := by
    intro b hb
    obtain ⟨hpass, as, bs, hsplit, has⟩ := List.find?_eq_some_iff_append.mp hb
    refine ⟨⟨?_, by simpa using hpass⟩, ?_⟩
    · rw [hsplit]
      exact List.mem_append_right _ List.mem_cons_self
    · rintro c ⟨hc, hcpass⟩
      have hsorted := h.sorted
      rw [hsplit] at hc hsorted
      rcases List.mem_append.mp hc with hc | hc
      · have hno := has c hc
        simp [hcpass] at hno
      · rcases List.mem_cons.mp hc with rfl | hc
        · exact le_refl _
        · exact (List.pairwise_cons.mp (List.pairwise_append.mp hsorted).2.1).1 c hc
  constructor
  · intro ha
    cases hfind : s.find? (fun b => !right b) with
    | none =>
        have hno := List.find?_eq_none.mp hfind a ha.1.1
        simp [ha.1.2] at hno
    | some b => rw [(hleast b hfind).unique ha]
  · exact hleast a

theorem exists_firstLeft (h : Stored t n s) {r : α → Bool} (ha : a ∈ s)
    (hr : r a = false) : ∃ p, firstLeft n (turns t r) = some p := by
  cases hfirst : firstLeft n (turns t r) with
  | some p => exact ⟨p, rfl⟩
  | none =>
      have hnone := h.find?_eq r
      rw [hfirst, Option.bind_none] at hnone
      have hno := List.find?_eq_none.mp hnone.symm a ha
      simp [hr] at hno

/-- The node of the least element that passes the test. -/
theorem cell_of_firstLeft (h : Stored t n s) {right : α → Bool}
    (hp : firstLeft n (turns t right) = some p) :
    ∃ a, t[p]? = some a ∧ right a = false ∧ IsLeast {b | b ∈ s ∧ right b = false} a := by
  obtain ⟨-, hle⟩ := of_mem_inorder 1 (List.mem_of_find?_eq_some hp)
  have hlt : p < t.size := by
    rw [h.size]
    omega
  have hcell : t[p]? = some t[p] := Array.getElem?_eq_getElem hlt
  have hfind := h.find?_eq right
  rw [hp, Option.bind_some, hcell] at hfind
  have hleast := (h.isLeast_iff right).mpr hfind.symm
  exact ⟨_, hcell, hleast.1.2, hleast⟩

end Stored

end Stored

/-! ### `lower_bound` and `upper_bound`

The node that should be read is that of the last turn to the left.
-/

section Bounds

variable {α : Type} [LinearOrder α] {t : Array α} {n : Nat} {s : List α} {x : α}

/-- The elements that send `lower_bound` to the right. -/
def below (t : Array α) (x : α) : Nat → Bool := turns t fun a => a < x

/-- The elements that send the other two to the right. -/
def atMost (t : Array α) (x : α) : Nat → Bool := turns t fun a => a ≤ x

/-- Wherever there is an element that is not below `x`, `lower_bound` finds the least of them. -/
def LowerBoundFinds (t : Array α) (n : Nat) (s : List α) (x : α) : Prop :=
  ∀ a, IsLeast {b | b ∈ s ∧ x ≤ b} a → ∀ z, lowerBound z t n x = .ok a

/-- Wherever there is an element above `x`, `upper_bound` finds the least of them. -/
def UpperBoundFinds (t : Array α) (n : Nat) (s : List α) (x : α) : Prop :=
  ∀ a, IsLeast {b | b ∈ s ∧ x < b} a → ∀ z, upperBound z t n x = .ok a

theorem below_ordered (h : Laid t n s) (x : α) : Ordered n (below t x) :=
  h.ordered fun _ _ hle hb => decide_eq_true (hle.trans_lt (of_decide_eq_true hb))

theorem atMost_ordered (h : Laid t n s) (x : α) : Ordered n (atMost t x) :=
  h.ordered fun _ _ hle hb => decide_eq_true (hle.trans (of_decide_eq_true hb))

/-- What `lower_bound` reads, when the walk last turned left at node `p`. -/
theorem lowerBound_of_ends {p k : Nat} (hk : walk t n (fun a => a < x) = .ok k)
    (hends : Ends n (below t x) p k) (hp : 0 < p) (hpn : p ≤ n) :
    ((n ≤ 2 * p ∨ ∃ j, Spine p j (n + 1)) ∧ ∀ z, lowerBound z t n x = read t (n - 1)) ∨
      (¬ (n ≤ 2 * p ∨ ∃ j, Spine p j (n + 1)) ∧ below t x (2 * p) = true ∧
        ∃ z, lowerBound z t n x = read t (2 * p)) := by
  have hread : ∀ z, lowerBound z t n x =
      read t (if strip z k < n then strip z k else pred64 n) := by
    intro z
    unfold lowerBound
    rw [hk, bind_of_ok]
  have hpred : pred64 n = n - 1 := if_neg (by omega)
  cases hends with
  | @leaf k j hspine hlow hhigh hchild =>
      by_cases hleaf : n ≤ 2 * p
      · refine Or.inl ⟨Or.inl hleaf, fun z => ?_⟩
        rw [hread, strip_spine hspine (spine_short hspine hleaf (by omega)), if_neg (by omega),
          hpred]
      · refine Or.inr ⟨?_, (hchild hp (by omega)).2, ?_⟩
        · rintro (hc | ⟨j', hfree⟩)
          · exact hleaf hc
          · obtain ⟨rfl, rfl⟩ := hspine.unique hfree (by omega) (by omega)
            cases j with
            | zero =>
                unfold Spine at hspine
                omega
            | succ j =>
                obtain ⟨i, hi, -⟩ := hspine.pred
                omega
        · obtain ⟨z, hz⟩ := exists_strip hspine
          refine ⟨z, ?_⟩
          rw [hread, hz, if_pos (by omega)]
  | @free j hspine =>
      refine Or.inl ⟨Or.inr ⟨j, hspine⟩, fun z => ?_⟩
      rw [hread, strip_even, if_neg (by omega), hpred]

theorem lowerBound_finds_iff (h : Stored t n s) (hlt : t.size < 2 ^ 63) :
    LowerBoundFinds t n s x ↔ ∀ p, firstLeft n (below t x) = some p →
      (n ≤ 2 * p ∨ ∃ j, Spine p j (n + 1)) ∧ t[n - 1]? = t[p]? := by
  have hset : {b | b ∈ s ∧ x ≤ b} = {b | b ∈ s ∧ decide (b < x) = false} := by
    ext b
    simp
  unfold LowerBoundFinds
  rw [hset]
  cases hfirst : firstLeft n (below t x) with
  | none =>
      constructor
      · intro _ p hp
        cases hp
      · intro _ a ha
        obtain ⟨p, hp⟩ := h.exists_firstLeft (r := fun b => decide (b < x)) ha.1.1 ha.1.2
        have heq := hfirst.symm.trans hp
        cases heq
  | some p =>
      obtain ⟨hpos, hpn⟩ := of_mem_inorder 1 (List.mem_of_find?_eq_some hfirst)
      obtain ⟨a, hcell, hge, hleast⟩ := h.cell_of_firstLeft hfirst
      obtain ⟨k, hk, hends⟩ := walk_ends (fun a => decide (a < x)) h.size hlt
        (below_ordered h.toLaid x)
      rw [show firstLeft n (turns t _) = some p from hfirst, Option.getD_some] at hends
      have hanswer : (∀ a', IsLeast {b | b ∈ s ∧ decide (b < x) = false} a' →
          ∀ z, lowerBound z t n x = .ok a') ↔ ∀ z, lowerBound z t n x = .ok a := by
        constructor
        · intro hall
          exact hall a hleast
        · intro hall a' ha'
          rw [ha'.unique hleast]
          exact hall
      rw [hanswer]
      rcases lowerBound_of_ends hk hends hpos hpn with ⟨hplace, hread⟩ | ⟨hplace, hchild, z, hz⟩
      · constructor
        · intro hall q hq
          rw [← Option.some.inj hq, hcell]
          exact ⟨hplace, read_ok.mp ((hread 0).symm.trans (hall 0))⟩
        · intro hall z
          rw [hread z, read_ok, ← hcell]
          exact (hall p rfl).2
      · constructor
        · intro hall
          -- the left child is below `x`, and the answer is not
          have hcell' := read_ok.mp (hz.symm.trans (hall z))
          have hlow : decide (a < x) = true := by
            have hturn : turns t (fun a => decide (a < x)) (2 * p) = true := hchild
            unfold turns at hturn
            rw [hcell', Option.any_some] at hturn
            exact hturn
          rw [hge] at hlow
          cases hlow
        · intro hall
          exact absurd (hall p rfl).1 hplace

theorem upperBound_finds_iff (h : Stored t n s) (hlt : t.size < 2 ^ 63) :
    UpperBoundFinds t n s x ↔ ∀ b ∈ s, b ≤ x := by
  have hset : {b | b ∈ s ∧ x < b} = {b | b ∈ s ∧ decide (b ≤ x) = false} := by
    ext b
    simp
  unfold UpperBoundFinds
  rw [hset]
  constructor
  · intro hall
    by_contra hc
    obtain ⟨b, hb, hxb⟩ : ∃ b ∈ s, ¬ b ≤ x := by
      by_contra hno
      exact hc fun b hb => by_contra fun hbx => hno ⟨b, hb, hbx⟩
    obtain ⟨p, hfirst⟩ := h.exists_firstLeft (r := fun b => decide (b ≤ x)) hb
      (decide_eq_false hxb)
    obtain ⟨hpos, -⟩ := of_mem_inorder 1 (List.mem_of_find?_eq_some hfirst)
    obtain ⟨a, -, hgt, hleast⟩ := h.cell_of_firstLeft hfirst
    obtain ⟨k, hk, hends⟩ := walk_ends (fun a => decide (a ≤ x)) h.size hlt
      (atMost_ordered h.toLaid x)
    rw [hfirst, Option.getD_some] at hends
    have hread : ∀ z, read t (strip z k) = .ok a := by
      intro z
      have hfound := hall a hleast z
      unfold upperBound at hfound
      rwa [hk, bind_of_ok] at hfound
    cases hends with
    | leaf hspine _ _ hchild =>
        obtain ⟨z, hz⟩ := exists_strip hspine
        have hcell := hread z
        rw [hz] at hcell
        by_cases hin : 2 * p ≤ n
        · -- the left child is not above `x`, and the answer is
          have hturn := (hchild hpos hin).2
          unfold turns at hturn
          rw [read_ok.mp hcell, Option.any_some, hgt] at hturn
          cases hturn
        · rw [read_end h.size (by omega)] at hcell
          cases hcell
    | free _ =>
        have hcell := hread 0
        rw [strip_even, read_end h.size (by omega)] at hcell
        cases hcell
  · intro hall a ha
    have hno := ha.1.2
    rw [decide_eq_true (hall a ha.1.1)] at hno
    cases hno

/--
**The bounds that are found.**  `lower_bound` returns the least stored element that is at
least `x` exactly when that element is also in cell `n - 1`, and the first node that has
it has no left child other than node `n`, or comes right after the free place next to node
`n`.  `upper_bound` never finds an element, so that it is right exactly when there is none.
-/
theorem bounds_found_iff (t : Array α) (n : Nat) (s : List α) (x : α) (h : Stored t n s)
    (hlt : t.size < 2 ^ 63) :
    (LowerBoundFinds t n s x ↔ ∀ p, firstLeft n (below t x) = some p →
      (n ≤ 2 * p ∨ ∃ j, Spine p j (n + 1)) ∧ t[n - 1]? = t[p]?) ∧
    (UpperBoundFinds t n s x ↔ ∀ b ∈ s, b ≤ x) :=
  ⟨lowerBound_finds_iff h hlt, upperBound_finds_iff h hlt⟩

theorem stored_three : Stored (#[0, 2, 1, 3] : Array Nat) 3 [1, 2, 3] :=
  ⟨⟨by simp [inorder], by decide⟩, rfl⟩

theorem stored_one : Stored (#[0, 5] : Array Nat) 1 [5] := ⟨⟨by simp [inorder], by decide⟩, rfl⟩

/-- The least of three elements, and none above the greatest. -/
theorem bounds_found_three :
    LowerBoundFinds (#[0, 2, 1, 3] : Array Nat) 3 [1, 2, 3] 1 ∧
      UpperBoundFinds (#[0, 2, 1, 3] : Array Nat) 3 [1, 2, 3] 3 := by
  refine ⟨(bounds_found_iff _ _ _ _ stored_three (by decide)).1.mpr ?_,
    (bounds_found_iff _ _ _ _ stored_three (by decide)).2.mpr (by decide)⟩
  intro p hp
  have hfirst : firstLeft 3 (below (#[0, 2, 1, 3] : Array Nat) 1) = some 2 := by
    simp [firstLeft, inorder, below, turns]
  rw [hfirst] at hp
  cases hp
  exact ⟨Or.inl (by decide), rfl⟩

/-- A single element: `lower_bound` returns `t[0]`, and `upper_bound` reads `t[2]`. -/
theorem bounds_not_found :
    Stored (#[0, 5] : Array Nat) 1 [5] ∧ ¬ LowerBoundFinds (#[0, 5] : Array Nat) 1 [5] 5 ∧
      ¬ UpperBoundFinds (#[0, 5] : Array Nat) 1 [5] 4 := by
  have hlower : lowerBound 0 (#[0, 5] : Array Nat) 1 5 = .ok 0 := by rfl
  have hupper : upperBound 0 (#[0, 5] : Array Nat) 1 4 = .error .outOfBounds := by rfl
  refine ⟨stored_one, fun hc => ?_, fun hc => ?_⟩
  · have hfound := hc 5 ⟨by simp, fun b hb => hb.2⟩ 0
    rw [hlower] at hfound
    cases hfound
  · have hfound := hc 5 ⟨by simp, fun b hb => Nat.le_of_eq (List.mem_singleton.mp hb.1).symm⟩ 0
    rw [hupper] at hfound
    cases hfound

/-! ### `binary_search`

It looks for the first element above `x`, and then at one cell only.
-/

/-- The node of the first element above `x`; 0 if there is none. -/
def nodeAbove (t : Array α) (n : Nat) (x : α) : Nat := (firstLeft n (atMost t x)).getD 0

/-- One cell is looked at, and it is `t[0]` or holds a stored element. -/
theorem cell_decides_iff (h : Stored t n s) (hzero : t[0]? ≠ some x) {i : Nat} (hi : i ≤ n)
    (hmem : 0 < i → i ∈ inorder n 1) :
    (do return decide ((← read t i) = x) : Except Fault Bool) = .ok (decide (x ∈ s)) ↔
      (x ∈ s → t[i]? = some x) := by
  have hin : i < t.size := h.size.symm ▸ Nat.lt_succ_of_le hi
  obtain ⟨a, ha, hcell, -⟩ := read_turns (fun _ => true) hin
  have hstored : a = x → x ∈ s := by
    intro hax
    by_cases hpos : 0 < i
    · exact hax ▸ h.mem_of_cell (hmem hpos) hcell
    · rw [show i = 0 by omega, hax] at hcell
      exact absurd hcell hzero
  rw [ha, bind_of_ok, pure_is_ok, hcell, Except.ok.injEq, decide_eq_decide, Option.some.injEq]
  exact ⟨fun heq => heq.mpr, fun hfound => ⟨hstored, hfound⟩⟩

/-- The cell that `binary_search` looks at in the end decides, whatever `__builtin_ctz` gives for
0, whether `x` is stored. -/
def DecidesAt (t : Array α) (s : List α) (x : α) (k : Nat) : Prop :=
  ∀ z, (do return decide ((← read t (strip z k)) = x) : Except Fault Bool) = .ok (decide (x ∈ s))

/-- So it is a cell. -/
theorem DecidesAt.inside {k : Nat} (hd : DecidesAt t s x k) (h : Stored t n s) (z : Nat) :
    strip z k ≤ n := by
  by_contra hout
  have hcell := hd z
  rw [read_end h.size (Nat.lt_of_not_le hout)] at hcell
  cases hcell

theorem decidesAt_iff_of_spine (h : Stored t n s) (hzero : t[0]? ≠ some x) {p j k : Nat}
    (hspine : Spine p j k) (hj : j < 32) (hle : 2 * p ≤ n)
    (hmem : 0 < p → 2 * p ∈ inorder n 1) :
    DecidesAt t s x k ↔ (x ∈ s → t[2 * p]? = some x) := by
  rw [← cell_decides_iff h hzero hle fun hp => hmem (by omega)]
  constructor
  · intro hd
    have hlooked := hd 0
    rwa [strip_spine hspine hj] at hlooked
  · intro hlooked z
    rwa [strip_spine hspine hj]

/-- The place below a leaf tells how many steps to the right lead there. -/
theorem leads_to_leaf_iff {p j k : Nat} (hspine : Spine p j k) (hlow : n < 2 * (k / 2))
    (hhigh : k / 2 ≤ n) :
    (∃ i leaf, i < 31 ∧ Spine p i leaf ∧ leaf ≤ n ∧ n < 2 * leaf) ↔ j < 32 ∧ 2 * p ≤ n := by
  constructor
  · rintro ⟨i, leaf, hi, hleaf, hin, hend⟩
    obtain ⟨rfl, rfl⟩ := hspine.unique hleaf.right (by omega) (by omega)
    have hle := (Spine.left p).lt_of_lt hspine (Nat.succ_pos i)
    exact ⟨by omega, by omega⟩
  · rintro ⟨hj, hle⟩
    cases j with
    | zero =>
        unfold Spine at hspine
        omega
    | succ j =>
        obtain ⟨i, hi, hleaf⟩ := hspine.pred
        exact ⟨j, i, by omega, hleaf, by omega, by omega⟩

/-- **Where the walk ends decides.** -/
theorem decidesAt_iff (h : Stored t n s) (hzero : t[0]? ≠ some x) {p k : Nat}
    (hends : Ends n (atMost t x) p k) :
    DecidesAt t s x k ↔ (∃ i leaf, i < 31 ∧ Spine p i leaf ∧ leaf ≤ n ∧ n < 2 * leaf) ∧
      (x ∈ s → t[2 * p]? = some x) := by
  cases hends with
  | @leaf k j hspine hlow hhigh hchild =>
      have hmem : 2 * p ≤ n → 0 < p → 2 * p ∈ inorder n 1 := fun hle hp => (hchild hp hle).1
      rw [leads_to_leaf_iff hspine hlow hhigh]
      constructor
      · intro hd
        have hin := hd.inside h 0
        have hj : j < 32 := by
          by_contra hj
          rw [strip_undefined hspine (by omega), Nat.shiftRight_zero] at hin
          omega
        rw [strip_spine hspine hj] at hin
        exact ⟨⟨hj, hin⟩, (decidesAt_iff_of_spine h hzero hspine hj hin (hmem hin)).mp hd⟩
      · rintro ⟨⟨hj, hle⟩, hfound⟩
        exact (decidesAt_iff_of_spine h hzero hspine hj hle (hmem hle)).mpr hfound
  | @free j hspine =>
      refine iff_of_false (fun hd => ?_) ?_
      · have hin := hd.inside h 0
        rw [strip_even] at hin
        omega
      · rintro ⟨⟨i, leaf, -, hleaf, hin, hend⟩, -⟩
        have hsame := hspine.unique hleaf.right (by omega) (by omega)
        omega

/--
**The elements that are found.**  `binary_search` decides whether `x` is stored exactly
when one step to the left from the first node above `x` and then at most 30 steps to the
right lead to a leaf (from the root downwards if no node is above `x`), and `x`, if it is
stored, is where the steps to the right begin.
-/
theorem binarySearch_decides_iff (t : Array α) (n : Nat) (s : List α) (x : α) (h : Stored t n s)
    (hlt : t.size < 2 ^ 63) (hzero : t[0]? ≠ some x) :
    (∀ z, binarySearch z t n x = .ok (decide (x ∈ s))) ↔
      (∃ j k, j < 31 ∧ Spine (nodeAbove t n x) j k ∧ k ≤ n ∧ n < 2 * k) ∧
        (x ∈ s → t[2 * nodeAbove t n x]? = some x) := by
  obtain ⟨k, hk, hends⟩ := walk_ends (fun a => decide (a ≤ x)) h.size hlt
    (atMost_ordered h.toLaid x)
  have hlast : (∀ z, binarySearch z t n x = .ok (decide (x ∈ s))) ↔ DecidesAt t s x k := by
    unfold binarySearch DecidesAt
    rw [hk]
    exact Iff.rfl
  rw [hlast]
  exact decidesAt_iff h hzero hends

/-- An element at a leaf that is a left child is found. -/
theorem binarySearch_decides_three :
    binarySearch 0 (#[0, 2, 1, 3] : Array Nat) 3 1 = .ok (decide (1 ∈ [1, 2, 3])) := by
  have hnode : nodeAbove (#[0, 2, 1, 3] : Array Nat) 3 1 = 1 := by
    simp [nodeAbove, firstLeft, inorder, atMost, turns]
  refine (binarySearch_decides_iff _ _ _ _ stored_three (by decide) (by decide)).mpr ?_ 0
  rw [hnode]
  exact ⟨⟨0, 2, by decide, Spine.left 1, by decide, by decide⟩, fun _ => rfl⟩

/-- A single element is not found: `t[0]` is looked at. -/
theorem binarySearch_misses :
    Stored (#[0, 5] : Array Nat) 1 [5] ∧ (#[0, 5] : Array Nat)[0]? ≠ some 5 ∧
      ¬ ∀ z, binarySearch z (#[0, 5] : Array Nat) 1 5 = .ok (decide (5 ∈ [5])) := by
  have hfalse : binarySearch 0 (#[0, 5] : Array Nat) 1 5 = .ok false := by rfl
  refine ⟨stored_one, by decide, fun hc => ?_⟩
  have htrue := hc 0
  rw [hfalse] at htrue
  cases htrue

/-! ### Staying inside

A place below the leaves is not a cell, and what is left of it after `strip` may be one.
-/

/-- The walk ends with a step to the right at a leaf, and with at most 30 before it. -/
def EndsRight (t : Array α) (n : Nat) (x : α) : Prop :=
  ∃ k p j, Passes n (atMost t x) k ∧ k ≤ n ∧ n < 2 * k ∧ atMost t x k = true ∧
    Spine p j k ∧ j < 31

/-- What is left of the place where the walk ends is a cell exactly then. -/
theorem strip_inside_iff {k : Nat} (hpass : Passes n (atMost t x) k) (hlow : n / 2 < k) :
    (∀ z, strip z (2 * k + (decide (k ≤ n) && atMost t x k).toNat) ≤ n) ↔ EndsRight t n x := by
  obtain ⟨p, j, hspine⟩ := Spine.exists k
  by_cases hright : k ≤ n ∧ atMost t x k = true
  · obtain ⟨hkn, hturn⟩ := hright
    rw [decide_eq_true hkn, hturn, Bool.true_and, Bool.toNat_true]
    constructor
    · intro hall
      refine ⟨k, p, j, hpass, hkn, by omega, hturn, hspine, ?_⟩
      by_contra hj
      have hout := hall 0
      rw [strip_undefined hspine.right (by omega), Nat.shiftRight_zero] at hout
      omega
    · rintro ⟨k', p', j', hpass', -, hlow', -, hspine', hj'⟩ z
      obtain rfl := hpass'.unique hpass (by omega) hlow
      rw [hspine.steps_unique hspine'] at hspine
      rw [strip_spine hspine.right (by omega)]
      have hle := (Spine.left p).lt_of_lt hspine.right (Nat.succ_pos j')
      omega
  · have hleft : (decide (k ≤ n) && atMost t x k) = false := by
      rw [Bool.and_eq_false_iff]
      by_cases hkn : k ≤ n
      · exact Or.inr (Bool.eq_false_iff.mpr fun hc => hright ⟨hkn, hc⟩)
      · exact Or.inl (decide_eq_false hkn)
    rw [hleft, Bool.toNat_false, Nat.add_zero]
    constructor
    · intro hall
      have hout := hall 0
      rw [strip_even] at hout
      omega
    · rintro ⟨k', -, -, hpass', hkn', hlow', hturn', -⟩
      obtain rfl := hpass'.unique hpass (by omega) hlow
      exact absurd ⟨hkn', hturn'⟩ hright

/--
**The searches stay inside exactly in these cases.**  `lower_bound` does for at least one
element; `upper_bound` and `binary_search` do when the walk ends with a step to the right.
-/
theorem searches_inside_iff (t : Array α) (n : Nat) (x : α) (hsize : t.size = n + 1)
    (hlt : t.size < 2 ^ 63) :
    ((∀ z, ∃ a, lowerBound z t n x = .ok a) ↔ 1 ≤ n) ∧
    ((∀ z, ∃ a, upperBound z t n x = .ok a) ↔ EndsRight t n x) ∧
    ((∀ z, ∃ b, binarySearch z t n x = .ok b) ↔ EndsRight t n x) := by
  have hreads : ∀ i, (∃ a, read t i = .ok a) ↔ i ≤ n := by
    intro i
    constructor
    · rintro ⟨a, ha⟩
      by_contra hi
      rw [read_end hsize (by omega)] at ha
      cases ha
    · intro hi
      obtain ⟨a, ha, -⟩ := read_turns (fun _ => true) (show i < t.size by omega)
      exact ⟨a, ha⟩
  have hcells : 0 < n → n < t.size := fun _ => by omega
  obtain ⟨k, hpass, hlow, hk⟩ := walk_spec (fun a => decide (a ≤ x)) hcells hlt
  have hinside := strip_inside_iff hpass hlow
  refine ⟨?_, ?_, ?_⟩
  · obtain ⟨k', -, -, hk'⟩ := walk_spec (fun a => decide (a < x)) hcells hlt
    unfold lowerBound
    simp only [hk', bind_of_ok, hreads]
    constructor
    · intro hall
      by_contra hn
      have hout := hall 0
      rw [show n = 0 by omega, if_neg (Nat.not_lt_zero _)] at hout
      exact absurd hout (by decide)
    · intro hn z
      split
      · omega
      · rw [pred64, if_neg (by omega)]
        omega
  · unfold upperBound
    simp only [hk, bind_of_ok, hreads]
    exact hinside
  · unfold binarySearch
    simp only [hk, bind_of_ok]
    rw [← hinside]
    refine forall_congr' fun z => ?_
    refine Iff.trans ?_ (hreads _)
    constructor
    · rintro ⟨b, hb⟩
      obtain ⟨a, ha, -⟩ := bind_returns.mp hb
      exact ⟨a, ha⟩
    · rintro ⟨a, ha⟩
      exact ⟨_, bind_returns.mpr ⟨a, ha, rfl⟩⟩

/-- The greatest of three elements. -/
theorem searches_inside_three :
    (∀ z, ∃ a, lowerBound z (#[0, 2, 1, 3] : Array Nat) 3 3 = .ok a) ∧
      (∀ z, ∃ a, upperBound z (#[0, 2, 1, 3] : Array Nat) 3 3 = .ok a) ∧
      ∀ z, ∃ b, binarySearch z (#[0, 2, 1, 3] : Array Nat) 3 3 = .ok b := by
  have hends : EndsRight (#[0, 2, 1, 3] : Array Nat) 3 3 := by
    refine ⟨3, 0, 2, ?_, by decide, by decide, by decide, rfl, by decide⟩
    exact Relation.ReflTransGen.single ⟨by decide, by decide⟩
  obtain ⟨hlower, hupper, hsearch⟩ :=
    searches_inside_iff (#[0, 2, 1, 3] : Array Nat) 3 3 (by decide) (by decide)
  exact ⟨hlower.mpr (by decide), hupper.mpr hends, hsearch.mpr hends⟩

/-- A single element above `x` sends the other two to `t[2]`, and no element at all sends
`lower_bound` to the far end of the address space. -/
theorem searches_outside :
    (¬ ∃ a, lowerBound 0 (#[0] : Array Nat) 0 4 = .ok a) ∧
      (¬ ∃ a, upperBound 0 (#[0, 5] : Array Nat) 1 4 = .ok a) ∧
      ¬ ∃ b, binarySearch 0 (#[0, 5] : Array Nat) 1 4 = .ok b := by
  have hlower : lowerBound 0 (#[0] : Array Nat) 0 4 = .error .outOfBounds := by rfl
  have hupper : upperBound 0 (#[0, 5] : Array Nat) 1 4 = .error .outOfBounds := by rfl
  have hsearch : binarySearch 0 (#[0, 5] : Array Nat) 1 4 = .error .outOfBounds := by rfl
  refine ⟨?_, ?_, ?_⟩
  · rintro ⟨a, ha⟩
    rw [hlower] at ha
    cases ha
  · rintro ⟨a, ha⟩
    rw [hupper] at ha
    cases ha
  · rintro ⟨b, hb⟩
    rw [hsearch] at hb
    cases hb

end Bounds

end Ytl.Algorithm
