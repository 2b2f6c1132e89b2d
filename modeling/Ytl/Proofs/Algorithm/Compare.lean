/-
`lexicographical_compare` is an order.

An array with its length is looked at as a sequence of options that ends where the array
does.  Up to the length of the shorter one the loop looks for the first place where the two
elements are not equivalent; there is none if it is left at the end, and then the sequences
first differ where the shorter one ends, unless they end at the same place.  So the result is
the order of the sequences by their first difference.
-/
import Ytl.Algorithm.Compare
import Ytl.Base.LexOrder

namespace Ytl.Algorithm

/-! ### The reference order

It is given without sequences, as one would explain it, and then shown to be the order of
sequences that end; that the latter is a strict weak order is known in general.
-/

/-- An array to be read up to a length. -/
structure Span (α : Type) where
  t : Array α
  n : Nat
  le : n ≤ t.size

instance {α : Type} : GetElem (Span α) Nat α fun s i => i < s.n where
  getElem s i h := getElem s.t i (Nat.lt_of_lt_of_le h s.le)

namespace Span

variable {α : Type} {s s₁ s₂ : Span α} {i : Nat}

/-- The sequence that ends with the array. -/
def seq (s : Span α) (i : Nat) : Option α := if h : i < s.n then some s[i] else none

theorem seq_of_lt (h : i < s.n) : s.seq i = some s[i] := dif_pos h

theorem seq_of_ge (h : s.n ≤ i) : s.seq i = none := dif_neg (Nat.not_lt.mpr h)

theorem read_eq (h : i < s.n) : read s.t i = .ok s[i] := by
  have hsize : i < s.t.size := Nat.lt_of_lt_of_le h s.le
  unfold read
  rw [Array.getElem?_eq_getElem hsize]
  rfl

variable [LT α]

/-- The reference order: the first place where the elements are not equivalent decides, and
otherwise the shorter one is less. -/
inductive Less (s₁ s₂ : Span α) : Prop
  | differ {k : Nat} (h₁ : k < s₁.n) (h₂ : k < s₂.n) (hlt : s₁[k] < s₂[k])
      (hbefore : ∀ i (hi : i < k), IncompRel (· < ·) s₁[i] s₂[i])
  | shorter (hn : s₁.n < s₂.n)
      (hsame : ∀ i (hi : i < s₁.n), IncompRel (· < ·) s₁[i] s₂[i])

/-- The two sequences at the place `i`, by `<`. -/
def SameAt (s₁ s₂ : Span α) (i : Nat) : Prop :=
  IncompRel (Option.lt (· < ·)) (s₁.seq i) (s₂.seq i)

theorem sameAt_iff (h₁ : i < s₁.n) (h₂ : i < s₂.n) :
    SameAt s₁ s₂ i ↔ IncompRel (· < ·) s₁[i] s₂[i] := by
  rw [SameAt, seq_of_lt h₁, seq_of_lt h₂, incompRel_some_iff]

/-- **The reference order is the order of the sequences.** -/
theorem less_iff : Less s₁ s₂ ↔ LexBefore (Option.lt (· < ·)) s₁.seq s₂.seq := by
  constructor
  · intro h
    cases h with
    | @differ k h₁ h₂ hlt hbefore =>
        refine ⟨k, ?_, fun i hi => (sameAt_iff (by omega) (by omega)).mpr (hbefore i hi)⟩
        rw [seq_of_lt h₁, seq_of_lt h₂]
        exact hlt
    | shorter hn hsame =>
        refine ⟨s₁.n, ?_, fun i hi => (sameAt_iff hi (by omega)).mpr (hsame i hi)⟩
        rw [seq_of_ge (Nat.le_refl _), seq_of_lt hn]
        exact trivial
  · rintro ⟨k, hk, hbefore⟩
    by_cases h₂ : k < s₂.n
    · by_cases h₁ : k < s₁.n
      · rw [seq_of_lt h₁, seq_of_lt h₂] at hk
        exact Less.differ h₁ h₂ hk fun i hi => (sameAt_iff _ _).mp (hbefore i hi)
      · have hn : s₁.n < s₂.n := by omega
        exact Less.shorter hn fun i hi => (sameAt_iff _ _).mp (hbefore i (by omega))
    · -- nothing is in front of the end
      rw [seq_of_ge (Nat.le_of_not_lt h₂)] at hk
      cases hs : s₁.seq k with
      | none => rw [hs] at hk; exact hk.elim
      | some a => rw [hs] at hk; exact hk.elim

end Span

/-! ### The loop

In front of the index all elements are equivalent, so what comes behind decides.
-/

open Ytl.Algorithm.Span

theorem min_le_iff {n m k : Nat} : k < Algorithm.min n m ↔ k < n ∧ k < m := by
  unfold Algorithm.min
  split_ifs with h <;> omega

/-- Where no place of both arrays decides, the lengths do. -/
theorem lexBefore_iff_of_same {α : Type} [LT α] {s₁ s₂ : Span α}
    (hsame : ∀ i, i < s₁.n → i < s₂.n → SameAt s₁ s₂ i) :
    LexBefore (Option.lt (· < ·)) s₁.seq s₂.seq ↔ s₁.n < s₂.n := by
  rcases Nat.lt_trichotomy s₁.n s₂.n with hlt | heq | hgt
  · refine iff_of_true ⟨s₁.n, ?_, fun i hi => hsame i hi (by omega)⟩ hlt
    rw [seq_of_ge (Nat.le_refl _), seq_of_lt hlt]
    exact trivial
  · refine iff_of_false (not_lexBefore fun i => ?_) (by omega)
    by_cases hi : i < s₁.n
    · exact hsame i hi (by omega)
    · rw [seq_of_ge (by omega), seq_of_ge (by omega)]
      exact ⟨id, id⟩
  · -- the second sequence ends first, and an end is in front
    have hend : ¬ SameAt s₁ s₂ s₂.n := by
      rw [SameAt, seq_of_ge (Nat.le_refl _), seq_of_lt hgt]
      exact fun hc => hc.2 trivial
    rw [lexBefore_iff_of_differ (fun i hi => hsame i (by omega) hi) hend,
      seq_of_ge (Nat.le_refl _), seq_of_lt hgt]
    exact iff_of_false id (by omega)

variable {α : Type} [LT α] [DecidableLT α] {s₁ s₂ : Span α}

/-- The loop, with all places in front of `i` equivalent. -/
theorem lexicographicalCompareLoop_spec :
    ∀ (left i : Nat), i + left = Algorithm.min s₁.n s₂.n →
      (∀ j, j < i → SameAt s₁ s₂ j) →
      ∃ r, lexicographicalCompareLoop s₁.t s₁.n s₂.t s₂.n left i = .ok r ∧
        (r = true ↔ LexBefore (Option.lt (· < ·)) s₁.seq s₂.seq) := by
  intro left
  induction left with
  | zero =>
      intro i hi hbefore
      refine ⟨_, rfl, ?_⟩
      rw [decide_eq_true_iff, lexBefore_iff_of_same]
      intro j hj₁ hj₂
      have hj := min_le_iff.mpr ⟨hj₁, hj₂⟩
      exact hbefore j (by omega)
  | succ left ih =>
      intro i hi hbefore
      obtain ⟨h₁, h₂⟩ := min_le_iff.mp (show i < Algorithm.min s₁.n s₂.n by omega)
      rw [lexicographicalCompareLoop, read_eq h₁, read_eq h₂]
      simp only [bind_of_ok]
      by_cases hlt : s₁[i] < s₂[i]
      · rw [if_pos hlt]
        refine ⟨true, rfl, iff_of_true rfl ⟨i, ?_, hbefore⟩⟩
        rw [seq_of_lt h₁, seq_of_lt h₂]
        exact hlt
      · rw [if_neg hlt]
        by_cases hgt : s₂[i] < s₁[i]
        · rw [if_pos hgt]
          refine ⟨false, rfl, iff_of_false Bool.false_ne_true ?_⟩
          rw [lexBefore_iff_of_differ hbefore fun hc => ((sameAt_iff h₁ h₂).mp hc).2 hgt,
            seq_of_lt h₁, seq_of_lt h₂]
          exact hlt
        · rw [if_neg hgt]
          have hsame : SameAt s₁ s₂ i := (sameAt_iff h₁ h₂).mpr ⟨hlt, hgt⟩
          exact ih (i + 1) (by omega) (Nat.forall_lt_succ_right.mpr ⟨hbefore, hsame⟩)

/-- The call on two arrays. -/
theorem lexicographicalCompare_spec (s₁ s₂ : Span α) :
    ∃ r, lexicographicalCompare s₁.t s₁.n s₂.t s₂.n = .ok r ∧
      (r = true ↔ LexBefore (Option.lt (· < ·)) s₁.seq s₂.seq) :=
  lexicographicalCompareLoop_spec _ 0 (Nat.zero_add _) nofun

/--
**`lexicographical_compare` is an order.**  For every strict weak order on the elements the
call returns whether the first array is less in the reference order, and that is a strict
weak order on arrays: irreflexive, transitive, and with transitive incomparability.
-/
theorem lexicographicalCompare_order {α : Type} [LT α] [DecidableLT α]
    [IsStrictWeakOrder α (· < ·)] :
    (∀ s₁ s₂ : Span α, ∃ r, lexicographicalCompare s₁.t s₁.n s₂.t s₂.n = .ok r ∧
      (r = true ↔ Span.Less s₁ s₂)) ∧
    IsStrictWeakOrder (Span α) fun s₁ s₂ =>
      lexicographicalCompare s₁.t s₁.n s₂.t s₂.n = .ok true := by
  constructor
  · intro s₁ s₂
    obtain ⟨r, hr, hiff⟩ := lexicographicalCompare_spec s₁ s₂
    exact ⟨r, hr, hiff.trans less_iff.symm⟩
  · -- the relation is the order of the sequences
    have hrel : (fun s₁ s₂ : Span α => lexicographicalCompare s₁.t s₁.n s₂.t s₂.n = .ok true) =
        Function.onFun (LexBefore (Option.lt (· < ·))) seq := by
      funext s₁ s₂
      obtain ⟨r, hr, hiff⟩ := lexicographicalCompare_spec s₁ s₂
      rw [hr, Except.ok.injEq, hiff]
    rw [hrel]
    infer_instance

instance natLt_isStrictWeakOrder : IsStrictWeakOrder Nat (· < ·) where
  irrefl := Nat.lt_irrefl
  trans _ _ _ := Nat.lt_trans
  incomp_trans a b c hab hbc := by omega

/-- Arrays of numbers. -/
theorem lexicographicalCompare_order_nat :
    (∀ s₁ s₂ : Span Nat, ∃ r, lexicographicalCompare s₁.t s₁.n s₂.t s₂.n = .ok r ∧
      (r = true ↔ Span.Less s₁ s₂)) ∧
    IsStrictWeakOrder (Span Nat) fun s₁ s₂ =>
      lexicographicalCompare s₁.t s₁.n s₂.t s₂.n = .ok true :=
  lexicographicalCompare_order

end Ytl.Algorithm
