/-
The order by first difference.

A strict weak order on values gives one on sequences of them: the first place where two
sequences have values that are not equivalent decides.  Equivalent is neither in front of
the other, so two sequences are equivalent if they are so at every place.

Sequences that end are sequences of options, with nothing in front of everything.  Lists are such
sequences, and their own order is this one.
-/
import Mathlib.Data.Nat.Find
import Mathlib.Order.Comparable
import Ytl.Base.FirstDiff

namespace Ytl

variable {β : Type} {lt : β → β → Prop} {a b c : β} {f g h : Nat → β}

/-! ### Strict weak orders

Mathlib has the classes and the relation of being neither in front nor behind.  What follows
is the little that the sequences need: being equivalent goes on through a third value, and a
value may be replaced by one that is equivalent to it.
-/

section Values

variable [IsStrictWeakOrder β lt]

theorem incompRel_trans (hab : IncompRel lt a b) (hbc : IncompRel lt b c) : IncompRel lt a c :=
  IsStrictWeakOrder.incomp_trans a b c hab hbc

theorem lt_of_lt_of_incompRel (hab : lt a b) (hbc : IncompRel lt b c) : lt a c := by
  by_contra hac
  by_cases hca : lt c a
  · exact hbc.2 (IsTrans.trans c a b hca hab)
  · -- else `a` is equivalent to `c`, and so to `b`
    have hequiv : IncompRel lt a b := incompRel_trans ⟨hac, hca⟩ hbc.symm
    exact hequiv.1 hab

theorem lt_of_incompRel_of_lt (hab : IncompRel lt a b) (hbc : lt b c) : lt a c := by
  by_contra hac
  by_cases hca : lt c a
  · exact hab.2 (IsTrans.trans b c a hbc hca)
  · have hequiv : IncompRel lt b c := incompRel_trans hab.symm ⟨hac, hca⟩
    exact hequiv.1 hbc

end Values

/-! ### Sequences

Only the first place where two sequences are not equivalent matters.  There is one of them in
front there, or none at all is.
-/

/-- `f` is in front at the first place where the two are not equivalent. -/
def LexBefore (lt : β → β → Prop) (f g : Nat → β) : Prop :=
  ∃ k, lt (f k) (g k) ∧ ∀ i, i < k → IncompRel lt (f i) (g i)

theorem not_lexBefore (hequiv : ∀ i, IncompRel lt (f i) (g i)) : ¬ LexBefore lt f g := by
  rintro ⟨k, hk, -⟩
  exact (hequiv k).1 hk

/-- What decides is the first place where the two are not equivalent. -/
theorem lexBefore_iff_of_differ {k : Nat} (hbefore : ∀ i, i < k → IncompRel lt (f i) (g i))
    (hdiff : ¬ IncompRel lt (f k) (g k)) : LexBefore lt f g ↔ lt (f k) (g k) := by
  constructor
  · rintro ⟨l, hl, hbefore'⟩
    rcases Nat.lt_trichotomy l k with hlk | rfl | hkl
    · exact absurd hl (hbefore l hlk).1
    · exact hl
    · exact absurd (hbefore' k hkl) hdiff
  · intro hk
    exact ⟨k, hk, hbefore⟩

/-- Either the first values decide, or what comes behind them. -/
theorem lexBefore_iff_head : LexBefore lt f g ↔ lt (f 0) (g 0) ∨
    IncompRel lt (f 0) (g 0) ∧ LexBefore lt (fun i => f (i + 1)) fun i => g (i + 1) := by
  constructor
  · rintro ⟨k, hk, hbefore⟩
    cases k with
    | zero => exact Or.inl hk
    | succ k =>
        exact Or.inr ⟨hbefore 0 (Nat.succ_pos k), k, hk, fun i hi =>
          hbefore (i + 1) (Nat.succ_lt_succ hi)⟩
  · rintro (hlt | ⟨hequiv, k, hk, hbefore⟩)
    · exact ⟨0, hlt, fun i hi => absurd hi (Nat.not_lt_zero i)⟩
    · refine ⟨k + 1, hk, fun i hi => ?_⟩
      cases i with
      | zero => exact hequiv
      | succ i => exact hbefore i (Nat.lt_of_succ_lt_succ hi)

/-- Of two sequences that differ somewhere, one is in front. -/
theorem incompRel_lexBefore_iff :
    IncompRel (LexBefore lt) f g ↔ ∀ i, IncompRel lt (f i) (g i) := by
  constructor
  · intro hnot
    by_contra hsome
    rw [not_forall] at hsome
    classical
    let k := Nat.find hsome
    have hdiff : ¬ IncompRel lt (f k) (g k) := Nat.find_spec hsome
    have hbefore : ∀ i, i < k → IncompRel lt (f i) (g i) :=
      fun i hi => not_not.mp (Nat.find_min hsome hi)
    rw [IncompRel, not_and_or, not_not, not_not] at hdiff
    rcases hdiff with hlt | hgt
    · exact hnot.1 ⟨k, hlt, hbefore⟩
    · exact hnot.2 ⟨k, hgt, fun i hi => (hbefore i hi).symm⟩
  · intro hequiv
    exact ⟨not_lexBefore hequiv, not_lexBefore fun i => (hequiv i).symm⟩

/-! ### Sequences that end

The end of a sequence is a value of its own in front of the others, so a sequence comes before
every one that goes on behind it.
-/

theorem incompRel_some_iff : IncompRel (Option.lt lt) (some a) (some b) ↔ IncompRel lt a b :=
  Iff.rfl

theorem not_lt_none {x : Option β} : ¬ Option.lt lt x none := by
  cases x <;> exact id

/-- A value is equivalent to values only. -/
theorem isSome_eq_of_incompRel {x y : Option β} (hequiv : IncompRel (Option.lt lt) x y) :
    x.isSome = y.isSome := by
  cases x with
  | none =>
      cases y with
      | none => rfl
      | some b => exact absurd trivial hequiv.1
  | some a =>
      cases y with
      | none => exact absurd trivial hequiv.2
      | some b => rfl

/-! ### Lists

A list is a sequence of options: its elements, and then the end for ever.  So what holds of
the order by first difference holds of the order that lists have in Lean.
-/

section Lists

variable {α : Type} [LT α] [@Std.Irrefl α (· < ·)]

theorem incompRel_of_eq {x y : Option α} (heq : x = y) : IncompRel (Option.lt (· < ·)) x y := by
  rw [heq]
  cases y with
  | none => exact ⟨id, id⟩
  | some b => exact ⟨irrefl (r := (· < ·)) b, irrefl (r := (· < ·)) b⟩

/-- **The order of lists is the one by first difference.** -/
theorem list_lt_iff [@Std.Trichotomous α (· < ·)] {xs ys : List α} :
    xs < ys ↔ LexBefore (Option.lt (· < ·)) (fun i => xs[i]?) fun i => ys[i]? := by
  induction xs generalizing ys with
  | nil =>
      cases ys with
      | nil => exact iff_of_false (List.lt_irrefl []) (not_lexBefore fun i => incompRel_of_eq rfl)
      | cons b ys =>
          refine iff_of_true (List.nil_lt_cons b ys) ⟨0, trivial, fun i hi => ?_⟩
          exact absurd hi (Nat.not_lt_zero i)
  | cons a xs ih =>
      cases ys with
      | nil =>
          refine iff_of_false (List.not_lt_nil _) ?_
          rintro ⟨k, hk, -⟩
          exact not_lt_none hk
      | cons b ys =>
          rw [List.cons_lt_cons_iff, lexBefore_iff_head, ih]
          refine or_congr Iff.rfl (and_congr ?_ Iff.rfl)
          exact ⟨fun heq => incompRel_of_eq (congrArg some heq), fun hequiv =>
            Std.Trichotomous.trichotomous (r := (· < ·)) a b hequiv.1 hequiv.2⟩

/-- The sign of `v` is the order of the two lists. -/
structure Orders (v : Int) (xs ys : List α) : Prop where
  less : v < 0 ↔ xs < ys
  same : v = 0 ↔ xs = ys
  more : 0 < v ↔ ys < xs

/-- **A comparison of as many terms as decide orders the lists.** -/
theorem Compares.orders [@Std.Trichotomous α (· < ·)] {f g : Nat → Int} {xs ys : List α} {n : Nat}
    {v : Int} (h : Compares f g n v)
    (hlt : ∀ i, i < n → (f i < g i ↔ Option.lt (· < ·) xs[i]? ys[i]?))
    (heq : ∀ i, i < n → (f i = g i ↔ xs[i]? = ys[i]?))
    (hgt : ∀ i, i < n → (g i < f i ↔ Option.lt (· < ·) ys[i]? xs[i]?))
    (hend : (∀ i, i < n → xs[i]? = ys[i]?) → xs = ys) : Orders v xs ys := by
  cases h with
  | same hall =>
      rw [hend fun i hi => (heq i hi).mp (hall i hi)]
      exact ⟨iff_of_false (lt_irrefl 0) (List.lt_irrefl ys), iff_of_true rfl rfl,
        iff_of_false (lt_irrefl 0) (List.lt_irrefl ys)⟩
  | @differ k hk hbefore hdiff =>
      have hsame : ∀ i, i < k → xs[i]? = ys[i]? := fun i hi =>
        (heq i (Nat.lt_trans hi hk)).mp (hbefore i hi)
      have hdecides : ¬ IncompRel (Option.lt (· < ·)) xs[k]? ys[k]? := by
        rintro ⟨hless, hmore⟩
        rw [← hlt k hk] at hless
        rw [← hgt k hk] at hmore
        exact hdiff (le_antisymm (not_lt.mp hmore) (not_lt.mp hless))
      refine ⟨?_, ?_, ?_⟩
      · rw [list_lt_iff, lexBefore_iff_of_differ
          (fun i hi => incompRel_of_eq (hsame i hi)) hdecides, ← hlt k hk, sub_neg]
      · refine iff_of_false (fun hzero => hdiff (sub_eq_zero.mp hzero)) ?_
        rintro rfl
        exact hdecides (incompRel_of_eq rfl)
      · rw [list_lt_iff, lexBefore_iff_of_differ
          (fun i hi => incompRel_of_eq (hsame i hi).symm) fun hc => hdecides hc.symm,
          ← hgt k hk, sub_pos]

end Lists

/-! ### The orders

Two strict weak orders are made from one: that of the sequences, and that of the values with
an end added.
-/

variable [IsStrictWeakOrder β lt]

/-- The first difference of `f` and `h` is where the first one of the other two is. -/
theorem LexBefore.trans (hfg : LexBefore lt f g) (hgh : LexBefore lt g h) :
    LexBefore lt f h := by
  obtain ⟨k, hk, hbefore⟩ := hfg
  obtain ⟨l, hl, hbefore'⟩ := hgh
  rcases Nat.lt_trichotomy k l with hkl | rfl | hlk
  · exact ⟨k, lt_of_lt_of_incompRel hk (hbefore' k hkl), fun i hi =>
      incompRel_trans (hbefore i hi) (hbefore' i (Nat.lt_trans hi hkl))⟩
  · exact ⟨k, IsTrans.trans _ _ _ hk hl, fun i hi =>
      incompRel_trans (hbefore i hi) (hbefore' i hi)⟩
  · exact ⟨l, lt_of_incompRel_of_lt (hbefore l hlk) hl, fun i hi =>
      incompRel_trans (hbefore i (Nat.lt_trans hi hlk)) (hbefore' i hi)⟩

/-- **Sequences are ordered.** -/
instance lexBefore_isStrictWeakOrder : IsStrictWeakOrder (Nat → β) (LexBefore lt) where
  irrefl f := not_lexBefore fun i => IncompRel.refl lt (f i)
  trans _ _ _ := LexBefore.trans
  incomp_trans f g h hfg hgh := by
    rw [← IncompRel, incompRel_lexBefore_iff] at hfg hgh ⊢
    exact fun i => incompRel_trans (hfg i) (hgh i)

instance optionLt_isStrictWeakOrder : IsStrictWeakOrder (Option β) (Option.lt lt) where
  irrefl x := by
    cases x with
    | none => exact id
    | some a => exact irrefl (r := lt) a
  trans x y z hxy hyz := by
    cases z with
    | none => cases y <;> exact hyz.elim
    | some c =>
        cases y with
        | none => cases x <;> exact hxy.elim
        | some b =>
            cases x with
            | none => exact trivial
            | some a => exact IsTrans.trans (r := lt) a b c hxy hyz
  incomp_trans x y z hxy hyz := by
    rw [← IncompRel] at hxy hyz ⊢
    have hxy' := isSome_eq_of_incompRel hxy
    have hyz' := isSome_eq_of_incompRel hyz
    cases x with
    | none =>
        cases z with
        | none => exact ⟨id, id⟩
        | some c => rw [hyz'] at hxy'; cases hxy'
    | some a =>
        cases z with
        | none => rw [hyz'] at hxy'; cases hxy'
        | some c =>
            cases y with
            | none => cases hxy'
            | some b =>
                rw [incompRel_some_iff] at hxy hyz ⊢
                exact incompRel_trans hxy hyz

end Ytl
