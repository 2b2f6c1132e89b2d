/-
Positions in a list and in what is left of it.

A list may be thinned out and the positions of what is left be read as positions of the list
itself.  Elements that are all different are then the right ones at a position exactly if
nothing in front of it, and nothing at it, has been left out.

This is the slip of code that builds one list from another, skips some elements on the way,
and goes on to use the index in the one as an index in the other.  It does no harm up to the
first element that is skipped; from there on every index is off by as many as have been
skipped, so an element at a position is one that stood further behind.
-/
import Mathlib.Data.List.Basic
import Mathlib.Data.List.Nodup

namespace Ytl

variable {α : Type} {mark : Nat → Bool} {p : α → Bool}

/-- The elements at the marked positions, each with its position. -/
def marked (mark : Nat → Bool) (l : List α) : List (α × Nat) :=
  l.zipIdx.filter fun e => mark e.2

/-- Two lists of one length have the same elements at the marked positions. -/
theorem marked_fst_eq_iff {l l' : List α} (hlen : l.length = l'.length) :
    (marked mark l).map Prod.fst = (marked mark l').map Prod.fst ↔
      ∀ i, mark i = true → l[i]? = l'[i]? := by
  suffices h : ∀ (l l' : List α) (k : Nat), l.length = l'.length →
      ((((l.zipIdx k).filter fun e => mark e.2).map Prod.fst =
        ((l'.zipIdx k).filter fun e => mark e.2).map Prod.fst) ↔
        ∀ i, mark (k + i) = true → l[i]? = l'[i]?) by
    have h0 := h l l' 0 hlen
    simp only [Nat.zero_add] at h0
    exact h0
  clear hlen l l'
  intro l
  induction l with
  | nil =>
      intro l' k hlen
      rw [List.length_eq_zero_iff.mp hlen.symm]
      exact iff_of_true rfl fun _ _ => rfl
  | cons a rest ih =>
      intro l' k hlen
      cases l' with
      | nil => cases hlen
      | cons b rest' =>
          have hrest := ih rest' (k + 1) (Nat.succ.inj hlen)
          -- a mark on the first position compares the first elements
          have hsplit : (∀ i, mark (k + i) = true → (a :: rest)[i]? = (b :: rest')[i]?) ↔
              (mark k = true → a = b) ∧
                ∀ i, mark (k + 1 + i) = true → rest[i]? = rest'[i]? := by
            constructor
            · intro h
              refine ⟨fun hk => Option.some.inj (h 0 hk), fun i hi => h (i + 1) ?_⟩
              rwa [show k + (i + 1) = k + 1 + i by omega]
            · rintro ⟨hfirst, hlater⟩ i hi
              cases i with
              | zero => exact congrArg some (hfirst hi)
              | succ i => exact hlater i (by rwa [show k + 1 + i = k + (i + 1) by omega])
          rw [hsplit, ← hrest, List.zipIdx_cons, List.zipIdx_cons, List.filter_cons,
            List.filter_cons]
          by_cases hk : mark k = true
          · simp [hk]
          · simp [hk]

/-- What is left of a list has been further behind in it. -/
theorem filter_getElem?_later {x : α} :
    ∀ (l : List α) (i : Nat), (l.filter p)[i]? = some x → ∃ j, i ≤ j ∧ l[j]? = some x := by
  intro l
  induction l with
  | nil =>
      intro i h
      cases h
  | cons a rest ih =>
      intro i h
      rw [List.filter_cons] at h
      split at h
      · cases i with
        | zero => exact ⟨0, Nat.le_refl 0, h⟩
        | succ i =>
            obtain ⟨j, hij, hj⟩ := ih i h
            exact ⟨j + 1, Nat.succ_le_succ hij, hj⟩
      · obtain ⟨j, hij, hj⟩ := ih i h
        exact ⟨j + 1, Nat.le_succ_of_le hij, hj⟩

/-- **The positions agree up to the first element that was left out.** -/
theorem filter_getElem?_eq_iff :
    ∀ (l : List α) (i : Nat), l.Nodup → i < (l.filter p).length →
      (l[i]? = (l.filter p)[i]? ↔ ∀ x ∈ l.take (i + 1), p x = true) := by
  intro l
  induction l with
  | nil =>
      intro i _ hi
      exact absurd hi (Nat.not_lt_zero i)
  | cons a rest ih =>
      intro i hnd hi
      obtain ⟨ha, hrest⟩ := List.nodup_cons.mp hnd
      rw [List.filter_cons] at hi ⊢
      by_cases hp : p a = true
      · rw [if_pos hp] at hi ⊢
        cases i with
        | zero => simp [hp]
        | succ i =>
            rw [List.getElem?_cons_succ, List.getElem?_cons_succ,
              ih i hrest (Nat.lt_of_succ_lt_succ hi)]
            simp [hp]
      · rw [if_neg hp] at hi ⊢
        refine iff_of_false (fun heq => ?_) fun hall => hp (hall a (by simp))
        -- what is at the position afterwards is further behind, and stands there only
        obtain ⟨j, hij, hj⟩ := filter_getElem?_later rest i (List.getElem?_eq_getElem hi)
        rw [List.getElem?_eq_getElem hi] at heq
        have hlater : (a :: rest)[j + 1]? = some (rest.filter p)[i] := hj
        have hlt := (List.getElem?_eq_some_iff.mp hlater).1
        exact List.nodup_iff_getElem?_ne_getElem?.mp hnd i (j + 1) (by omega) hlt
          (heq.trans hlater.symm)

end Ytl
