/-
One element after the other.

`fill` writes its range and nothing else.  `find`, `count` and `equal` are what lists have for
them: the first place of a value, the number of its places, and equality up to a length.  An
array that is turned around as a whole is the reverse of its list, and
`lexicographical_compare` is the order of lists.

These are the functions that the strings and the blocks of memory are compared with.  So they
are described in terms of lists, and an array with its length becomes the list of its
elements.
-/
import Ytl.Algorithm.Search
import Ytl.Proofs.Algorithm.Compare
import Ytl.Proofs.Algorithm.Rotate
import Ytl.Proofs.Algorithm.Sift

namespace Ytl.Algorithm

variable {α : Type} {t u : Array α} {n i : Nat}

/-- The element that is read is the first one of those that are left. -/
theorem read_drop (h : i < t.size) :
    ∃ a, read t i = .ok a ∧ t.toList.drop i = a :: t.toList.drop (i + 1) := by
  refine ⟨t[i], ?_, ?_⟩
  · rw [read_cells t[i] h, cells_eq t[i] h]
  · rw [List.drop_eq_getElem_cons (Array.length_toList ▸ h), Array.getElem_toList]

theorem reverse_list (l : List α) :
    reverse l.toArray 0 l.length = .ok l.reverse.toArray := by
  obtain ⟨t', ht', hdrawn⟩ := reverse_drawn (t := l.toArray) 0 l.length (by simp)
  rw [ht']
  refine congrArg Except.ok (Array.ext_getElem? fun k => ?_)
  rw [hdrawn.cell, List.getElem?_toArray, List.getElem?_toArray, mirror]
  by_cases hk : k < l.length
  · rw [List.getElem?_reverse hk, if_pos (by omega), Nat.zero_add, Nat.sub_zero]
  · rw [if_neg (by omega), List.getElem?_eq_none (Nat.not_lt.mp hk), List.getElem?_eq_none]
    rw [List.length_reverse]
    exact Nat.not_lt.mp hk

/-! ### Filling

A round writes the next cell.
-/

theorem fillLoop_filled (x : α) (off : Nat) :
    ∀ (left i : Nat) (t : Array α), off + (i + left) ≤ t.size →
      ∃ u, fillLoop off x left i t = .ok u ∧ u.size = t.size ∧
        (∀ j, i ≤ j → j < i + left → u[off + j]? = some x) ∧
        ∀ j, j < off + i ∨ off + (i + left) ≤ j → u[j]? = t[j]? := by
  intro left
  induction left with
  | zero =>
      intro i t _
      exact ⟨t, rfl, rfl, fun j hlo hhi => absurd hhi (Nat.not_lt.mpr hlo), fun j _ => rfl⟩
  | succ left ih =>
      intro i t hi
      have hlt : off + i < t.size := by omega
      obtain ⟨u, hu, hsize, hin, hout⟩ := ih (i + 1) (t.set (off + i) x)
        (by rw [Array.size_set]; omega)
      refine ⟨u, ?_, hsize.trans (Array.size_set hlt), fun j hlo hhi => ?_, fun j hj => ?_⟩
      · rw [fillLoop, write, dif_pos hlt, bind_of_ok]
        exact hu
      · rcases Nat.lt_or_eq_of_le hlo with hlater | rfl
        · exact hin j hlater (by omega)
        · rw [hout _ (by omega), Array.getElem?_set_self hlt]
      · rw [hout j (by omega), Array.getElem?_set_ne hlt (by omega)]

/-! ### Comparing

An array that is read up to a length, where it may be shorter, is its list up to that length.
-/

/-- As many elements of a list as there are, and no more than `count`. -/
def listSpan (xs : List α) (count : Nat) : Span α :=
  ⟨xs.toArray, min xs.length count, Nat.min_le_left _ _⟩

theorem listSpan_seq (xs : List α) (count : Nat) :
    (listSpan xs count).seq = fun i => (xs.take count)[i]? := by
  funext i
  by_cases hi : i < min xs.length count
  · rw [Span.seq_of_lt hi, List.getElem?_take_of_lt (Nat.lt_min.mp hi).2,
      List.getElem?_eq_getElem (Nat.lt_min.mp hi).1]
    rfl
  · rw [Span.seq_of_ge (Nat.not_lt.mp hi), List.getElem?_eq_none]
    rw [List.length_take, Nat.min_comm]
    exact Nat.not_lt.mp hi

variable [DecidableEq α]

theorem lexicographicalCompare_lists [LT α] [DecidableLT α] [@Std.Irrefl α (· < ·)]
    [@Std.Trichotomous α (· < ·)] (xs ys : List α) (count : Nat) :
    lexicographicalCompare xs.toArray (min xs.length count) ys.toArray (min ys.length count) =
      .ok (decide (xs.take count < ys.take count)) := by
  obtain ⟨r, hr, hless⟩ := lexicographicalCompare_spec (listSpan xs count) (listSpan ys count)
  rw [listSpan_seq, listSpan_seq, ← list_lt_iff] at hless
  exact hr.trans (congrArg Except.ok (Bool.eq_iff_iff.mpr (hless.trans decide_eq_true_iff.symm)))

/-! ### Finding and counting

Each loop is at an element, with the list of those that are left.
-/

theorem findLoop_eq (x : α) :
    ∀ (left i : Nat), i + left ≤ t.size →
      findLoop t x left i = .ok (i + ((t.toList.drop i).take left).idxOf x) := by
  intro left
  induction left with
  | zero =>
      intro i _
      rfl
  | succ left ih =>
      intro i hi
      obtain ⟨a, hread, hdrop⟩ := read_drop (t := t) (show i < t.size by omega)
      rw [findLoop, hread, bind_of_ok, hdrop, List.take_succ_cons, List.idxOf_cons]
      by_cases hx : a = x
      · rw [if_pos hx, beq_iff_eq.mpr hx]
        rfl
      · rw [if_neg hx, beq_eq_false_iff_ne.mpr hx, ih (i + 1) (by omega)]
        simp only [cond_false, Nat.add_assoc, Nat.add_comm 1]

theorem find_list (l : List α) (x : α) : find l.toArray l.length x = .ok (l.idxOf x) := by
  rw [find, findLoop_eq x l.length 0 (by simp), Nat.zero_add, List.drop_zero, List.take_length]

theorem countLoop_eq (x : α) :
    ∀ (left i c : Nat), i + left ≤ t.size →
      countLoop t x left i c = .ok (c + ((t.toList.drop i).take left).count x) := by
  intro left
  induction left with
  | zero =>
      intro i c _
      rfl
  | succ left ih =>
      intro i c hi
      obtain ⟨a, hread, hdrop⟩ := read_drop (t := t) (show i < t.size by omega)
      rw [countLoop, hread, bind_of_ok, ih (i + 1) _ (by omega), hdrop, List.take_succ_cons,
        List.count_cons]
      by_cases hx : a = x <;> simp [hx, Nat.add_assoc, Nat.add_comm 1]

theorem count_list (l : List α) (x : α) : count l.toArray l.length x = .ok (l.count x) := by
  rw [count, countLoop_eq x l.length 0 0 (by simp), Nat.zero_add, List.drop_zero, List.take_length]

theorem equalLoop_eq :
    ∀ (left i : Nat), i + left ≤ t.size → i + left ≤ u.size →
      equalLoop t u left i =
        .ok (decide ((t.toList.drop i).take left = (u.toList.drop i).take left)) := by
  intro left
  induction left with
  | zero =>
      intro i _ _
      rfl
  | succ left ih =>
      intro i ht hu
      obtain ⟨a, hread, hdrop⟩ := read_drop (t := t) (show i < t.size by omega)
      obtain ⟨b, hread', hdrop'⟩ := read_drop (t := u) (show i < u.size by omega)
      rw [equalLoop, hread, bind_of_ok, hread', bind_of_ok, hdrop, hdrop', List.take_succ_cons,
        List.take_succ_cons, ih (i + 1) (by omega) (by omega)]
      by_cases hab : a = b <;> simp [hab]

theorem equal_eq (ht : n ≤ t.size) (hu : n ≤ u.size) :
    equal t u n = .ok (decide (t.toList.take n = u.toList.take n)) := by
  rw [equal, equalLoop_eq n 0 (by omega) (by omega), List.drop_zero, List.drop_zero]

end Ytl.Algorithm
