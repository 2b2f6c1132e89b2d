/-
Sets of numbers as bits of words.

`n` words of `w` bits hold a set of numbers below `n * w`: number `i` is bit `i % w` of word
`i / w`.  Setting or clearing one bit of one word adds or takes away one number, and the set
says everything about the words.

The words are what a bitmap is in memory, the set is what it is for.  With the two lemmas
about one bit a proof can be made about sets, where adding a number twice and taking away one
that is not there are nothing special, and be read as one about the words afterwards.
-/
import Mathlib.Algebra.Order.Ring.Int
import Mathlib.Data.BitVec
import Mathlib.Data.Finset.Range
import Mathlib.Logic.Function.Basic

namespace Ytl.WordSet

variable {n w : Nat} {f g : Fin n → BitVec w} {i b : Nat} {k : Fin n}

/-- Number `i` is in the set. -/
def bit (f : Fin n → BitVec w) (i : Nat) : Bool :=
  if h : i / w < n then (f ⟨i / w, h⟩).getLsbD (i % w) else false

/-- The set that the words hold. -/
def members (f : Fin n → BitVec w) : Finset Nat := (Finset.range (n * w)).filter fun i => bit f i

section

variable [NeZero w]

theorem lt_of_bit (h : bit f i = true) : i < n * w := by
  unfold bit at h
  split at h
  · rename_i hi
    exact (Nat.div_lt_iff_lt_mul (Nat.pos_of_neZero w)).mp hi
  · cases h

@[simp] theorem mem_members : i ∈ members f ↔ bit f i = true := by
  unfold members
  rw [Finset.mem_filter, Finset.mem_range]
  exact ⟨fun h => h.2, fun h => ⟨lt_of_bit h, h⟩⟩

theorem lt_of_mem (h : i ∈ members f) : i < n * w := lt_of_bit (mem_members.mp h)

/-- Bit `b` of word `k`. -/
theorem bit_place (f : Fin n → BitVec w) (k : Fin n) (hb : b < w) :
    bit f (k.val * w + b) = (f k).getLsbD b := by
  have hdiv : (k.val * w + b) / w = k.val := by
    rw [Nat.mul_comm, Nat.mul_add_div (Nat.pos_of_neZero w), Nat.div_eq_of_lt hb, Nat.add_zero]
  have hmod : (k.val * w + b) % w = b := by
    rw [Nat.mul_comm, Nat.mul_add_mod, Nat.mod_eq_of_lt hb]
  have hlt : (k.val * w + b) / w < n := by
    rw [hdiv]
    exact k.isLt
  have hword : (⟨(k.val * w + b) / w, hlt⟩ : Fin n) = k := Fin.ext hdiv
  unfold bit
  rw [dif_pos hlt, hword, hmod]

/-- Words with the same set are the same. -/
theorem members_injective (h : members f = members g) : f = g := by
  funext k
  ext b hb
  have hmem : k.val * w + b ∈ members f ↔ k.val * w + b ∈ members g := by rw [h]
  rw [mem_members, mem_members, bit_place f k hb, bit_place g k hb] at hmem
  exact Bool.eq_iff_iff.mpr hmem

/-- The numbers are the places of the bits. -/
theorem exists_place (hi : i < n * w) : ∃ (k : Fin n) (b : Nat), b < w ∧ i = k.val * w + b := by
  refine ⟨⟨i / w, (Nat.div_lt_iff_lt_mul (Nat.pos_of_neZero w)).mpr hi⟩, i % w,
    Nat.mod_lt _ (Nat.pos_of_neZero w), ?_⟩
  rw [Nat.mul_comm]
  exact (Nat.div_add_mod i w).symm

theorem place_eq {k' : Fin n} {b' : Nat} (hb : b < w) (hb' : b' < w) :
    k.val * w + b = k'.val * w + b' ↔ k = k' ∧ b = b' := by
  constructor
  · intro h
    have hk : k.val = k'.val := by
      have hdiv := congrArg (· / w) h
      simpa [Nat.mul_comm _ w, Nat.mul_add_div (Nat.pos_of_neZero w), Nat.div_eq_of_lt hb,
        Nat.div_eq_of_lt hb'] using hdiv
    rw [hk] at h
    exact ⟨Fin.ext hk, Nat.add_left_cancel h⟩
  · rintro ⟨rfl, rfl⟩
    rfl

/-- A set is told by its bits, word by word. -/
theorem members_eq_iff {s : Finset Nat} (hs : ∀ i ∈ s, i < n * w) :
    members f = s ↔ ∀ (k : Fin n) (b : Nat), b < w →
      ((f k).getLsbD b = true ↔ k.val * w + b ∈ s) := by
  constructor
  · rintro rfl k b hb
    rw [mem_members, bit_place f k hb]
  · intro h
    ext i
    constructor
    · intro hi
      obtain ⟨k, b, hb, rfl⟩ := exists_place (lt_of_mem hi)
      rw [mem_members, bit_place f k hb] at hi
      exact (h k b hb).mp hi
    · intro hi
      obtain ⟨k, b, hb, rfl⟩ := exists_place (hs i hi)
      rw [mem_members, bit_place f k hb]
      exact (h k b hb).mpr hi

end

/-! ### One bit

A number fixes its word and its bit, so the other numbers have another word, or another bit of
the same word, and are not touched.
-/

theorem getLsbD_one_shiftLeft (w : Nat) {b j : Nat} (hb : b < w) :
    ((1 : BitVec w) <<< b).getLsbD j = decide (b = j) := by
  have htwo : (1 : BitVec w) <<< b = BitVec.twoPow w b := rfl
  rw [htwo, BitVec.getLsbD_twoPow, decide_eq_true hb, Bool.true_and]

theorem place_lt (k : Fin n) (hb : b < w) : k.val * w + b < n * w := by
  have hnext : (k.val + 1) * w ≤ n * w := Nat.mul_le_mul_right w k.isLt
  rw [Nat.succ_mul] at hnext
  omega

section

variable [NeZero w]

/-- **Setting a bit adds its number.** -/
theorem members_set (f : Fin n → BitVec w) (k : Fin n) (hb : b < w) :
    members (Function.update f k (f k ||| (1 : BitVec w) <<< b)) =
      insert (k.val * w + b) (members f) := by
  rw [members_eq_iff]
  · intro k' j hj
    rw [Finset.mem_insert, mem_members, bit_place f k' hj, place_eq hj hb]
    by_cases hk : k' = k
    · subst hk
      rw [Function.update_self, BitVec.getLsbD_or, getLsbD_one_shiftLeft w hb, Bool.or_eq_true,
        decide_eq_true_iff, or_comm, eq_self, true_and, @eq_comm _ b j]
    · rw [Function.update_of_ne hk]
      simp [hk]
  · intro i hi
    rcases Finset.mem_insert.mp hi with rfl | hi
    · exact place_lt k hb
    · exact lt_of_mem hi

/-- **Clearing a bit takes its number away.** -/
theorem members_clear (f : Fin n → BitVec w) (k : Fin n) (hb : b < w) :
    members (Function.update f k (f k &&& ~~~((1 : BitVec w) <<< b))) =
      (members f).erase (k.val * w + b) := by
  rw [members_eq_iff]
  · intro k' j hj
    rw [Finset.mem_erase, mem_members, bit_place f k' hj, Ne, place_eq hj hb]
    by_cases hk : k' = k
    · subst hk
      rw [Function.update_self, BitVec.getLsbD_and, BitVec.getLsbD_not,
        getLsbD_one_shiftLeft w hb, decide_eq_true hj, Bool.true_and, Bool.and_eq_true,
        Bool.not_eq_true', decide_eq_false_iff_not, and_comm, eq_self, true_and, @eq_comm _ b j]
    · rw [Function.update_of_ne hk]
      simp [hk]
  · intro i hi
    exact lt_of_mem (Finset.mem_of_mem_erase hi)

end

end Ytl.WordSet
