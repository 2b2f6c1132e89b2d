/-
A zero among the bytes of a word.

Taking one from each byte at once borrows from the next byte only below a byte that is 0, so
up to the first such byte the subtraction is done byte by byte.  There the highest bit of a
byte becomes set only if it was, and in the first byte that is 0 it becomes set although it
was not.

So the first byte that is 0 has a mark, and none in front of it has one.  Behind it a mark
means nothing, since the borrow may have made it: the test tells whether there is a zero in
the word, and a search that has to know where goes on byte by byte.

The proof is by induction on the bytes, from the lowest one up, the direction of the borrow.
-/
import Mathlib.Algebra.Order.Ring.Int
import Mathlib.Data.BitVec

namespace Ytl.ZeroByte

/-- A one in each of `n` bytes. -/
def ones : (n : Nat) → BitVec (8 * n)
  | 0 => 0
  | n + 1 => ones n ++ 1#8

/-- The highest bit of each of `n` bytes. -/
def highs : (n : Nat) → BitVec (8 * n)
  | 0 => 0
  | n + 1 => highs n ++ 0x80#8

/-- The highest bits that become set when one is taken from each byte. -/
def marks (n : Nat) (x : BitVec (8 * n)) : BitVec (8 * n) := (x - ones n) &&& ~~~x &&& highs n

section

variable {n : Nat}

theorem toNat_append_byte {w : Nat} (h : BitVec w) (l : BitVec 8) :
    (h ++ l).toNat = 2 ^ 8 * h.toNat + l.toNat := by
  rw [BitVec.toNat_append, ← Nat.shiftLeft_add_eq_or_of_lt l.isLt, Nat.shiftLeft_eq, Nat.mul_comm]

/-- No borrow from a byte that is not 0. -/
theorem append_sub_append {w : Nat} (h o : BitVec w) {l : BitVec 8} (hl : l ≠ 0) :
    (h ++ l) - (o ++ 1#8) = (h - o) ++ (l - 1#8) := by
  have hpos : 0 < l.toNat := by
    rcases Nat.eq_zero_or_pos l.toNat with hzero | hpos
    · exact absurd (BitVec.eq_of_toNat_eq hzero) hl
    · exact hpos
  have hlt := l.isLt
  have hh := h.isLt
  have ho := o.isLt
  have hlow : (l - 1#8).toNat = l.toNat - 1 := by
    rw [BitVec.toNat_sub]
    show (2 ^ 8 - 1 + l.toNat) % 2 ^ 8 = _
    omega
  apply BitVec.eq_of_toNat_eq
  rw [toNat_append_byte, hlow, BitVec.toNat_sub, BitVec.toNat_sub, toNat_append_byte,
    toNat_append_byte, show (1#8).toNat = 1 from rfl, Nat.pow_add]
  generalize 2 ^ w = a at hh ho
  by_cases hle : o.toNat ≤ h.toNat
  · rw [show a - o.toNat + h.toNat = h.toNat - o.toNat + a by omega, Nat.add_mod_right,
      Nat.mod_eq_of_lt (show h.toNat - o.toNat < a by omega),
      show a * 2 ^ 8 - (2 ^ 8 * o.toNat + 1) + (2 ^ 8 * h.toNat + l.toNat) =
        2 ^ 8 * (h.toNat - o.toNat) + (l.toNat - 1) + a * 2 ^ 8 by omega,
      Nat.add_mod_right, Nat.mod_eq_of_lt (by omega)]
  · rw [Nat.mod_eq_of_lt (show a - o.toNat + h.toNat < a by omega), Nat.mod_eq_of_lt (by omega)]
    omega

/-- A byte that is not 0 has no mark. -/
theorem marks_append (h : BitVec (8 * n)) {l : BitVec 8} (hl : l ≠ 0) :
    marks (n + 1) (h ++ l) = marks n h ++ 0#8 := by
  have hbyte : ∀ l : BitVec 8, l ≠ 0 → (l - 1#8) &&& ~~~l &&& 0x80#8 = 0#8 := by decide +kernel
  show ((h ++ l) - (ones n ++ 1#8)) &&& ~~~(h ++ l) &&& (highs n ++ 0x80#8) = _
  rw [append_sub_append h (ones n) hl, BitVec.not_append, BitVec.and_append, BitVec.and_append,
    hbyte l hl]
  rfl

/-- The lowest byte, when one is taken from a 0. -/
theorem setWidth_sub_append {w : Nat} (h o : BitVec w) :
    ((h ++ 0#8) - (o ++ 1#8)).setWidth 8 = 255#8 := by
  have ho := o.isLt
  apply BitVec.eq_of_toNat_eq
  rw [BitVec.toNat_setWidth, BitVec.toNat_sub, toNat_append_byte, toNat_append_byte, Nat.pow_add,
    Nat.mod_mod_of_dvd _ (Nat.dvd_mul_left _ _)]
  show (2 ^ w * 2 ^ 8 - (2 ^ 8 * o.toNat + 1) + (2 ^ 8 * h.toNat + 0)) % 2 ^ 8 = 255
  generalize 2 ^ w = a at ho
  omega

/-- The lowest byte has a mark if it is 0. -/
theorem marks_append_zero (h : BitVec (8 * n)) : marks (n + 1) (h ++ 0#8) ≠ 0 := by
  intro hzero
  have hbyte := congrArg (BitVec.setWidth 8) hzero
  change BitVec.setWidth 8
    (((h ++ 0#8) - (ones n ++ 1#8)) &&& ~~~(h ++ 0#8) &&& (highs n ++ 0x80#8)) = _ at hbyte
  rw [BitVec.setWidth_and, BitVec.setWidth_and, setWidth_sub_append, BitVec.not_append,
    BitVec.setWidth_append_eq_right, BitVec.setWidth_append_eq_right] at hbyte
  rw [show BitVec.setWidth 8 (0 : BitVec (8 * (n + 1))) = 0#8 by simp] at hbyte
  exact absurd hbyte (by decide)

/-- **There is a mark exactly when a byte is 0.** -/
theorem marks_eq_zero_iff : ∀ {n : Nat} (x : BitVec (8 * n)),
    marks n x = 0 ↔ ∀ i, i < n → x.extractLsb' (8 * i) 8 ≠ 0 := by
  intro n
  induction n with
  | zero =>
      intro x
      exact ⟨fun _ i hi => absurd hi (Nat.not_lt_zero i), fun _ => BitVec.eq_nil _⟩
  | succ n ih =>
      intro x
      obtain ⟨h, l, hx⟩ : ∃ (h : BitVec (8 * n)) (l : BitVec 8), x = h ++ l :=
        ⟨_, _, (BitVec.extractLsb'_append_extractLsb' (x := x)).symm⟩
      subst hx
      have hlow : (h ++ l).extractLsb' 0 8 = l := BitVec.extractLsb'_append_eq_right
      have hrest : ∀ i, (h ++ l).extractLsb' (8 * (i + 1)) 8 = h.extractLsb' (8 * i) 8 := by
        intro i
        rw [BitVec.extractLsb'_append_eq_of_le (by omega), Nat.mul_add, Nat.add_sub_cancel]
      by_cases hl : l = 0#8
      · constructor
        · intro hzero
          rw [hl] at hzero
          exact absurd hzero (marks_append_zero h)
        · intro hall
          exact absurd (hlow.trans hl) (hall 0 (Nat.succ_pos n))
      · have happend : marks n h ++ 0#8 = 0#(8 * n + 8) ↔ marks n h = 0 := by
          constructor
          · intro hzero
            rw [← BitVec.extractLsb'_append_eq_left (a := marks n h) (b := 0#8), hzero]
            simp
          · intro hzero
            rw [hzero]
            simp
        rw [marks_append h hl]
        refine happend.trans ((ih h).trans ⟨fun hall i hi => ?_, fun hall i hi => ?_⟩)
        · cases i with
          | zero =>
              rw [Nat.mul_zero, hlow]
              exact hl
          | succ i =>
              rw [hrest]
              exact hall i (by omega)
        · rw [← hrest]
          exact hall (i + 1) (by omega)

end

end Ytl.ZeroByte
