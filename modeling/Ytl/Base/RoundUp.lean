/-
Rounding up to a power of two with a mask.

`(n + a - 1) & ~(a - 1)` is the least multiple of `a` that is not below `n`, as long as the
sum does not wrap.

The mask has ones from bit `k` on, where `a` is the `k`-th power of two, so it takes off what
the sum leaves when it is divided by `a`.  Where the sum wraps the result is a multiple still,
but a small one; that case is left to the callers, who have a bound on `n` or have not.
-/
import Mathlib.Algebra.Order.Ring.Int
import Mathlib.Data.BitVec

namespace Ytl.RoundUp

variable {w k : Nat}

theorem ofNat_pow_sub_one (w k : Nat) :
    BitVec.ofNat w (2 ^ k) - 1 = BitVec.ofNat w (2 ^ k - 1) := by
  have hpos : 0 < 2 ^ k := Nat.two_pow_pos k
  rw [show 2 ^ k = 2 ^ k - 1 + 1 by omega, BitVec.ofNat_add, Nat.add_sub_cancel]
  exact BitVec.add_sub_cancel _ _

/-- The mask takes off the lower `k` bits. -/
theorem and_not_mask (x : BitVec w) (k : Nat) :
    x &&& ~~~(BitVec.ofNat w (2 ^ k) - 1) = (x >>> k) <<< k := by
  rw [ofNat_pow_sub_one]
  apply BitVec.eq_of_getLsbD_eq
  intro i hi
  rw [BitVec.getLsbD_and, BitVec.getLsbD_not, BitVec.getLsbD_ofNat, Nat.testBit_two_pow_sub_one,
    BitVec.getLsbD_shiftLeft, BitVec.getLsbD_ushiftRight, decide_eq_true hi]
  by_cases hlow : i < k
  · simp [hlow]
  · rw [show k + (i - k) = i by omega]
    simp [hlow]

theorem toNat_and_not_mask (x : BitVec w) (k : Nat) :
    (x &&& ~~~(BitVec.ofNat w (2 ^ k) - 1)).toNat = x.toNat / 2 ^ k * 2 ^ k := by
  have hle : x.toNat / 2 ^ k * 2 ^ k ≤ x.toNat := Nat.div_mul_le_self _ _
  rw [and_not_mask, BitVec.toNat_shiftLeft, BitVec.toNat_ushiftRight, Nat.shiftLeft_eq,
    Nat.shiftRight_eq_div_pow, Nat.mod_eq_of_lt (hle.trans_lt x.isLt)]

/-- What rounding up comes to, with the sum before the mask. -/
theorem div_mul_bounds {a : Nat} (ha : 0 < a) (n : Nat) :
    a ∣ (n + a - 1) / a * a ∧ n ≤ (n + a - 1) / a * a ∧ (n + a - 1) / a * a < n + a := by
  have hdiv := Nat.div_add_mod (n + a - 1) a
  have hmod := Nat.mod_lt (n + a - 1) ha
  rw [Nat.mul_comm] at hdiv
  exact ⟨Nat.dvd_mul_left _ _, by omega, by omega⟩

end Ytl.RoundUp
