/-
Slots and the requests they are for.

`alloc_small` finds the class of a request by the highest bit of `size - 1`; entry `c` of the
table has slots of `8 * 2^c` bytes, which is at least four times the request as long as the
16 bits of `slot_size` hold it.  From class 13 on they hold none of it: those slots have
0 bytes.

So there is far more room than is needed up to 8192 bytes, and none at all above.  The slots
of the classes from 9 on are larger than what a pool has behind its bitmap, but that is a
question of how many of them there are, and not one of whether a request fits into one.
-/
import Ytl.Proofs.Memory.Header

namespace Ytl.Memory.Allocator

variable {size : Nat}

/-! ### The table -/

/-- The slots of the classes `alloc_small` uses. -/
theorem slotSize_eq : ∀ c < 20, 6 ≤ c →
    (sizeClassTable c).slotSize.toNat = if c < 13 then 2 ^ (c + 3) else 0 := by
  decide +kernel

theorem six_le_smallClass (hlow : 64 < size) (hhigh : size < largeThreshold) :
    6 ≤ smallClass size := by
  rw [smallClass_eq hlow hhigh, Nat.le_log2 (by omega)]
  exact show 64 ≤ size - 1 by omega

/-- A request is no larger than the power of two behind its class. -/
theorem le_two_pow_smallClass (hlow : 64 < size) (hhigh : size < largeThreshold) :
    size ≤ 2 ^ (smallClass size + 1) := by
  have hnext : size - 1 < 2 ^ ((size - 1).log2 + 1) := Nat.lt_log2_self
  rw [← smallClass_eq hlow hhigh] at hnext
  omega

/-! ### Which requests fit -/

/-- A slot of the class has room for the header and the request, and is not of size 0. -/
def SlotCovers (size : Nat) : Prop :=
  headerSize.toNat + size ≤ (sizeClassTable (smallClass size)).slotSize.toNat ∧
    (sizeClassTable (smallClass size)).slotSize ≠ 0

instance (size : Nat) : Decidable (SlotCovers size) := inferInstanceAs (Decidable (_ ∧ _))

theorem smallClass_lt_thirteen (hlow : 64 < size) (hhigh : size < largeThreshold) :
    smallClass size < 13 ↔ size ≤ 8192 := by
  rw [smallClass_eq hlow hhigh, Nat.log2_lt (by omega)]
  omega

/-- The slots of a class below 13 are four times the bound of its requests, and the header is a
part of that. -/
theorem slot_room (hlow : 64 < size) (hhigh : size < largeThreshold)
    (hsmall : smallClass size < 13) :
    headerSize.toNat + size ≤ (sizeClassTable (smallClass size)).slotSize.toNat := by
  have hsix := six_le_smallClass hlow hhigh
  have hnext := le_two_pow_smallClass hlow hhigh
  have hheader : (64 : Nat) ≤ 2 ^ (smallClass size + 1) :=
    Nat.pow_le_pow_right (n := 2) (by decide) (show 6 ≤ smallClass size + 1 by omega)
  have hfour : 2 ^ (smallClass size + 3) = 4 * 2 ^ (smallClass size + 1) :=
    (Nat.pow_add 2 (smallClass size + 1) 2).trans (Nat.mul_comm _ _)
  rw [slotSize_eq (smallClass size) (smallClass_lt hlow hhigh) hsix, if_pos hsmall, hfour,
    show headerSize.toNat = 64 from rfl]
  omega

/--
**Size classes cover exactly the requests up to 8192 bytes.**  For every size that is handled
by `alloc_small`, the stored `slot_size` of its class is large enough for a header and the
request, and then not 0, if and only if the size is at most 8192.
-/
theorem slot_covers_iff (size : Nat) (hlow : tinyThreshold < size)
    (hhigh : size < largeThreshold) : SlotCovers size ↔ size ≤ 8192 := by
  have hslot := slotSize_eq (smallClass size) (smallClass_lt hlow hhigh)
    (six_le_smallClass hlow hhigh)
  rw [← smallClass_lt_thirteen hlow hhigh]
  constructor
  · rintro ⟨hroom, -⟩
    by_contra hbig
    rw [hslot, if_neg hbig] at hroom
    exact absurd hroom (Nat.not_le_of_lt (Nat.add_pos_left (by decide) size))
  · intro hsmall
    have hroom := slot_room hlow hhigh hsmall
    refine ⟨hroom, fun hzero => ?_⟩
    rw [hzero] at hroom
    exact absurd hroom (Nat.not_le_of_lt (Nat.add_pos_left (by decide) size))

theorem slot_covers_largest : SlotCovers 8192 :=
  (slot_covers_iff 8192 (by decide) (by decide)).mpr (Nat.le_refl _)

/-- One byte more, and the slots have 0 bytes. -/
theorem slot_covers_not :
    ¬ ∀ size, tinyThreshold < size → size < largeThreshold → SlotCovers size := by
  intro hall
  have hzero : (sizeClassTable (smallClass 8193)).slotSize = 0 := by decide +kernel
  exact (hall 8193 (by decide) (by decide)).2 hzero

end Ytl.Memory.Allocator
