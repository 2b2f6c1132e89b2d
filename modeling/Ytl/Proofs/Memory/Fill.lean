/-
`memset` fills.

One byte and one word fill one cell and eight, the word because its pattern is the same byte
eight times.  The loops are those of a copy, with one pointer that stays.

So nothing about loops has to be proved here.  A filling is a way of its own, in which any
length below the size of the memory is safe, and the loops go any way that composes; what is
left is that the pattern is made as it should be, out of an `int` of which only the low byte
counts.
-/
import Ytl.Proofs.Memory.Move

namespace Ytl.Memory

/-! ### The pattern

Four copies of the byte are put side by side by shifts, and the four of them twice.  Bit `i` of the
pattern is therefore bit `i % 8` of the byte.
-/

/-- Four times one byte. -/
theorem half_bit {w : BitVec 64} (hw : ∀ i, 8 ≤ i → w.getLsbD i = false) (i : Nat) :
    (w <<< 24 ||| w <<< 16 ||| w <<< 8 ||| w).getLsbD i =
      (decide (i < 32) && w.getLsbD (i % 8)) := by
  simp only [BitVec.getLsbD_or, BitVec.getLsbD_shiftLeft]
  grind

theorem fillPattern_bit (b : Byte) {i : Nat} (hi : i < 64) :
    (fillPattern b).getLsbD i = b.getLsbD (i % 8) := by
  have hw : ∀ i, 8 ≤ i → (b.setWidth 64).getLsbD i = false := by
    intro i hi
    rw [BitVec.getLsbD_setWidth, BitVec.getLsbD_of_ge b i hi, Bool.and_false]
  unfold fillPattern
  rw [BitVec.getLsbD_or, BitVec.getLsbD_shiftLeft, half_bit hw, half_bit hw,
    BitVec.getLsbD_setWidth, BitVec.getLsbD_setWidth]
  grind

theorem fillPattern_byte (b : Byte) {j : Nat} (hj : j < 8) :
    (fillPattern b).extractLsb' (8 * j) 8 = b := by
  ext i hi
  rw [BitVec.getElem_extractLsb', fillPattern_bit b (by omega), Nat.mul_add_mod,
    Nat.mod_eq_of_lt hi, BitVec.getLsbD_eq_getElem hi]

theorem storeByte_filled (m : Bytes) (d : Addr) (b : Byte) :
    storeByte m d b = filled 1 d b m := by
  funext a
  unfold storeByte filled
  by_cases heq : a = d
  · rw [if_pos heq, if_pos (sub_lt_one_iff.mpr heq)]
  · rw [if_neg heq, if_neg (mt sub_lt_one_iff.mp heq)]

theorem storeWord_filled (m : Bytes) (d : Addr) (b : Byte) :
    storeWord m d (fillPattern b) = filled 8 d b m := by
  funext a
  unfold storeWord filled
  by_cases hlt : (a - d).toNat < 8
  · rw [if_pos hlt, if_pos hlt, fillPattern_byte b hlt]
  · rw [if_neg hlt, if_neg hlt]

/-! ### The loops

The second pointer of a cursor is not used.
-/

/-- `k` bytes have been filled, and one pointer has moved. -/
structure Cursor.Filled (b : Byte) (k : Nat) (c c' : Cursor) : Prop where
  mem : c'.mem = filled k c.d b c.mem
  d : c'.d = c.d + BitVec.ofNat 64 k

theorem fillByte_filled (b : Byte) (c : Cursor) : Cursor.Filled b 1 c (c.fillByte b) :=
  ⟨storeByte_filled _ _ _, rfl⟩

theorem fillWord_filled (b : Byte) (c : Cursor) :
    Cursor.Filled b 8 c (c.fillWord (fillPattern b)) := ⟨storeWord_filled _ _ _, rfl⟩

theorem way_fill (b : Byte) : Cursor.Way (fun n _ => n ≤ 2 ^ 64) (Cursor.Filled b) := by
  refine ⟨fun c => ⟨by simp, by simp⟩, ?_, fun h _ => Nat.le_trans (Nat.le_add_left _ _) h,
    fun h hk => Nat.le_trans hk h⟩
  intro k l c c' c'' hsafe h h'
  refine ⟨?_, ?_⟩
  · rw [h'.mem, h.d, h.mem]
    exact filled_filled hsafe
  · rw [h'.d, h.d, BitVec.ofNat_add]
    ring

theorem memset_filled (m : Bytes) (s : Addr) (c : Int) (count : Nat) (hcount : count ≤ 2 ^ 64) :
    ∃ r, memset m s c count = .ok (s, r) ∧
      r.cursor.mem = filled count s (BitVec.ofInt 8 c) m ∧ r.NoWrap := by
  obtain ⟨r, hr, hfilled, hwrap⟩ := run_went (way_fill (BitVec.ofInt 8 c))
    (fillByte_filled _) (fillWord_filled _) (fun d => -d) (c := ⟨⟨m, s, s⟩, count, []⟩) hcount
    (fun p hp => absurd hp List.not_mem_nil)
  refine ⟨r, ?_, hfilled.mem, hwrap⟩
  show (Copy.runShort (Cursor.fillByte _) (Cursor.fillWord _) _ >>= _) = _
  rw [runShort_eq, hr]
  rfl

/--
**`memset` fills its range and nothing else.**  For a range that does not wrap it returns
`s`; each byte of the range is `c mod 256`, every other byte is unchanged, and no
subtraction from the length wraps.
-/
theorem memset_correct (m : Bytes) (s : Addr) (c : Int) (count : Nat)
    (hs : s.toNat + count ≤ 2 ^ 64) :
    ∃ r, memset m s c count = .ok (s, r) ∧
      (∀ i, i < count → (r.cursor.mem (s + BitVec.ofNat 64 i)).toNat = c % 256) ∧
      (∀ a, (∀ i, i < count → a ≠ s + BitVec.ofNat 64 i) → r.cursor.mem a = m a) ∧
      ∀ p ∈ r.spent, p.2 ≤ p.1 := by
  obtain ⟨r, hr, hmem, hwrap⟩ := memset_filled m s c count (by omega)
  refine ⟨r, hr, fun i hi => ?_, fun a ha => ?_, hwrap⟩
  · rw [hmem, filled_inside hi (by omega), BitVec.toNat_ofInt]
    omega
  · rw [hmem]
    exact filled_outside ha

/-- Twenty bytes from an odd address on, with a negative `int`. -/
theorem memset_correct_negative :
    ∃ r, memset (fun a => a.setWidth 8) 101 (-2) 20 = .ok (101, r) ∧
      (∀ i, i < 20 → (r.cursor.mem (101 + BitVec.ofNat 64 i)).toNat = (-2 : Int) % 256) ∧
      (∀ a, (∀ i, i < 20 → a ≠ 101 + BitVec.ofNat 64 i) → r.cursor.mem a = a.setWidth 8) ∧
      ∀ p ∈ r.spent, p.2 ≤ p.1 :=
  memset_correct (fun a => a.setWidth 8) 101 (-2) 20 (by decide)

end Ytl.Memory
