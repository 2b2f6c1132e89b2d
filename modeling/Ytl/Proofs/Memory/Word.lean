/-
The bytes of a word.

A word is read as its bytes, from the lowest one up, so that the byte at an address is a part
of the word that is read there and two words are the same exactly when their bytes are.  That
is what lets a loop over words be compared with a loop over bytes.
-/
import Ytl.Memory.MemOp

namespace Ytl.Memory

theorem add_ofNat_add (a : Addr) (i j : Nat) :
    a + BitVec.ofNat 64 i + BitVec.ofNat 64 j = a + BitVec.ofNat 64 (i + j) := by
  rw [BitVec.ofNat_add, BitVec.add_assoc]

theorem next_place {p a : Addr} {i : Nat} (h : p = a + BitVec.ofNat 64 i) :
    p + 1 = a + BitVec.ofNat 64 (i + 1) := by
  rw [h]
  exact add_ofNat_add a i 1

/-- The bytes of a read are the ones it was made from. -/
theorem extract_loadBytes (m : Bytes) :
    ∀ (n : Nat) (a : Addr) (j : Nat), j < n →
      (loadBytes m n a).extractLsb' (8 * j) 8 = m (a + BitVec.ofNat 64 j) := by
  intro n
  induction n with
  | zero =>
      intro a j hj
      omega
  | succ n ih =>
      intro a j hj
      rw [loadBytes]
      cases j with
      | zero =>
          rw [show a + BitVec.ofNat 64 0 = a from BitVec.add_zero a]
          exact BitVec.extractLsb'_append_eq_right
      | succ j =>
          rw [Nat.add_comm j 1, ← add_ofNat_add]
          refine Eq.trans ?_ (ih (a + 1) j (by omega))
          rw [BitVec.extractLsb'_append_eq_of_le (by omega), Nat.mul_add, Nat.add_sub_cancel_left]

/-- Two reads give the same exactly when all their bytes are the same. -/
theorem loadBytes_eq_iff (m : Bytes) (n : Nat) (a b : Addr) :
    loadBytes m n a = loadBytes m n b ↔
      ∀ i, i < n → m (a + BitVec.ofNat 64 i) = m (b + BitVec.ofNat 64 i) := by
  constructor
  · intro heq i hi
    rw [← extract_loadBytes m n a i hi, ← extract_loadBytes m n b i hi, heq]
  · induction n generalizing a b with
    | zero =>
        intro _
        rfl
    | succ n ih =>
        intro hall
        have hrest : loadBytes m n (a + 1) = loadBytes m n (b + 1) := by
          refine ih (a + 1) (b + 1) fun i hi => ?_
          have hnext := hall (1 + i) (by omega)
          rw [← add_ofNat_add, ← add_ofNat_add] at hnext
          exact hnext
        have hfirst : m a = m b := by
          have hzero := hall 0 (Nat.succ_pos n)
          rwa [BitVec.add_zero, BitVec.add_zero] at hzero
        rw [loadBytes, loadBytes, hrest, hfirst]

theorem loadWord_eq_iff (m : Bytes) (a b : Addr) :
    loadWord m a = loadWord m b ↔
      ∀ i, i < 8 → m (a + BitVec.ofNat 64 i) = m (b + BitVec.ofNat 64 i) :=
  loadBytes_eq_iff m 8 a b

end Ytl.Memory
