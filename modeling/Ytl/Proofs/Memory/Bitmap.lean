/-
Bitmaps as sets of free slots.

`mark_bits_free` and `mark_bits_used` write one word for sizes below 128, and two words with
the same mask in both from there on.  So they do what they should to the slot they are given,
and from 128 on the same to the slot 64 further, which is only harmless when that slot is in
the state already; in the last word there is no slot 64 further, and they write behind the
bitmap.
-/
import Ytl.Base.WordSet
import Ytl.Memory.Pool

namespace Ytl.Memory.Allocator

variable {bmap : Bitmap} {idx size : Nat}

/-- The slots whose bits are set. -/
abbrev freeSlots (bmap : Bitmap) : Finset Nat := WordSet.members bmap

/-! ### Writing words

The two functions differ in how a word is changed: a bit is set or cleared.  That is left
open, so the word that is written, and the second one from 128 bytes on, are looked at once.
-/

/-- What the two functions do, with the change to a word left open. -/
def updateWords (change : BitVec 64 → BitVec 64) (bmap : Bitmap) (idx size : Nat) :
    Except Trap Bitmap := do
  let word ← wordRef (idx / bitsPerWord)
  if size ≥ 128 then
    let next ← wordRef (idx / bitsPerWord + 1)
    return Function.update (Function.update bmap word (change (bmap word))) next
      (change (bmap next))
  else
    return Function.update bmap word (change (bmap word))

theorem markBitsUsed_eq (bmap : Bitmap) (idx size : Nat) :
    markBitsUsed bmap idx size =
      updateWords (· &&& ~~~((1 : BitVec 64) <<< (idx % bitsPerWord))) bmap idx size := rfl

theorem markBitsFree_eq (bmap : Bitmap) (idx size : Nat) :
    markBitsFree bmap idx size =
      updateWords (· ||| (1 : BitVec 64) <<< (idx % bitsPerWord)) bmap idx size := by
  have hbit : ((1 <<< (idx % bitsPerWord) : Nat) : BitVec 64) =
      (1 : BitVec 64) <<< (idx % bitsPerWord) := by
    apply BitVec.eq_of_toNat_eq
    show (1 <<< (idx % bitsPerWord)) % 2 ^ 64 = _
    rw [BitVec.toNat_shiftLeft]
    rfl
  unfold markBitsFree updateWords
  rw [hbit]

theorem wordRef_of_lt {i : Nat} (h : i < bitmapWords) : wordRef i = .ok ⟨i, h⟩ := dif_pos h

theorem wordRef_error {i : Nat} (h : ¬ i < bitmapWords) : wordRef i = .error .outOfBounds :=
  dif_neg h

section Update

variable {change : BitVec 64 → BitVec 64} {act : Nat → Finset Nat → Finset Nat}

/-- The change to a word does to the set of slots what `act` says, for the bit of `idx`. -/
def ChangesBit (change : BitVec 64 → BitVec 64) (act : Nat → Finset Nat → Finset Nat)
    (idx : Nat) : Prop :=
  ∀ (bmap : Bitmap) (k : Fin bitmapWords),
    freeSlots (Function.update bmap k (change (bmap k))) =
      act (k.val * 64 + idx % bitsPerWord) (freeSlots bmap)

/-- **Below 128, one slot is changed.** -/
theorem updateWords_scalar (h : ChangesBit change act idx) (hidx : idx < 256)
    (hsize : size < 128) (bmap : Bitmap) :
    ∃ b, updateWords change bmap idx size = .ok b ∧
      freeSlots b = act idx (freeSlots bmap) := by
  have hword : idx / bitsPerWord < bitmapWords := show idx / 64 < 4 by omega
  have hplace : idx / bitsPerWord * 64 + idx % bitsPerWord = idx := Nat.div_add_mod' idx 64
  have hok : updateWords change bmap idx size =
      .ok (Function.update bmap ⟨_, hword⟩ (change (bmap ⟨_, hword⟩))) := by
    unfold updateWords
    rw [wordRef_of_lt hword, bind_of_ok, if_neg (Nat.not_le_of_lt hsize)]
    rfl
  refine ⟨_, hok, ?_⟩
  rw [h]
  show act (idx / bitsPerWord * 64 + idx % bitsPerWord) _ = _
  rw [hplace]

/-- **From 128 on, the slot 64 further is changed too.** -/
theorem updateWords_vector (h : ChangesBit change act idx) (hidx : idx < 192)
    (hsize : 128 ≤ size) (bmap : Bitmap) :
    ∃ b, updateWords change bmap idx size = .ok b ∧
      freeSlots b = act (idx + 64) (act idx (freeSlots bmap)) := by
  have hword : idx / bitsPerWord < bitmapWords := show idx / 64 < 4 by omega
  have hnext : idx / bitsPerWord + 1 < bitmapWords := show idx / 64 + 1 < 4 by omega
  have hplace : idx / bitsPerWord * 64 + idx % bitsPerWord = idx := Nat.div_add_mod' idx 64
  have hplace' : (idx / bitsPerWord + 1) * 64 + idx % bitsPerWord = idx + 64 := by omega
  have hne : (⟨idx / bitsPerWord + 1, hnext⟩ : Fin bitmapWords) ≠ ⟨_, hword⟩ := by
    intro heq
    exact absurd (Fin.val_eq_of_eq heq) (Nat.succ_ne_self _)
  have hok : updateWords change bmap idx size =
      .ok (Function.update (Function.update bmap ⟨_, hword⟩ (change (bmap ⟨_, hword⟩))) ⟨_, hnext⟩
        (change (bmap ⟨_, hnext⟩))) := by
    unfold updateWords
    rw [wordRef_of_lt hword, bind_of_ok, if_pos hsize, wordRef_of_lt hnext, bind_of_ok]
    rfl
  -- the second word is read before the first is written, but they are two words
  have hread : bmap ⟨_, hnext⟩ =
      Function.update bmap ⟨_, hword⟩ (change (bmap ⟨_, hword⟩)) ⟨_, hnext⟩ :=
    (Function.update_of_ne hne _ _).symm
  rw [hread] at hok
  refine ⟨_, hok, ?_⟩
  rw [h, h]
  show act ((idx / bitsPerWord + 1) * 64 + idx % bitsPerWord)
    (act (idx / bitsPerWord * 64 + idx % bitsPerWord) _) = _
  rw [hplace, hplace']

/-- In the last word there is no second one. -/
theorem updateWords_outside (hidx : idx < 256) (hlast : 192 ≤ idx) (hsize : 128 ≤ size)
    (change : BitVec 64 → BitVec 64) (bmap : Bitmap) :
    updateWords change bmap idx size = .error .outOfBounds := by
  have hword : idx / bitsPerWord < bitmapWords := show idx / 64 < 4 by omega
  have hnext : ¬ idx / bitsPerWord + 1 < bitmapWords := show ¬ idx / 64 + 1 < 4 by omega
  unfold updateWords
  rw [wordRef_of_lt hword, bind_of_ok, if_pos hsize, wordRef_error hnext, bind_of_error]

/-- The call changes the one slot it is given, as it does for sizes below 128. -/
def UpdatesOnly (change : BitVec 64 → BitVec 64) (act : Nat → Finset Nat → Finset Nat)
    (bmap : Bitmap) (idx size : Nat) : Prop :=
  ∃ b, updateWords change bmap idx size = .ok b ∧ updateWords change bmap idx 0 = .ok b ∧
    freeSlots b = act idx (freeSlots bmap)

theorem updatesOnly_iff (h : ChangesBit change act idx) (hidx : idx < 256) (bmap : Bitmap)
    (size : Nat) : UpdatesOnly change act bmap idx size ↔ size < 128 ∨
      idx < 192 ∧ act (idx + 64) (act idx (freeSlots bmap)) = act idx (freeSlots bmap) := by
  obtain ⟨b₀, hb₀, hslots₀⟩ := updateWords_scalar h hidx (show 0 < 128 by decide) bmap
  by_cases hsize : size < 128
  · obtain ⟨b, hb, hslots⟩ := updateWords_scalar h hidx hsize bmap
    have hsame : b = b₀ := WordSet.members_injective (hslots.trans hslots₀.symm)
    exact ⟨fun _ => Or.inl hsize, fun _ => ⟨b, hb, hsame ▸ hb₀, hslots⟩⟩
  · by_cases hlast : idx < 192
    · obtain ⟨b, hb, hslots⟩ := updateWords_vector h hlast (Nat.le_of_not_lt hsize) bmap
      constructor
      · rintro ⟨b', hb', -, hslots'⟩
        rw [Except.ok.inj (hb.symm.trans hb')] at hslots
        exact Or.inr ⟨hlast, hslots.symm.trans hslots'⟩
      · intro hcond
        have hact := (hcond.resolve_left hsize).2
        have hsame : b = b₀ :=
          WordSet.members_injective ((hslots.trans hact).trans hslots₀.symm)
        exact ⟨b, hb, hsame ▸ hb₀, hslots.trans hact⟩
    · constructor
      · rintro ⟨b, hb, -⟩
        rw [updateWords_outside hidx (Nat.le_of_not_lt hlast) (Nat.le_of_not_lt hsize)] at hb
        cases hb
      · intro hcond
        exact absurd (hcond.resolve_left hsize).1 hlast

end Update

/-! ### The two functions

A bit that is set already may be set again, and one that is clear be cleared again, which is
when the second word does no harm.
-/

theorem sets_bit (idx : Nat) :
    ChangesBit (· ||| (1 : BitVec 64) <<< (idx % bitsPerWord)) insert idx :=
  fun bmap k => WordSet.members_set bmap k (Nat.mod_lt idx (by decide))

theorem clears_bit (idx : Nat) :
    ChangesBit (· &&& ~~~((1 : BitVec 64) <<< (idx % bitsPerWord))) (fun i s => s.erase i) idx :=
  fun bmap k => WordSet.members_clear bmap k (Nat.mod_lt idx (by decide))

/-- `mark_bits_free` adds the slot and no other, and leaves the bitmap that it leaves when it
writes one word. -/
def FreesOnly (bmap : Bitmap) (idx size : Nat) : Prop :=
  ∃ b, markBitsFree bmap idx size = .ok b ∧ markBitsFree bmap idx 0 = .ok b ∧
    freeSlots b = insert idx (freeSlots bmap)

/-- `mark_bits_used` takes away the slot and no other, in the same way. -/
def UsesOnly (bmap : Bitmap) (idx size : Nat) : Prop :=
  ∃ b, markBitsUsed bmap idx size = .ok b ∧ markBitsUsed bmap idx 0 = .ok b ∧
    freeSlots b = (freeSlots bmap).erase idx

theorem freesOnly_iff (bmap : Bitmap) (hidx : idx < 256) (size : Nat) :
    FreesOnly bmap idx size ↔ size < 128 ∨ idx < 192 ∧ idx + 64 ∈ freeSlots bmap := by
  have hne : idx + 64 ≠ idx := by omega
  have hiff := updatesOnly_iff (sets_bit idx) hidx bmap size
  unfold UpdatesOnly at hiff
  simp only [← markBitsFree_eq] at hiff
  unfold FreesOnly
  rw [hiff, Finset.insert_eq_self, Finset.mem_insert, or_iff_right hne]

theorem usesOnly_iff (bmap : Bitmap) (hidx : idx < 256) (size : Nat) :
    UsesOnly bmap idx size ↔ size < 128 ∨ idx < 192 ∧ idx + 64 ∉ freeSlots bmap := by
  have hne : idx + 64 ≠ idx := by omega
  have hiff := updatesOnly_iff (clears_bit idx) hidx bmap size
  unfold UpdatesOnly at hiff
  simp only [← markBitsUsed_eq] at hiff
  unfold UsesOnly
  rw [hiff, Finset.erase_eq_self, Finset.mem_erase, not_and, forall_prop_of_true hne]

/--
**One slot is changed exactly in these cases.**  For every bitmap, every index below 256 and
every size, `mark_bits_free` adds the slot to the free ones and changes nothing else if and
only if the size is below 128, or the slot 64 further is in the bitmap and free already; and
`mark_bits_used` takes the slot away and changes nothing else if and only if the size is below
128, or the slot 64 further is in the bitmap and used already.
-/
theorem mark_bits_exact_iff (bmap : Bitmap) (idx size : Nat) (hidx : idx < 256) :
    (FreesOnly bmap idx size ↔ size < 128 ∨ idx < 192 ∧ idx + 64 ∈ freeSlots bmap) ∧
      (UsesOnly bmap idx size ↔ size < 128 ∨ idx < 192 ∧ idx + 64 ∉ freeSlots bmap) :=
  ⟨freesOnly_iff bmap hidx size, usesOnly_iff bmap hidx size⟩

/-- Of the first two words, the slots 3, 65 and 67 are free, and some of the last two are. -/
def scattered : Bitmap := fun i => BitVec.ofNat 64 ([8, 10, 240, 1].getD i.val 0)

/-- From 128 bytes on: slot 65 is free already when slot 1 is given back, slot 129 is used already
when slot 65 is taken, and slot 70 is still used when slot 6 is given back. -/
theorem mark_bits_exact_scattered :
    FreesOnly scattered 1 2048 ∧ UsesOnly scattered 65 2048 ∧ ¬ FreesOnly scattered 6 2048 := by
  refine ⟨(mark_bits_exact_iff scattered 1 2048 (by decide)).1.mpr (Or.inr ⟨by decide, ?_⟩),
    (mark_bits_exact_iff scattered 65 2048 (by decide)).2.mpr (Or.inr ⟨by decide, ?_⟩),
    fun hc => ?_⟩
  · rw [WordSet.mem_members]
    decide
  · rw [WordSet.mem_members]
    decide
  · obtain ⟨-, hfree⟩ :=
      ((mark_bits_exact_iff scattered 6 2048 (by decide)).1.mp hc).resolve_left (by decide)
    rw [WordSet.mem_members] at hfree
    exact absurd hfree (by decide)

/-- A slot of 2048 bytes is given back to a pool that has all its slots in use: slot 64 becomes
free with slot 0. -/
theorem mark_bits_two_slots :
    ¬ ∀ (bmap : Bitmap) (idx size : Nat), idx < 256 →
      FreesOnly bmap idx size ∧ UsesOnly bmap idx size := by
  intro hall
  have hcond := (freesOnly_iff clearBitmap (show 0 < 256 by decide) 2048).mp
    (hall clearBitmap 0 2048 (by decide)).1
  have hfree := (hcond.resolve_left (by decide)).2
  rw [WordSet.mem_members] at hfree
  exact absurd hfree (by decide)

end Ytl.Memory.Allocator
