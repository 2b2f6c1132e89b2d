/-
`memmove` and `memcpy` move.

One byte and one word are moves of one and of eight cells, and so is every loop around
them: a copy upwards does the front first, a copy downwards the back first.  The code
takes the way down exactly when the destination begins inside the source, and with two
ranges that do not wrap each way is safe where it is taken.

The loops are proved once for both ways, for any relation between cursors that composes
as long as a length is safe.
-/
import Ytl.Base.CellMove
import Ytl.Proofs.Memory.Word

namespace Ytl.Memory

/-! ### One byte and one word

A word is loaded before it is stored, so a word that overlaps with itself is no problem.
-/

theorem storeByte_moved (m : Bytes) (d s : Addr) : storeByte m d (m s) = moved 1 d s m := by
  funext a
  unfold storeByte moved
  by_cases heq : a = d
  · rw [if_pos heq, if_pos (sub_lt_one_iff.mpr heq), heq, BitVec.sub_self]
    exact congrArg m (BitVec.add_zero s).symm
  · rw [if_neg heq, if_neg (mt sub_lt_one_iff.mp heq)]

theorem storeWord_moved (m : Bytes) (d s : Addr) :
    storeWord m d (loadWord m s) = moved 8 d s m := by
  funext a
  unfold storeWord moved
  by_cases hlt : (a - d).toNat < 8
  · rw [if_pos hlt, if_pos hlt, loadWord, extract_loadBytes m 8 s _ hlt, BitVec.ofNat_toNat,
      BitVec.setWidth_eq]
  · rw [if_neg hlt, if_neg hlt]

/-! ### The two ways

A way is a relation between the cursor before and after some bytes, with a condition on the
whole length under which two parts of it compose.  Going up the pointers are at the beginning
of what is left, going down at its end.
-/

namespace Cursor

/-- `k` bytes have been copied upwards. -/
structure Rose (k : Nat) (c c' : Cursor) : Prop where
  mem : c'.mem = moved k c.d c.s c.mem
  d : c'.d = c.d + BitVec.ofNat 64 k
  s : c'.s = c.s + BitVec.ofNat 64 k

/-- `k` bytes have been copied downwards. -/
structure Sank (k : Nat) (c c' : Cursor) : Prop where
  mem : c'.mem = moved k (c.d - BitVec.ofNat 64 k) (c.s - BitVec.ofNat 64 k) c.mem
  d : c'.d = c.d - BitVec.ofNat 64 k
  s : c'.s = c.s - BitVec.ofNat 64 k

/-- Copies of one way compose as long as the whole length is safe. -/
structure Way (Safe : Nat → Cursor → Prop) (Went : Nat → Cursor → Cursor → Prop) : Prop where
  zero : ∀ c, Went 0 c c
  trans : ∀ {k l : Nat} {c c' c'' : Cursor}, Safe (k + l) c → Went k c c' → Went l c' c'' →
    Went (k + l) c c''
  safe : ∀ {k l : Nat} {c c' : Cursor}, Safe (k + l) c → Went k c c' → Safe l c'
  mono : ∀ {k n : Nat} {c : Cursor}, Safe n c → k ≤ n → Safe k c

/-- Going up, no byte is written before it is read. -/
def SafeUp (n : Nat) (c : Cursor) : Prop := (c.s - c.d).toNat + n ≤ 2 ^ 64

/-- Going down, no byte is. -/
def SafeDown (n : Nat) (c : Cursor) : Prop := (c.d - c.s).toNat + n ≤ 2 ^ 64

theorem way_up : Way SafeUp Rose := by
  refine ⟨fun c => ⟨by simp, by simp, by simp⟩, ?_, ?_, fun h hk => Nat.le_trans (by omega) h⟩
  · intro k l c c' c'' hsafe h h'
    refine ⟨?_, ?_, ?_⟩
    · rw [h'.mem, h.d, h.s, h.mem]
      exact moved_forward hsafe
    · rw [h'.d, h.d, BitVec.ofNat_add]
      ring
    · rw [h'.s, h.s, BitVec.ofNat_add]
      ring
  · intro k l c c' hsafe h
    unfold SafeUp at hsafe ⊢
    rw [h.d, h.s, show c.s + BitVec.ofNat 64 k - (c.d + BitVec.ofNat 64 k) = c.s - c.d by ring]
    omega

theorem way_down : Way SafeDown Sank := by
  refine ⟨fun c => ⟨by simp, by simp, by simp⟩, ?_, ?_, fun h hk => Nat.le_trans (by omega) h⟩
  · intro k l c c' c'' hsafe h h'
    refine ⟨?_, ?_, ?_⟩
    · -- seen from the lower end, the part done first is the back
      have hback : ∀ x : Addr, x - BitVec.ofNat 64 k =
          x - BitVec.ofNat 64 (k + l) + BitVec.ofNat 64 l := by
        intro x
        rw [BitVec.ofNat_add]
        ring
      have hfront : ∀ x : Addr, x - BitVec.ofNat 64 k - BitVec.ofNat 64 l =
          x - BitVec.ofNat 64 (k + l) := by
        intro x
        rw [BitVec.ofNat_add]
        ring
      rw [h'.mem, h.d, h.s, h.mem, hfront, hfront, hback c.d, hback c.s, moved_backward,
        Nat.add_comm l k]
      rw [show c.d - BitVec.ofNat 64 (k + l) - (c.s - BitVec.ofNat 64 (k + l)) = c.d - c.s by ring,
        Nat.add_comm l k]
      exact hsafe
    · rw [h'.d, h.d, BitVec.ofNat_add]
      ring
    · rw [h'.s, h.s, BitVec.ofNat_add]
      ring
  · intro k l c c' hsafe h
    unfold SafeDown at hsafe ⊢
    rw [h.d, h.s, show c.d - BitVec.ofNat 64 k - (c.s - BitVec.ofNat 64 k) = c.d - c.s by ring]
    omega

theorem byteUp_rose (c : Cursor) : Rose 1 c c.byteUp := ⟨storeByte_moved _ _ _, rfl, rfl⟩

theorem wordUp_rose (c : Cursor) : Rose 8 c c.wordUp := ⟨storeWord_moved _ _ _, rfl, rfl⟩

theorem byteDown_sank (c : Cursor) : Sank 1 c c.byteDown := ⟨storeByte_moved _ _ _, rfl, rfl⟩

theorem wordDown_sank (c : Cursor) : Sank 8 c c.wordDown := ⟨storeWord_moved _ _ _, rfl, rfl⟩

end Cursor

/-! ### The loops, in either way

A copy does single bytes until the destination is aligned, then words, then the bytes that are
left, and each part is a loop over what one round does.
-/

section Loops

variable {Safe : Nat → Cursor → Prop} {Went : Nat → Cursor → Cursor → Prop}
  {byte word : Cursor → Cursor}

theorem bytes_went (way : Cursor.Way Safe Went) (hbyte : ∀ c, Went 1 c (byte c)) :
    ∀ (n : Nat) (c : Cursor), Safe n c → Went n c (c.bytes byte n) := by
  intro n
  induction n with
  | zero =>
      intro c _
      exact way.zero c
  | succ n ih =>
      intro c hsafe
      rw [Nat.add_comm] at hsafe
      have hrest : Went n (byte c) (c.bytes byte (n + 1)) :=
        ih (byte c) (way.safe hsafe (hbyte c))
      rw [Nat.add_comm n 1] at hrest ⊢
      exact way.trans hsafe (hbyte c) hrest

/-- No subtraction so far has wrapped. -/
def Copy.NoWrap (c : Copy) : Prop := ∀ p ∈ c.spent, p.2 ≤ p.1

theorem spend_count {c : Copy} {k : Nat} (hk : k ≤ c.count) :
    (c.spend k).count = c.count - k := if_pos hk

theorem spend_noWrap {c : Copy} {k : Nat} (h : c.NoWrap) (hk : k ≤ c.count) :
    (c.spend k).NoWrap := by
  intro p hp
  rcases List.mem_append.mp hp with hold | hnew
  · exact h p hold
  · rw [List.mem_singleton.mp hnew]
    exact hk

theorem words_went (way : Cursor.Way Safe Went) (hword : ∀ c, Went 8 c (word c)) :
    ∀ (fuel : Nat) (c : Copy), c.count < fuel → Safe c.count c.cursor → c.NoWrap →
      ∃ k c', Copy.words word fuel c = .ok c' ∧ k + c'.count = c.count ∧
        Went k c.cursor c'.cursor ∧ c'.NoWrap := by
  intro fuel
  induction fuel with
  | zero =>
      intro c hfuel
      omega
  | succ fuel ih =>
      intro c hfuel hsafe hwrap
      rw [Copy.words]
      by_cases hmore : c.count ≥ 8
      · rw [if_pos hmore]
        have hcount : (c.spend 8).count = c.count - 8 := spend_count hmore
        have hsum : 8 + (c.count - 8) = c.count := by omega
        rw [← hsum] at hsafe
        obtain ⟨k, c', hc', hk, hwent, hwrap'⟩ :=
          ih { c.spend 8 with cursor := word c.cursor } (by dsimp only; omega)
            (by dsimp only; rw [hcount]; exact way.safe hsafe (hword c.cursor))
            (spend_noWrap hwrap hmore)
        dsimp only at hk hwent
        refine ⟨8 + k, c', hc', by omega, ?_, hwrap'⟩
        exact way.trans (way.mono hsafe (by omega)) (hword c.cursor) hwent
      · rw [if_neg hmore]
        exact ⟨0, c, rfl, Nat.zero_add _, way.zero _, hwrap⟩

/-- The bytes before the words, and the words. -/
theorem alignedWords_went (way : Cursor.Way Safe Went) (hbyte : ∀ c, Went 1 c (byte c))
    (hword : ∀ c, Went 8 c (word c)) {align : Nat} {c : Copy} (halign : align ≤ c.count)
    (hsafe : Safe c.count c.cursor) (hwrap : c.NoWrap) :
    ∃ k c', Copy.alignedWords byte word align c = .ok c' ∧ k + c'.count = c.count ∧
      Went k c.cursor c'.cursor ∧ c'.NoWrap := by
  have hcount : (c.spend align).count = c.count - align := spend_count halign
  have hfirst := bytes_went way hbyte align c.cursor (way.mono hsafe halign)
  rw [show c.count = align + (c.count - align) by omega] at hsafe
  obtain ⟨k, c', hc', hk, hwent, hwrap'⟩ := words_went way hword ((c.spend align).count + 1)
    { c.spend align with cursor := c.cursor.bytes byte align } (Nat.lt_succ_self _)
    (by dsimp only; rw [hcount]; exact way.safe hsafe hfirst) (spend_noWrap hwrap halign)
  dsimp only at hk hwent
  refine ⟨align + k, c', hc', by omega, ?_, hwrap'⟩
  exact way.trans (way.mono hsafe (by omega)) hfirst hwent

/-- **A whole copy in one way.** -/
theorem run_went (way : Cursor.Way Safe Went) (hbyte : ∀ c, Went 1 c (byte c))
    (hword : ∀ c, Went 8 c (word c)) (align : Addr → Addr) {c : Copy}
    (hsafe : Safe c.count c.cursor) (hwrap : c.NoWrap) :
    ∃ c', Copy.run align byte word c = .ok c' ∧ Went c.count c.cursor c'.cursor ∧ c'.NoWrap := by
  unfold Copy.run
  by_cases hlong : c.count ≥ 8
  · rw [if_pos hlong]
    have halign : (align c.cursor.d &&& 7).toNat ≤ c.count := by
      rw [BitVec.toNat_and]
      exact Nat.and_le_right.trans (show 7 ≤ c.count by omega)
    obtain ⟨k, c', hc', hk, hwent, hwrap'⟩ :=
      alignedWords_went way hbyte hword halign hsafe hwrap
    rw [hc', bind_of_ok]
    refine ⟨_, rfl, ?_, hwrap'⟩
    rw [← hk] at hsafe ⊢
    exact way.trans hsafe hwent (bytes_went way hbyte c'.count c'.cursor (way.safe hsafe hwent))
  · rw [if_neg hlong]
    exact ⟨_, rfl, bytes_went way hbyte c.count c.cursor hsafe, hwrap⟩

/-- A short length makes no difference. -/
theorem runShort_eq (byte word : Cursor → Cursor) (c : Copy) :
    Copy.runShort byte word c = Copy.run (fun d => -d) byte word c := by
  unfold Copy.runShort Copy.run
  by_cases hshort : c.count < 8
  · rw [if_pos hshort, if_neg (by omega)]
    rfl
  · rw [if_neg hshort, if_pos (by omega)]

end Loops

/-! ### `memmove`

The way down is taken where the destination begins inside the source.  Where the sum in that
comparison wraps, the source ends with the addresses, and no destination that fits begins in it.
-/

variable {m : Bytes} {dest src : Addr} {count : Nat}

/-- Not taking the way down, the destination does not begin inside the source. -/
theorem safeUp_of_branch (hd : dest.toNat + count ≤ 2 ^ 64) (hs : src.toNat + count ≤ 2 ^ 64)
    (hbranch : ¬ (src < dest ∧ dest < src + BitVec.ofNat 64 count)) :
    Cursor.SafeUp count ⟨m, dest, src⟩ := by
  have hdlt := dest.isLt
  have hslt := src.isLt
  show (src - dest).toNat + count ≤ 2 ^ 64
  rw [BitVec.toNat_sub]
  by_cases hle : dest.toNat ≤ src.toNat
  · rw [show 2 ^ 64 - dest.toNat + src.toNat = src.toNat - dest.toNat + 2 ^ 64 by omega,
      Nat.add_mod_right, Nat.mod_eq_of_lt (by omega)]
    omega
  · have hfar : src.toNat + count ≤ dest.toNat := by
      by_contra hc
      apply hbranch
      refine ⟨BitVec.lt_def.mpr (by omega), BitVec.lt_def.mpr ?_⟩
      rw [BitVec.toNat_add, BitVec.toNat_ofNat, Nat.mod_eq_of_lt (show count < 2 ^ 64 by omega),
        Nat.mod_eq_of_lt (by omega)]
      omega
    rw [Nat.mod_eq_of_lt (by omega)]
    omega

theorem safeDown_of_branch (hd : dest.toNat + count ≤ 2 ^ 64) (hlt : src < dest) (n : Addr) :
    Cursor.SafeDown count ⟨m, dest + n, src + n⟩ := by
  have hlt' := BitVec.lt_def.mp hlt
  have hdlt := dest.isLt
  show (dest + n - (src + n)).toNat + count ≤ 2 ^ 64
  rw [show dest + n - (src + n) = dest - src by ring, BitVec.toNat_sub,
    show 2 ^ 64 - src.toNat + dest.toNat = dest.toNat - src.toNat + 2 ^ 64 by omega,
    Nat.add_mod_right, Nat.mod_eq_of_lt (by omega)]
  omega

/-- **`memmove` is a move**, whatever the two ranges have in common. -/
theorem memmove_moved (m : Bytes) (dest src : Addr) (count : Nat)
    (hd : dest.toNat + count ≤ 2 ^ 64) (hs : src.toNat + count ≤ 2 ^ 64) :
    ∃ c, memmove m dest src count = .ok (dest, c) ∧ c.cursor.mem = moved count dest src m ∧
      c.NoWrap := by
  have hnone : ∀ c : Cursor, Copy.NoWrap ⟨c, count, []⟩ := by
    intro c p hp
    exact absurd hp List.not_mem_nil
  unfold memmove
  by_cases htrivial : dest = src ∨ count = 0
  · rw [if_pos htrivial]
    refine ⟨_, rfl, ?_, hnone _⟩
    rcases htrivial with rfl | rfl
    · funext a
      simp [moved]
    · rw [moved_zero]
  · rw [if_neg htrivial]
    by_cases hbranch : src < dest ∧ dest < src + BitVec.ofNat 64 count
    · rw [if_pos hbranch]
      obtain ⟨c, hc, hwent, hwrap⟩ := run_went Cursor.way_down Cursor.byteDown_sank
        Cursor.wordDown_sank (fun d => d)
        (c := ⟨⟨m, dest + BitVec.ofNat 64 count, src + BitVec.ofNat 64 count⟩, count, []⟩)
        (safeDown_of_branch hd hbranch.1 _) (hnone _)
      refine ⟨c, ?_, ?_, hwrap⟩
      · show (Copy.run _ _ _ _ >>= _) = _
        rw [hc]
        rfl
      · rw [hwent.mem]
        dsimp only
        rw [BitVec.add_sub_cancel, BitVec.add_sub_cancel]
    · rw [if_neg hbranch]
      obtain ⟨c, hc, hwent, hwrap⟩ := run_went Cursor.way_up Cursor.byteUp_rose
        Cursor.wordUp_rose (fun d => -d) (c := ⟨⟨m, dest, src⟩, count, []⟩)
        (safeUp_of_branch hd hs hbranch) (hnone _)
      refine ⟨c, ?_, hwent.mem, hwrap⟩
      show (Copy.run _ _ _ _ >>= _) = _
      rw [hc]
      rfl

/--
**`memmove` for every overlap.**  For two ranges that do not wrap it returns `dest`; the
destination holds what the source held, every other byte is unchanged, and no
subtraction from the length wraps.
-/
theorem memmove_correct (m : Bytes) (dest src : Addr) (count : Nat)
    (hd : dest.toNat + count ≤ 2 ^ 64) (hs : src.toNat + count ≤ 2 ^ 64) :
    ∃ c, memmove m dest src count = .ok (dest, c) ∧
      (∀ i, i < count →
        c.cursor.mem (dest + BitVec.ofNat 64 i) = m (src + BitVec.ofNat 64 i)) ∧
      (∀ a, (∀ i, i < count → a ≠ dest + BitVec.ofNat 64 i) → c.cursor.mem a = m a) ∧
      ∀ p ∈ c.spent, p.2 ≤ p.1 := by
  obtain ⟨c, hc, hmem, hwrap⟩ := memmove_moved m dest src count hd hs
  refine ⟨c, hc, fun i hi => ?_, fun a ha => ?_, hwrap⟩
  · rw [hmem]
    exact moved_inside hi (by omega)
  · rw [hmem]
    exact moved_outside ha

/-- Twenty-one bytes, three addresses up. -/
theorem memmove_correct_overlap :
    ∃ c, memmove (fun a => a.setWidth 8) 103 100 21 = .ok (103, c) ∧
      (∀ i, i < 21 → c.cursor.mem (103 + BitVec.ofNat 64 i) =
        (100 + BitVec.ofNat 64 i).setWidth 8) ∧
      (∀ a, (∀ i, i < 21 → a ≠ 103 + BitVec.ofNat 64 i) → c.cursor.mem a = a.setWidth 8) ∧
      ∀ p ∈ c.spent, p.2 ≤ p.1 :=
  memmove_correct (fun a => a.setWidth 8) 103 100 21 (by decide) (by decide)

/-! ### `memcpy`

`memcpy` only ever goes up, which is safe where the ranges have nothing in common.
-/

/-- Two ranges with nothing in common may be copied upwards. -/
theorem safeUp_of_disjoint
    (h : ∀ i j, i < count → j < count → dest + BitVec.ofNat 64 i ≠ src + BitVec.ofNat 64 j) :
    Cursor.SafeUp count ⟨m, dest, src⟩ := by
  show (src - dest).toNat + count ≤ 2 ^ 64
  by_contra hc
  have hlt := (src - dest).isLt
  -- the destination begins `2 ^ 64 - (src - dest)` bytes behind the source
  by_cases hzero : (src - dest).toNat = 0
  · have heq : src = dest := sub_eq_zero.mp (BitVec.eq_of_toNat_eq hzero)
    exact h 0 0 (by omega) (by omega) (by rw [heq])
  · apply h 0 (2 ^ 64 - (src - dest).toNat) (by omega) (by omega)
    rw [add_ofNat_back]
    exact BitVec.add_zero dest

theorem memcpy_moved (m : Bytes) (dest src : Addr) (count : Nat)
    (h : ∀ i j, i < count → j < count → dest + BitVec.ofNat 64 i ≠ src + BitVec.ofNat 64 j) :
    ∃ c, memcpy m dest src count = .ok (dest, c) ∧ c.cursor.mem = moved count dest src m := by
  obtain ⟨c, hc, hwent, -⟩ := run_went Cursor.way_up Cursor.byteUp_rose Cursor.wordUp_rose
    (fun d => -d) (c := ⟨⟨m, dest, src⟩, count, []⟩) (safeUp_of_disjoint h)
    (fun p hp => absurd hp List.not_mem_nil)
  refine ⟨c, ?_, hwent.mem⟩
  unfold memcpy
  rw [runShort_eq, hc, bind_of_ok, pure_is_ok]

/--
**`memcpy` and `memmove` agree on disjoint ranges.**  Both return `dest` and leave the same
memory, in which the destination holds what the source held and nothing else has changed.
-/
theorem memcpy_eq_memmove (m : Bytes) (dest src : Addr) (count : Nat)
    (hd : dest.toNat + count ≤ 2 ^ 64) (hs : src.toNat + count ≤ 2 ^ 64)
    (h : ∀ i j, i < count → j < count → dest + BitVec.ofNat 64 i ≠ src + BitVec.ofNat 64 j) :
    ∃ c c', memcpy m dest src count = .ok (dest, c) ∧ memmove m dest src count = .ok (dest, c') ∧
      c.cursor.mem = c'.cursor.mem ∧
      (∀ i, i < count →
        c.cursor.mem (dest + BitVec.ofNat 64 i) = m (src + BitVec.ofNat 64 i)) ∧
      ∀ a, (∀ i, i < count → a ≠ dest + BitVec.ofNat 64 i) → c.cursor.mem a = m a := by
  obtain ⟨c, hc, hmem⟩ := memcpy_moved m dest src count h
  obtain ⟨c', hc', hmem', -⟩ := memmove_moved m dest src count hd hs
  refine ⟨c, c', hc, hc', hmem.trans hmem'.symm, fun i hi => ?_, fun a ha => ?_⟩
  · rw [hmem]
    exact moved_inside hi (by omega)
  · rw [hmem]
    exact moved_outside ha

/-- Two adjacent ranges of eleven bytes, at an odd distance from each other. -/
theorem memcpy_eq_memmove_adjacent :
    ∃ c c', memcpy (fun a => a.setWidth 8) 103 114 11 = .ok (103, c) ∧
      memmove (fun a => a.setWidth 8) 103 114 11 = .ok (103, c') ∧
      c.cursor.mem = c'.cursor.mem ∧
      (∀ i, i < 11 → c.cursor.mem (103 + BitVec.ofNat 64 i) =
        (114 + BitVec.ofNat 64 i).setWidth 8) ∧
      ∀ a, (∀ i, i < 11 → a ≠ 103 + BitVec.ofNat 64 i) → c.cursor.mem a = a.setWidth 8 :=
  memcpy_eq_memmove (fun a => a.setWidth 8) 103 114 11 (by decide) (by decide)
    (by intro i j hi hj; bv_omega)

end Ytl.Memory
