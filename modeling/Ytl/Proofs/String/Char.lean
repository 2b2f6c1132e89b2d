/-
Searching for a character.

`strrchr` and `strnchr` compare two `char`s, which is to compare bytes.  `strchr` compares a
`char` with an `unsigned char`, and they are never equal from 128 on.

The character is an `int`, of which the functions use the low byte, so any two numbers that
are the same modulo 256 are the same character.  The NUL of a string is one of its characters
here, as it is in C: the search for it gives the end of the string.
-/
import Ytl.Proofs.String.Scan
import Ytl.String.Search

namespace Ytl.CString

open Memory

variable {m : Bytes} {s : Addr} {n i : Nat} {c : Int}

/-! ### Bytes

What is compared are numbers; a byte is one number as a `char` and another one as an `unsigned
char`, but below 128.
-/

/-- The byte `i` of a string, of which the NUL is the last, is the character `c`. -/
def CharAt (m : Bytes) (s : Addr) (n : Nat) (c : Int) (i : Nat) : Prop :=
  i ≤ n ∧ ((m (s + BitVec.ofNat 64 i)).toNat : Int) = c % 256

/-- The place of the first byte that is `c`. -/
def FirstChar (m : Bytes) (s : Addr) (n : Nat) (c : Int) (r : Option Addr) : Prop :=
  First (CharAt m s n c) (fun i => s + BitVec.ofNat 64 i) r

theorem ofInt_eq_zero_iff : BitVec.ofInt 8 c = 0 ↔ c % 256 = 0 := by
  rw [← BitVec.toNat_inj, BitVec.toNat_ofInt, show (0 : Byte).toNat = 0 from rfl]
  omega

/-- Both sides are a `char`. -/
theorem signed_eq_iff (hi : i ≤ n) :
    (m (s + BitVec.ofNat 64 i)).toInt = (BitVec.ofInt 8 c).toInt ↔ CharAt m s n c i := by
  unfold CharAt
  rw [BitVec.toInt_inj, ← BitVec.toNat_inj, BitVec.toNat_ofInt]
  omega

/-- The right side is an `unsigned char`. -/
theorem unsigned_eq_iff (hi : i ≤ n) :
    (m (s + BitVec.ofNat 64 i)).toInt = (BitVec.ofInt 8 c).toNat ↔
      CharAt m s n c i ∧ c % 256 < 128 := by
  have hb := (m (s + BitVec.ofNat 64 i)).isLt
  unfold CharAt
  rw [BitVec.toNat_ofInt, BitVec.toInt_eq_toNat_cond]
  omega

/-! ### The searches

Each loop is described by the byte at which it stops.
-/

theorem strnchr_first (hs : IsString m s n) :
    ∀ (left i : Nat), i + left = n + 1 → (∀ j, j < i → ¬ CharAt m s n c j) →
      FirstChar m s n c (strnchr m (s + BitVec.ofNat 64 i) left c) := by
  intro left
  induction left with
  | zero =>
      intro i hi hbefore
      refine First.none fun j hj => hbefore j ?_ hj
      have hle := hj.1
      omega
  | succ left ih =>
      intro i hi hbefore
      rw [strnchr]
      by_cases hc : CharAt m s n c i
      · rw [if_pos ((signed_eq_iff (by omega)).mpr hc)]
        exact First.found hc hbefore
      · rw [if_neg fun heq => hc ((signed_eq_iff (by omega)).mp heq)]
        have hnext := Nat.forall_lt_succ_right.mpr ⟨hbefore, hc⟩
        by_cases hb : m (s + BitVec.ofNat 64 i) = 0
        · rw [if_pos hb]
          have hend : n ≤ i := by
            by_contra hlt
            exact hs.before i (by omega) hb
          refine First.none fun j hj => hnext j ?_ hj
          have hle := hj.1
          omega
        · rw [if_neg hb, next_place rfl]
          exact ih (i + 1) (by omega) hnext

/-- `last` is null as long as the character has not been seen. -/
structure Seen (m : Bytes) (s : Addr) (n : Nat) (c : Int) (i : Nat) (x : Addr × Option Addr) :
    Prop where
  le : i ≤ n
  p : x.1 = s + BitVec.ofNat 64 i
  last : x.2 = none ↔ ∀ j, j < i → ¬ CharAt m s n c j

theorem Seen.round {x : Addr × Option Addr} (h : Seen m s n c i x) :
    (if (m x.1).toInt = (BitVec.ofInt 8 c).toInt then some x.1 else x.2) = none ↔
      ∀ j, j < i + 1 → ¬ CharAt m s n c j := by
  rw [h.p, Nat.forall_lt_succ_right, ← h.last]
  by_cases hc : CharAt m s n c i
  · rw [if_pos ((signed_eq_iff h.le).mpr hc)]
    exact iff_of_false (fun hnone => Option.some_ne_none _ hnone) fun hno => hno.2 hc
  · rw [if_neg fun heq => hc ((signed_eq_iff h.le).mp heq)]
    exact ⟨fun hnone => ⟨hnone, hc⟩, fun hno => hno.1⟩

theorem strrchr_returns (hs : IsString m s n) (c : Int) :
    ∃ last, strrchr m s c = .ok last ∧ (last = none ↔ ∀ i, ¬ CharAt m s n c i) := by
  have hstart : Seen m s n c 0 (s, none) :=
    ⟨Nat.zero_le n, (BitVec.add_zero s).symm,
      iff_of_true rfl fun j hj => absurd hj (Nat.not_lt_zero j)⟩
  refine hs.loop_returns (I := Seen m s n c) (fun i x h => h.le) hstart fun i x h => ?_
  unfold strrchrLoop
  dsimp only
  rw [h.p]
  have hround := h.round
  rw [h.p] at hround
  rcases Nat.lt_or_eq_of_le h.le with hlt | rfl
  · rw [if_neg (hs.before i hlt)]
    exact Or.inl ⟨_, i + 1, rfl, Nat.lt_succ_self i, hlt, next_place rfl, hround⟩
  · rw [if_pos hs.nul]
    refine Or.inr ⟨_, rfl, hround.trans ⟨fun hno i hi => hno i ?_ hi, fun hno i _ => hno i⟩⟩
    exact Nat.lt_succ_of_le hi.1

/-- Where the loop of `strchr` stops. -/
theorem strchrLoop_returns (hs : IsString m s n) (ch : Byte) :
    ∃ p, loop (strchrLoop m ch) allAddrs s = .ok p ∧ ∃ e, e ≤ n ∧ p = s + BitVec.ofNat 64 e ∧
      (∀ j, j < e → (m (s + BitVec.ofNat 64 j)).toInt ≠ ch.toNat) ∧
      (e = n ∨ (m p).toInt = ch.toNat) := by
  refine hs.loop_returns (I := fun i p => i ≤ n ∧ p = s + BitVec.ofNat 64 i ∧
    ∀ j, j < i → (m (s + BitVec.ofNat 64 j)).toInt ≠ ch.toNat) (fun i p h => h.1)
    ⟨Nat.zero_le n, (BitVec.add_zero s).symm, fun j hj => absurd hj (Nat.not_lt_zero j)⟩ ?_
  rintro i p ⟨hi, rfl, hbefore⟩
  unfold strchrLoop
  by_cases hc : (m (s + BitVec.ofNat 64 i)).toInt = ch.toNat
  · rw [if_neg fun hgo => hgo.2 hc]
    exact Or.inr ⟨_, rfl, i, hi, rfl, hbefore, Or.inr hc⟩
  · rcases Nat.lt_or_eq_of_le hi with hlt | rfl
    · rw [if_pos ⟨hs.before i hlt, hc⟩, next_place rfl]
      exact Or.inl ⟨_, i + 1, rfl, Nat.lt_succ_self i, hlt, rfl,
        Nat.forall_lt_succ_right.mpr ⟨hbefore, hc⟩⟩
    · rw [if_neg fun hgo => hgo.1 hs.nul]
      exact Or.inr ⟨_, rfl, i, hi, rfl, hbefore, Or.inl rfl⟩

/-- `strchr` finds the first of the bytes it takes for `c`. -/
theorem strchr_returns (hs : IsString m s n) (c : Int) :
    ∃ r, strchr m s c = .ok r ∧
      First (fun i => CharAt m s n c i ∧ c % 256 < 128) (fun i => s + BitVec.ofNat 64 i) r := by
  unfold strchr
  by_cases hzero : BitVec.ofInt 8 c = 0
  · refine ⟨some (s + BitVec.ofNat 64 n), ?_, ?_⟩
    · dsimp only
      rw [if_pos hzero, toEnd_returns hs]
      rfl
    · have hc : c % 256 = 0 := ofInt_eq_zero_iff.mp hzero
      refine First.found ⟨⟨Nat.le_refl n, ?_⟩, by omega⟩ fun j hj hat => ?_
      · rw [hs.nul, hc]
        rfl
      · refine hs.before j hj (BitVec.eq_of_toNat_eq ?_)
        have hbyte := hat.1.2
        rw [hc] at hbyte
        exact Int.ofNat.inj hbyte
  · obtain ⟨p, hloop, e, he, rfl, hbefore, hend⟩ := strchrLoop_returns hs (BitVec.ofInt 8 c)
    have hno : ∀ j, j < e → ¬ (CharAt m s n c j ∧ c % 256 < 128) := fun j hj hat =>
      hbefore j hj ((unsigned_eq_iff (by omega)).mpr hat)
    dsimp only
    rw [if_neg hzero, hloop]
    refine ⟨_, rfl, ?_⟩
    by_cases hc : CharAt m s n c e ∧ c % 256 < 128
    · rw [if_pos ((unsigned_eq_iff he).mpr hc)]
      exact First.found hc hno
    · have hne := fun heq => hc ((unsigned_eq_iff he).mp heq)
      rw [if_neg hne]
      obtain rfl := hend.resolve_right hne
      refine First.none fun j hat => ?_
      rcases Nat.lt_or_eq_of_le hat.1.1 with hlt | rfl
      · exact hno j hlt hat
      · exact hc hat

/--
**When the searches for a character agree.**  `strchr` finds the first place of the character,
as `strnchr` does in the whole string, and finds none exactly if `strrchr` does, exactly when
the character is below 128 or not in the string: as an `unsigned char` a larger one is not
equal to any `char`.
-/
theorem char_searches_agree_iff (hs : IsString m s n) (c : Int) :
    ∃ r last, strchr m s c = .ok r ∧ strrchr m s c = .ok last ∧
      ((First (fun i => i ≤ n ∧ ((m (s + BitVec.ofNat 64 i)).toNat : Int) = c % 256)
            (fun i => s + BitVec.ofNat 64 i) r ∧
          strnchr m s (n + 1) c = r ∧ (r = none ↔ last = none)) ↔
        c % 256 < 128 ∨ ∀ i, i ≤ n → ((m (s + BitVec.ofNat 64 i)).toNat : Int) ≠ c % 256) := by
  obtain ⟨r, hr, hfound⟩ := strchr_returns hs c
  obtain ⟨last, hlast, hnull⟩ := strrchr_returns hs c
  refine ⟨r, last, hr, hlast, ?_⟩
  have hfirst : FirstChar m s n c (strnchr m s (n + 1) c) := by
    have hstart := strnchr_first (c := c) hs (n + 1) 0 (Nat.zero_add _)
      fun j hj => absurd hj (Nat.not_lt_zero j)
    rwa [BitVec.add_zero] at hstart
  constructor
  · rintro ⟨hchar, -, -⟩
    by_cases hc : c % 256 < 128
    · exact Or.inl hc
    · have hnone : r = none := hfound.eq_none_iff.mpr fun i hi => hc hi.2
      exact Or.inr fun i hi heq => hchar.eq_none_iff.mp hnone i ⟨hi, heq⟩
  · intro hgood
    have hchar : FirstChar m s n c r := by
      rcases hgood with hc | hno
      · have hsame : (fun i => CharAt m s n c i ∧ c % 256 < 128) = CharAt m s n c :=
          funext fun i => propext (and_iff_left hc)
        rwa [hsame] at hfound
      · have hnone : r = none := hfound.eq_none_iff.mpr fun i hi => hno i hi.1.1 hi.1.2
        rw [hnone]
        exact First.none fun i hi => hno i hi.1 hi.2
    exact ⟨hchar, hfirst.unique hchar, hchar.eq_none_iff.trans hnull.symm⟩

/-- The character of a string of one byte, and 256 more. -/
theorem char_searches_agree_once :
    ∃ r last, strchr (fun a => if a = 8 then 0x61 else 0) 8 0x161 = .ok r ∧
      strrchr (fun a => if a = 8 then 0x61 else 0) 8 0x161 = .ok last ∧
      First (fun i => i ≤ 1 ∧
          (((if 8 + BitVec.ofNat 64 i = 8 then 0x61 else 0 : Byte)).toNat : Int) = 0x161 % 256)
        (fun i => 8 + BitVec.ofNat 64 i) r ∧
      strnchr (fun a => if a = 8 then 0x61 else 0) 8 (1 + 1) 0x161 = r ∧
      (r = none ↔ last = none) := by
  have hs : IsString (fun a => if a = 8 then 0x61 else 0) 8 1 := ⟨by decide, by decide⟩
  obtain ⟨r, last, hr, hlast, hagree⟩ := char_searches_agree_iff hs 0x161
  exact ⟨r, last, hr, hlast, hagree.mpr (Or.inl (by decide))⟩

/-- A byte of the upper half is found by `strnchr` only. -/
theorem strchr_misses_byte :
    IsString (fun a => if a = 8 then 0x80 else 0) 8 1 ∧
      strchr (fun a => if a = 8 then 0x80 else 0) 8 128 = .ok none ∧
      strnchr (fun a => if a = 8 then 0x80 else 0) 8 (1 + 1) 128 = some 8 := by
  have hs : IsString (fun a => if a = 8 then 0x80 else 0) 8 1 := ⟨by decide, by decide⟩
  obtain ⟨r, hr, hfound⟩ := strchr_returns hs 128
  have hnone : r = none := hfound.eq_none_iff.mpr fun i hi => absurd hi.2 (by decide)
  rw [hnone] at hr
  exact ⟨hs, hr, rfl⟩

end Ytl.CString
