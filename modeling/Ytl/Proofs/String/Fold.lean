/-
Comparing without case.

Setting one bit in both bytes makes the two cases of a letter equal, but it also makes other
bytes equal, and no byte stays 0.  So both functions stop at a difference in another bit
only, and are right when there is one before the strings end.

There are two ways to be wrong.  The loop may go on behind the ends of the strings, since a
NUL with the bit set is not 0; and it may take two bytes for one that are not a letter and the
same letter in the other case.  The conditions name both, in terms of the bytes of the
strings.
-/
import Ytl.Base.CellMove
import Ytl.Proofs.String.Scan

namespace Ytl.CString

open Memory

/-! ### Bytes

There are 256 bytes, so what is needed about them is checked.
-/

/-- The letters `A` to `Z` become `a` to `z`. -/
def lower (b : Byte) : Byte := if 0x41 ≤ b ∧ b ≤ 0x5A then b + 0x20 else b

theorem foldByte_lower : ∀ b : Byte, foldByte (lower b) = foldByte b := by decide +kernel

theorem lower_eq_zero : ∀ b : Byte, lower b = 0 → b = 0 := by decide +kernel

theorem foldByte_ne_zero : ∀ b : Byte, foldByte b ≠ 0 := by decide +kernel

theorem foldByte_eq_of_lower {a b : Byte} (h : lower a = lower b) : foldByte a = foldByte b := by
  rw [← foldByte_lower a, h, foldByte_lower]

/-! ### Strings

Strings that are the same without case have the same length.
-/

section

variable {m : Bytes} {s1 s2 : Addr} {n1 n2 len i e : Nat} {p : Pair}

/-- The first `k1` and the first `k2` bytes are the same, but for the case of letters. -/
def SameFolded (m : Bytes) (s1 : Addr) (k1 : Nat) (s2 : Addr) (k2 : Nat) : Prop :=
  k1 = k2 ∧ ∀ i, i < k1 → lower (m (s1 + BitVec.ofNat 64 i)) = lower (m (s2 + BitVec.ofNat 64 i))

/-- The bytes at `i` differ in another bit than the one that is set. -/
def Differ (m : Bytes) (s1 s2 : Addr) (i : Nat) : Prop :=
  foldByte (m (s1 + BitVec.ofNat 64 i)) ≠ foldByte (m (s2 + BitVec.ofNat 64 i))

/-- The bytes at `i` are not the same without case, but they are with the bit set. -/
def Conflated (m : Bytes) (s1 s2 : Addr) (i : Nat) : Prop :=
  lower (m (s1 + BitVec.ofNat 64 i)) ≠ lower (m (s2 + BitVec.ofNat 64 i)) ∧ ¬ Differ m s1 s2 i

/-- Strings cut to the same length agree at every place up to their ends. -/
theorem SameFolded.at (h1 : IsString m s1 n1) (h2 : IsString m s2 n2)
    (h : SameFolded m s1 (min n1 len) s2 (min n2 len)) (hi : i < len) (hi1 : i ≤ n1)
    (hi2 : i ≤ n2) :
    lower (m (s1 + BitVec.ofNat 64 i)) = lower (m (s2 + BitVec.ofNat 64 i)) := by
  obtain ⟨hlen, hsame⟩ := h
  by_cases hin : i < n1
  · exact hsame i (by omega)
  · obtain rfl : i = n1 := by omega
    obtain rfl : i = n2 := by omega
    rw [h1.nul, h2.nul]

theorem not_sameFolded (h1 : IsString m s1 n1) (h2 : IsString m s2 n2) (hi : i < len)
    (hi1 : i ≤ n1) (hi2 : i ≤ n2) (hdiff : Differ m s1 s2 i) :
    ¬ SameFolded m s1 (min n1 len) s2 (min n2 len) :=
  fun h => hdiff (foldByte_eq_of_lower (h.at h1 h2 hi hi1 hi2))

/-- As long as the strings last, they are the same if all their bytes are. -/
theorem sameFolded_of_all (h1 : IsString m s1 n1) (h2 : IsString m s2 n2)
    (hlen : len ≤ min n1 n2 + 1)
    (hall : ∀ i, i < len →
      lower (m (s1 + BitVec.ofNat 64 i)) = lower (m (s2 + BitVec.ofNat 64 i))) :
    SameFolded m s1 (min n1 len) s2 (min n2 len) := by
  refine ⟨?_, fun i hi => hall i (by omega)⟩
  by_cases hshort : len ≤ min n1 n2
  · omega
  · -- one string ends in the last byte, and so does the other
    have hlast := hall (min n1 n2) (by omega)
    rcases Nat.le_total n1 n2 with hle | hle
    · rw [Nat.min_eq_left hle, h1.nul] at hlast
      have hend : n2 ≤ n1 := by
        by_contra hc
        exact h2.before n1 (by omega) (lower_eq_zero _ hlast.symm)
      omega
    · rw [Nat.min_eq_right hle, h2.nul] at hlast
      have hend : n1 ≤ n2 := by
        by_contra hc
        exact h1.before n2 (by omega) (lower_eq_zero _ hlast)
      omega

/-! ### The loops

Both functions go through the bytes in pairs; one has a bound and the other has none.
-/

/-- Both pointers have come to `i`, and every byte before has been loaded. -/
structure Paced (s1 s2 : Addr) (i : Nat) (p : Pair) : Prop where
  p1 : p.r1.p = s1 + BitVec.ofNat 64 i
  p2 : p.r2.p = s2 + BitVec.ofNat 64 i
  inside1 : p.r1.Inside s1 i
  inside2 : p.r2.Inside s2 i
  loads1 : ∀ j, j < i → ⟨s1 + BitVec.ofNat 64 j, 1⟩ ∈ p.r1.loads

namespace Paced

theorem start (s1 s2 : Addr) : Paced s1 s2 0 ⟨⟨s1, []⟩, ⟨s2, []⟩⟩ :=
  ⟨(BitVec.add_zero s1).symm, (BitVec.add_zero s2).symm, Reader.Inside.start s1 s1 0,
    Reader.Inside.start s2 s2 0, fun j hj => absurd hj (Nat.not_lt_zero j)⟩

theorem next (h : Paced s1 s2 i p) : Paced s1 s2 (i + 1) (((p.load1 1).load2 1).next 1) := by
  refine ⟨next_place h.p1, next_place h.p2,
    (h.inside1.mono (Nat.le_succ i)).load (Nat.lt_succ_self i) h.p1,
    (h.inside2.mono (Nat.le_succ i)).load (Nat.lt_succ_self i) h.p2, fun j hj => ?_⟩
  rcases Nat.lt_succ_iff_lt_or_eq.mp hj with hlt | rfl
  · exact List.mem_append_left _ (h.loads1 j hlt)
  · exact Reader.mem_load h.p1 1

/-- The last byte that was loaded belongs to the range only if the range goes so far. -/
theorem lt_of_inside (h : Paced s1 s2 (e + 1) p) {n : Nat} (hinside : p.r1.Inside s1 n)
    (he : e < 2 ^ 64) : e < n := by
  by_contra hc
  exact Reader.not_inside (h.loads1 e (Nat.lt_succ_self e)) (by omega) he hinside

end Paced

/-- The round that leaves the loop. -/
structure Folded (m : Bytes) (s1 s2 : Addr) (e : Nat) (x : Int × Pair) : Prop where
  same : ∀ j, j < e → ¬ Differ m s1 s2 j
  value : x.1 = 0 ↔ ¬ Differ m s1 s2 e
  paced : Paced s1 s2 (e + 1) x.2

theorem Folded.of_round (h : Paced s1 s2 i p) (hsame : ∀ j, j < i → ¬ Differ m s1 s2 j) :
    Folded m s1 s2 i (byteDiff (foldByte (m p.r1.p)) (foldByte (m p.r2.p)),
      ((p.load1 1).load2 1).next 1) := by
  refine ⟨hsame, ?_, h.next⟩
  rw [h.p1, h.p2, byteDiff_eq_zero_iff]
  exact not_not.symm

theorem differ_iff (h : Paced s1 s2 i p) :
    Differ m s1 s2 i ↔ foldByte (m p.r1.p) ≠ foldByte (m p.r2.p) := by
  rw [h.p1, h.p2]
  rfl

theorem strncasecmpLoop_folded :
    ∀ (left i : Nat) (p : Pair), i + left = len → left ≠ 0 → Paced s1 s2 i p →
      (∀ j, j < i → ¬ Differ m s1 s2 j) →
      ∃ e, e < len ∧ (e + 1 = len ∨ Differ m s1 s2 e) ∧
        Folded m s1 s2 e (strncasecmpLoop m left p) := by
  intro left
  induction left with
  | zero =>
      intro i p _ hleft
      exact absurd rfl hleft
  | succ left ih =>
      intro i p hi _ h hsame
      rw [strncasecmpLoop]
      by_cases hstop : left = 0 ∨ foldByte (m p.r1.p) ≠ foldByte (m p.r2.p)
      · rw [if_pos hstop]
        refine ⟨i, by omega, ?_, Folded.of_round h hsame⟩
        rcases hstop with hlast | hdiff
        · exact Or.inl (by omega)
        · exact Or.inr ((differ_iff h).mpr hdiff)
      · rw [if_neg hstop]
        have hi' : ¬ Differ m s1 s2 i := fun hdiff => hstop (Or.inr ((differ_iff h).mp hdiff))
        exact ih (i + 1) _ (by omega) (fun hc => hstop (Or.inl hc)) h.next
          (Nat.forall_lt_succ_right.mpr ⟨hsame, hi'⟩)

/-- Before the first difference a round goes on, and there it leaves. -/
theorem strcasecmpLoop_cases (h : Paced s1 s2 i p) (hsame : ∀ j, j < i → ¬ Differ m s1 s2 j) :
    (¬ Differ m s1 s2 i ∧ strcasecmpLoop m p = .inl (((p.load1 1).load2 1).next 1)) ∨
      (Differ m s1 s2 i ∧ ∃ x, strcasecmpLoop m p = .inr x ∧ Folded m s1 s2 i x) := by
  unfold strcasecmpLoop
  by_cases hdiff : Differ m s1 s2 i
  · exact Or.inr ⟨hdiff, _, if_pos (Or.inl ((differ_iff h).mp hdiff)), Folded.of_round h hsame⟩
  · refine Or.inl ⟨hdiff, if_neg ?_⟩
    rintro (hne | hnul)
    · exact hdiff ((differ_iff h).mpr hne)
    · exact foldByte_ne_zero _ hnul

/-- No difference up to the place that a round has come to. -/
def Agreed (m : Bytes) (s1 s2 : Addr) (i : Nat) (p : Pair) : Prop :=
  Paced s1 s2 i p ∧ ∀ j, j < i → ¬ Differ m s1 s2 j

theorem Agreed.start (m : Bytes) (s1 s2 : Addr) : Agreed m s1 s2 0 ⟨⟨s1, []⟩, ⟨s2, []⟩⟩ :=
  ⟨Paced.start s1 s2, fun j hj => absurd hj (Nat.not_lt_zero j)⟩

theorem Agreed.next (h : Agreed m s1 s2 i p) (hi : ¬ Differ m s1 s2 i) :
    Agreed m s1 s2 (i + 1) (((p.load1 1).load2 1).next 1) :=
  ⟨h.1.next, Nat.forall_lt_succ_right.mpr ⟨h.2, hi⟩⟩

/-- Where there is a difference in the strings the loop comes to the first one. -/
theorem strcasecmp_returns (h1 : IsString m s1 n1) {k : Nat} (hk : k ≤ n1)
    (hdiff : Differ m s1 s2 k) :
    ∃ x, strcasecmp m s1 s2 = .ok x ∧ ∃ e, e ≤ k ∧ Differ m s1 s2 e ∧ Folded m s1 s2 e x := by
  have hbound : ∀ i p, Agreed m s1 s2 i p → i ≤ k := by
    intro i p h
    by_contra hc
    exact h.2 k (by omega) hdiff
  refine h1.loop_returns (I := Agreed m s1 s2) (fun i p h => Nat.le_trans (hbound i p h) hk)
    (Agreed.start m s1 s2) fun i p h => ?_
  rcases strcasecmpLoop_cases h.1 h.2 with ⟨hi, hgo⟩ | ⟨hi, x, hleave, hfolded⟩
  · exact Or.inl ⟨_, i + 1, hgo, Nat.lt_succ_self i, h.next hi⟩
  · exact Or.inr ⟨x, hleave, i, hbound i p h, hi, hfolded⟩

/-- Whenever the loop is left, it is left at the first difference. -/
theorem strcasecmp_folded {x : Int × Pair} (h : strcasecmp m s1 s2 = .ok x) :
    ∃ e, Differ m s1 s2 e ∧ Folded m s1 s2 e x := by
  refine of_loop (I := fun p => ∃ i, Agreed m s1 s2 i p)
    (Q := fun x => ∃ e, Differ m s1 s2 e ∧ Folded m s1 s2 e x) ?_ ?_ allAddrs _ x
    ⟨0, Agreed.start m s1 s2⟩ h
  · rintro p p' ⟨i, hi⟩ hgo
    rcases strcasecmpLoop_cases hi.1 hi.2 with ⟨hsame, hgo'⟩ | ⟨-, y, hleave, -⟩
    · rw [hgo'] at hgo
      cases hgo
      exact ⟨i + 1, hi.next hsame⟩
    · rw [hleave] at hgo
      cases hgo
  · rintro p x ⟨i, hi⟩ hleave
    rcases strcasecmpLoop_cases hi.1 hi.2 with ⟨-, hgo⟩ | ⟨hdiff, y, hleave', hfolded⟩
    · rw [hgo] at hleave
      cases hleave
    · rw [hleave'] at hleave
      cases hleave
      exact ⟨i, hdiff, hfolded⟩

/-- The first difference comes before the addresses come back. -/
theorem Folded.lt_allAddrs {x : Int × Pair} (h : Folded m s1 s2 e x) (hdiff : Differ m s1 s2 e) :
    e < 2 ^ 64 := by
  by_contra hc
  have hround : BitVec.ofNat 64 (e % 2 ^ 64) = BitVec.ofNat 64 e := by
    apply BitVec.eq_of_toNat_eq
    rw [BitVec.toNat_ofNat, BitVec.toNat_ofNat]
    exact Nat.mod_mod e _
  apply h.same (e % 2 ^ 64) (by omega)
  unfold Differ
  rw [hround]
  exact hdiff

/-! ### The two functions -/

/-- `Ab` and `aB`. -/
def mixedCase : Bytes := fun a =>
  if a = 100 then 0x41 else if a = 101 then 0x62 else if a = 110 then 0x61
  else if a = 111 then 0x42 else 0

/-- Two strings that are both `a`. -/
def equalStrings : Bytes := fun a => if a = 8 ∨ a = 16 then 0x61 else 0

/--
**When `strcasecmp` compares without case.**  It comes back, stays in both strings up to the
first NUL, and returns 0 exactly if the strings are the same but for the case of letters,
exactly when a byte of the strings differs in another bit than the one that is set.  That bit
is set in a NUL too, which therefore does not stop the loop.
-/
theorem strcasecmp_stops_iff (h1 : IsString m s1 n1) (h2 : IsString m s2 n2) :
    (∃ v p, strcasecmp m s1 s2 = .ok (v, p) ∧ p.r1.Inside s1 (min n1 n2 + 1) ∧
        p.r2.Inside s2 (min n1 n2 + 1) ∧ (v = 0 ↔ SameFolded m s1 n1 s2 n2)) ↔
      ∃ k, k ≤ n1 ∧ k ≤ n2 ∧ Differ m s1 s2 k := by
  constructor
  · rintro ⟨v, p, hret, hinside, -, -⟩
    obtain ⟨e, hdiff, hfolded⟩ := strcasecmp_folded hret
    have hend : e < min n1 n2 + 1 :=
      hfolded.paced.lt_of_inside hinside (hfolded.lt_allAddrs hdiff)
    exact ⟨e, by omega, by omega, hdiff⟩
  · rintro ⟨k, hk1, hk2, hdiff⟩
    obtain ⟨⟨v, p⟩, hret, e, hek, hleave, hfolded⟩ := strcasecmp_returns h1 hk1 hdiff
    refine ⟨v, p, hret, hfolded.paced.inside1.mono (by omega),
      hfolded.paced.inside2.mono (by omega), ?_⟩
    refine iff_of_false (fun hv => hfolded.value.mp hv hleave) fun hsame => ?_
    refine not_sameFolded h1 h2 (show e < n1 + n2 + 1 by omega) (by omega) (by omega) hleave ?_
    rwa [Nat.min_eq_left (by omega), Nat.min_eq_left (by omega)]

/-- `Ab` and its second byte. -/
theorem strcasecmp_stops_two :
    ∃ v p, strcasecmp mixedCase 100 101 = .ok (v, p) ∧ p.r1.Inside 100 (min 2 1 + 1) ∧
      p.r2.Inside 101 (min 2 1 + 1) ∧ (v = 0 ↔ SameFolded mixedCase 100 2 101 1) :=
  (strcasecmp_stops_iff ⟨by decide, by decide⟩ ⟨by decide, by decide⟩).mpr
    ⟨0, by decide, by decide, by unfold Differ; decide⟩

/-- Equal strings are not compared without reading on behind their ends. -/
theorem strcasecmp_reads_behind :
    IsString equalStrings 8 1 ∧ IsString equalStrings 16 1 ∧
      ¬ ∃ v p, strcasecmp equalStrings 8 16 = .ok (v, p) ∧ p.r1.Inside 8 (min 1 1 + 1) := by
  refine ⟨⟨by decide, by decide⟩, ⟨by decide, by decide⟩, ?_⟩
  rintro ⟨v, p, hret, hinside⟩
  obtain ⟨e, hdiff, hfolded⟩ := strcasecmp_folded hret
  have hend : e < 2 := hfolded.paced.lt_of_inside hinside (hfolded.lt_allAddrs hdiff)
  have hsame : ∀ e, e < 2 → ¬ Differ equalStrings 8 16 e := by
    unfold Differ
    decide
  exact hsame e hend hdiff

/--
**When `strncasecmp` compares without case.**  It stays in both strings, and returns 0 exactly
if what it may look at is the same but for the case of letters, exactly when one of two
things holds: before `len` and before a string has ended a byte differs in another bit than
the one that is set; or `len` is used up at the latest with the NUL of the shorter string,
and no two bytes are only made equal by that bit.
-/
theorem strncasecmp_bounded_iff (h1 : IsString m s1 n1) (h2 : IsString m s2 n2)
    (hlen : len < 2 ^ 64) :
    ((strncasecmp m s1 s2 len).2.r1.Inside s1 (min len (min n1 n2 + 1)) ∧
        (strncasecmp m s1 s2 len).2.r2.Inside s2 (min len (min n1 n2 + 1)) ∧
        ((strncasecmp m s1 s2 len).1 = 0 ↔ SameFolded m s1 (min n1 len) s2 (min n2 len))) ↔
      (∃ k, k < len ∧ k ≤ n1 ∧ k ≤ n2 ∧ Differ m s1 s2 k) ∨
        (len ≤ min n1 n2 + 1 ∧ ∀ i, i < len → ¬ Conflated m s1 s2 i) := by
  unfold strncasecmp
  by_cases hzero : len = 0
  · subst hzero
    rw [if_pos rfl]
    have hsame : SameFolded m s1 (min n1 0) s2 (min n2 0) :=
      sameFolded_of_all h1 h2 (Nat.zero_le _) fun i hi => absurd hi (Nat.not_lt_zero i)
    exact iff_of_true
      ⟨Reader.Inside.start s1 s1 _, Reader.Inside.start s2 s2 _, iff_of_true rfl hsame⟩
      (Or.inr ⟨Nat.zero_le _, fun i hi => absurd hi (Nat.not_lt_zero i)⟩)
  · rw [if_neg hzero]
    obtain ⟨e, he, hstop, hfolded⟩ := strncasecmpLoop_folded len 0 _ (Nat.zero_add len) hzero
      (Paced.start s1 s2) fun j hj => absurd hj (Nat.not_lt_zero j)
    constructor
    · rintro ⟨hinside, -, hvalue⟩
      have hend : e < min len (min n1 n2 + 1) := hfolded.paced.lt_of_inside hinside (by omega)
      by_cases hdiff : Differ m s1 s2 e
      · exact Or.inl ⟨e, he, by omega, by omega, hdiff⟩
      · have hlast : e + 1 = len := hstop.resolve_right hdiff
        have hsame := hvalue.mp (hfolded.value.mpr hdiff)
        refine Or.inr ⟨by omega, fun i hi hconf => hconf.1 ?_⟩
        exact hsame.at h1 h2 hi (by omega) (by omega)
    · rintro (⟨k, hk, hk1, hk2, hdiff⟩ | ⟨hshort, hconf⟩)
      · -- the loop does not get past `k`
        have hek : e ≤ k := by
          by_contra hc
          exact hfolded.same k (by omega) hdiff
        have hleave : Differ m s1 s2 e := by
          rcases hstop with hlast | hdiff'
          · rwa [show e = k by omega]
          · exact hdiff'
        refine ⟨hfolded.paced.inside1.mono (by omega), hfolded.paced.inside2.mono (by omega), ?_⟩
        refine iff_of_false (fun hv => hfolded.value.mp hv hleave) ?_
        exact not_sameFolded h1 h2 he (by omega) (by omega) hleave
      · refine ⟨hfolded.paced.inside1.mono (by omega), hfolded.paced.inside2.mono (by omega), ?_⟩
        rw [hfolded.value]
        constructor
        · intro hsame
          refine sameFolded_of_all h1 h2 hshort fun i hi => ?_
          by_contra hne
          refine hconf i hi ⟨hne, ?_⟩
          -- the loop has come to the end of `len`
          have hlast : e + 1 = len := hstop.resolve_right hsame
          rcases Nat.lt_or_eq_of_le (show i ≤ e by omega) with hlt | rfl
          · exact hfolded.same i hlt
          · exact hsame
        · intro hsame hdiff
          exact not_sameFolded h1 h2 he (by omega) (by omega) hdiff hsame

/-- The two strings with their NULs. -/
theorem strncasecmp_bounded_three :
    (strncasecmp mixedCase 100 110 3).2.r1.Inside 100 (min 3 (min 2 2 + 1)) ∧
      (strncasecmp mixedCase 100 110 3).2.r2.Inside 110 (min 3 (min 2 2 + 1)) ∧
      ((strncasecmp mixedCase 100 110 3).1 = 0 ↔
        SameFolded mixedCase 100 (min 2 3) 110 (min 2 3)) :=
  (strncasecmp_bounded_iff ⟨by decide, by decide⟩ ⟨by decide, by decide⟩ (by decide)).mpr
    (Or.inr ⟨by decide, by unfold Conflated Differ; decide⟩)

/-- After two equal strings of one byte a third byte is read, if `len` allows it. -/
theorem strncasecmp_reads_behind :
    IsString equalStrings 8 1 ∧ IsString equalStrings 16 1 ∧
      ¬ (strncasecmp equalStrings 8 16 3).2.r1.Inside 8 (min 3 (min 1 1 + 1)) := by
  refine ⟨⟨by decide, by decide⟩, ⟨by decide, by decide⟩, ?_⟩
  refine Reader.not_inside (k := 2) ?_ (by decide) (by decide)
  simp [strncasecmp, strncasecmpLoop, foldByte, equalStrings, Reader.load, Reader.next,
    Pair.load1, Pair.load2, Pair.next]

end

end Ytl.CString
