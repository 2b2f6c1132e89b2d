/-
What the scans of strings have in common.

A string is an address and the distance to its NUL, and a scan knows that there is no NUL
before the place it has come to.  A word without a zero takes it eight bytes further.

Nothing else is asked of memory: it is a function on all addresses, and where a string lies in
it is open.  So a scan comes to an end because there is a NUL, and not because memory ends;
and what is loaded is kept in a record, so that reading too much is something one can speak
of.
-/
import Ytl.Base.FirstDiff
import Ytl.Base.ZeroByte
import Ytl.Proofs.Memory.Word
import Ytl.String.CString

namespace Ytl.CString

open Memory

/-! ### Strings -/

/-- At `s` there is a string with `n` bytes before its NUL. -/
structure IsString (m : Bytes) (s : Addr) (n : Nat) : Prop where
  before : ∀ i, i < n → m (s + BitVec.ofNat 64 i) ≠ 0
  nul : m (s + BitVec.ofNat 64 n) = 0

variable {m : Bytes} {s : Addr} {n i : Nat}

namespace IsString

/-- The addresses come back to the first one. -/
theorem lt_allAddrs (h : IsString m s n) : n < allAddrs := by
  unfold allAddrs
  by_contra hc
  apply h.before (n - 2 ^ 64) (by omega)
  have hround : BitVec.ofNat 64 (n - 2 ^ 64) = BitVec.ofNat 64 n := by
    apply BitVec.eq_of_toNat_eq
    rw [BitVec.toNat_ofNat, BitVec.toNat_ofNat]
    omega
  rw [hround]
  exact h.nul

/-- A scan that has seen no NUL is still in the string. -/
theorem le_of_before (h : IsString m s n) (hi : ∀ j, j < i → m (s + BitVec.ofNat 64 j) ≠ 0) :
    i ≤ n := by
  by_contra hc
  exact hi n (by omega) h.nul

theorem eq_of_nul (h : IsString m s n) (hi : ∀ j, j < i → m (s + BitVec.ofNat 64 j) ≠ 0)
    (hnul : m (s + BitVec.ofNat 64 i) = 0) : i = n := by
  have hle := h.le_of_before hi
  by_contra hc
  exact h.before i (by omega) hnul

/-- Only the bytes of the string matter. -/
theorem congr (h : IsString m s n) {m' : Bytes}
    (hm : ∀ i, i ≤ n → m' (s + BitVec.ofNat 64 i) = m (s + BitVec.ofNat 64 i)) :
    IsString m' s n := by
  refine ⟨fun i hi => ?_, ?_⟩
  · rw [hm i (Nat.le_of_lt hi)]
    exact h.before i hi
  · rw [hm n (Nat.le_refl n)]
    exact h.nul

/-- **A loop ends if it stays in the string.** -/
theorem loop_returns {σ ρ : Type} {step : σ → σ ⊕ ρ} {I : Nat → σ → Prop} {Q : ρ → Prop} {x : σ}
    (h : IsString m s n) (hbound : ∀ i x, I i x → i ≤ n) (hx : I i x)
    (hstep : ∀ i x, I i x →
      (∃ x' j, step x = .inl x' ∧ i < j ∧ I j x') ∨ ∃ r, step x = .inr r ∧ Q r) :
    ∃ r, loop step allAddrs x = .ok r ∧ Q r :=
  Ytl.loop_returns hbound hstep allAddrs i x hx (Nat.lt_add_right i h.lt_allAddrs)

end IsString

theorem toEnd_returns (hs : IsString m s n) :
    loop (toEnd m) allAddrs s = .ok (s + BitVec.ofNat 64 n) := by
  have hloop : ∃ tmp, loop (toEnd m) allAddrs s = .ok tmp ∧ tmp = s + BitVec.ofNat 64 n := by
    refine hs.loop_returns (I := fun i tmp => i ≤ n ∧ tmp = s + BitVec.ofNat 64 i)
      (fun i tmp h => h.1) ⟨Nat.zero_le n, (BitVec.add_zero s).symm⟩ ?_
    rintro i tmp ⟨hi, rfl⟩
    unfold toEnd
    rcases Nat.lt_or_eq_of_le hi with hlt | rfl
    · refine Or.inl ⟨_, i + 1, if_neg (hs.before i hlt), Nat.lt_succ_self i, hlt, ?_⟩
      exact add_ofNat_add s i 1
    · exact Or.inr ⟨_, if_pos hs.nul, rfl⟩
  obtain ⟨tmp, htmp, rfl⟩ := hloop
  exact htmp

/-! ### A bound

With a bound there need not be a NUL.
-/

/-- The string at `s` has `k` bytes, or `k` is the bound. -/
structure Limited (m : Bytes) (s : Addr) (size k : Nat) : Prop where
  le : k ≤ size
  before : ∀ i, i < k → m (s + BitVec.ofNat 64 i) ≠ 0
  nul : k < size → m (s + BitVec.ofNat 64 k) = 0

theorem IsString.limited (h : IsString m s n) {size : Nat} (hn : n ≤ size) : Limited m s size n :=
  ⟨hn, h.before, fun _ => h.nul⟩

theorem exists_limited (m : Bytes) (s : Addr) : ∀ size, ∃ k, Limited m s size k := by
  intro size
  induction size with
  | zero => exact ⟨0, Nat.le_refl 0, fun i hi => absurd hi (Nat.not_lt_zero i),
      fun hlt => absurd hlt (Nat.lt_irrefl 0)⟩
  | succ size ih =>
      obtain ⟨k, hle, hbefore, hnul⟩ := ih
      rcases Nat.lt_or_eq_of_le hle with hlt | rfl
      · exact ⟨k, by omega, hbefore, fun _ => hnul hlt⟩
      · by_cases hb : m (s + BitVec.ofNat 64 k) = 0
        · exact ⟨k, Nat.le_succ k, hbefore, fun _ => hb⟩
        · exact ⟨k + 1, Nat.le_refl _, Nat.forall_lt_succ_right.mpr ⟨hbefore, hb⟩,
            fun hlt => absurd hlt (Nat.lt_irrefl _)⟩

/-! ### Words

The test for a zero is exact for the word as a whole, which is all that a scan needs of it.
-/

/-- The constants of the test are those for eight bytes. -/
theorem hasZero_eq_false (x : BitVec 64) :
    hasZero x = false ↔ ∀ i, i < 8 → x.extractLsb' (8 * i) 8 ≠ 0 := by
  have hmarks : hasZero x = false ↔ ZeroByte.marks 8 x = 0 := by
    unfold hasZero ZeroByte.marks
    rw [show ones = ZeroByte.ones 8 by decide, show highs = ZeroByte.highs 8 by decide]
    exact decide_eq_false_iff_not.trans not_not
  rw [hmarks, ZeroByte.marks_eq_zero_iff]

/-- **The zero-byte test is exact.**  For every word, `has_zero` holds if and only if one of its
eight bytes is 0. -/
theorem hasZero_iff_byte (x : BitVec 64) :
    hasZero x = true ↔ ∃ i, i < 8 ∧ x.extractLsb' (8 * i) 8 = 0 := by
  rw [← not_iff_not, Bool.not_eq_true, hasZero_eq_false]
  push Not
  rfl

theorem hasZero_iff (m : Bytes) (a : Addr) :
    hasZero (loadWord m a) = false ↔ ∀ j, j < 8 → m (a + BitVec.ofNat 64 j) ≠ 0 := by
  rw [hasZero_eq_false]
  constructor
  · intro h j hj
    rw [← extract_loadBytes m 8 a j hj]
    exact h j hj
  · intro h j hj
    rw [loadWord, extract_loadBytes m 8 a j hj]
    exact h j hj

/-- A word without a zero, seen from the beginning of the string. -/
theorem hasZero_at_iff :
    hasZero (loadWord m (s + BitVec.ofNat 64 i)) = false ↔
      ∀ j, j < 8 → m (s + BitVec.ofNat 64 (i + j)) ≠ 0 := by
  simp only [hasZero_iff, add_ofNat_add]

/-! ### Alignment

Only the lowest three bits of an address count.
-/

theorem toNat_and_seven (a : Addr) : (a &&& 7).toNat = a.toNat % 8 := by
  rw [BitVec.toNat_and]
  exact Nat.and_two_pow_sub_one_eq_mod a.toNat 3

theorem aligned_iff {a : Addr} : a &&& 7 = 0 ↔ a.toNat % 8 = 0 := by
  rw [← toNat_and_seven]
  exact ⟨congrArg BitVec.toNat, fun h => BitVec.eq_of_toNat_eq h⟩

theorem toNat_add_mod (a : Addr) (k : Nat) :
    (a + BitVec.ofNat 64 k).toNat % 8 = (a.toNat + k) % 8 := by
  rw [BitVec.toNat_add, BitVec.toNat_ofNat]
  omega

theorem aligned_next {a : Addr} (h : a &&& 7 = 0) : (a + 8) &&& 7 = 0 := by
  rw [aligned_iff] at h ⊢
  have hnext := toNat_add_mod a 8
  rw [show BitVec.ofNat 64 8 = (8 : Addr) from rfl] at hnext
  omega

/-- An aligned word does not wrap. -/
theorem toNat_add_of_aligned {a : Addr} (h : a &&& 7 = 0) {j : Nat} (hj : j < 8) :
    (a + BitVec.ofNat 64 j).toNat = a.toNat + j := by
  rw [aligned_iff] at h
  have hlt := a.isLt
  rw [BitVec.toNat_add, BitVec.toNat_ofNat]
  omega

/-! ### Bytes -/

theorem byteDiff_eq_zero_iff {a b : Byte} : byteDiff a b = 0 ↔ a = b := by
  unfold byteDiff
  rw [sub_eq_zero, Int.natCast_inj]
  exact ⟨BitVec.eq_of_toNat_eq, congrArg BitVec.toNat⟩

/-! ### Loads

A load is an address and a number of bytes.
-/

theorem ofNat_ne {i j : Nat} (hi : i < 2 ^ 64) (hj : j < 2 ^ 64) (hne : i ≠ j) :
    BitVec.ofNat 64 i ≠ BitVec.ofNat 64 j := by
  intro heq
  have hnat := congrArg BitVec.toNat heq
  rw [BitVec.toNat_ofNat, BitVec.toNat_ofNat, Nat.mod_eq_of_lt hi, Nat.mod_eq_of_lt hj] at hnat
  exact hne hnat

/-- One byte of the string, or an aligned word that begins with one. -/
def Load.Begins (s : Addr) (n : Nat) (l : Load) : Prop :=
  (∃ i, i ≤ n ∧ l.addr = s + BitVec.ofNat 64 i) ∧ (l.size = 1 ∨ l.size = 8 ∧ l.addr &&& 7 = 0)

/-- Only the `n` bytes from `s` on are loaded. -/
def Load.Inside (s : Addr) (n : Nat) (l : Load) : Prop :=
  ∀ j, j < l.size → ∃ i, i < n ∧ l.addr + BitVec.ofNat 64 j = s + BitVec.ofNat 64 i

/-- Every load of the reader is. -/
def Reader.Inside (s : Addr) (n : Nat) (r : Reader) : Prop := ∀ l ∈ r.loads, l.Inside s n

namespace Reader

theorem Inside.start (s p : Addr) (n : Nat) : Inside s n ⟨p, []⟩ :=
  fun _ hl => absurd hl List.not_mem_nil

theorem Inside.mono {r : Reader} (h : r.Inside s n) {n' : Nat} (hn : n ≤ n') :
    r.Inside s n' := by
  intro l hl j hj
  obtain ⟨i, hi, heq⟩ := h l hl j hj
  exact ⟨i, Nat.lt_of_lt_of_le hi hn, heq⟩

/-- A byte of the range is loaded. -/
theorem Inside.load {r : Reader} (h : r.Inside s n) (hi : i < n)
    (hp : r.p = s + BitVec.ofNat 64 i) : (r.load 1).Inside s n := by
  intro l hl
  rcases List.mem_append.mp hl with hold | hnew
  · exact h l hold
  · rw [List.mem_singleton.mp hnew]
    intro j hj
    refine ⟨i, hi, ?_⟩
    rw [Nat.lt_one_iff.mp hj, BitVec.add_zero]
    exact hp

/-- What is loaded now is kept with the rest. -/
theorem mem_load {r : Reader} {a : Addr} (hp : r.p = a) (size : Nat) :
    ⟨a, size⟩ ∈ (r.load size).loads := by
  rw [← hp]
  exact List.mem_append_right _ (List.mem_singleton.mpr rfl)

/-- A byte behind the range is not one of it. -/
theorem not_inside {r : Reader} {k : Nat} (hl : ⟨s + BitVec.ofNat 64 k, 1⟩ ∈ r.loads)
    (hn : n ≤ k) (hk : k < 2 ^ 64) : ¬ r.Inside s n := by
  intro h
  obtain ⟨i, hi, heq⟩ := h _ hl 0 Nat.one_pos
  rw [BitVec.add_zero] at heq
  exact ofNat_ne hk (show i < 2 ^ 64 by omega) (by omega) (add_left_cancel heq)

end Reader

end Ytl.CString
