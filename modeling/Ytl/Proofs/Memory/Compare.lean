/-
`memcmp` compares.

Every loop compares a part of the two ranges and either finds the first difference in it or
goes on behind it.  Which part a loop gets depends on how `cs` is aligned, but not what comes
out of all of them together.

The loop over words finds a word in which the two differ, and not the byte; it leaves that to
a loop over the bytes of the word.  So a part has been compared either with a result, or with
none and then without a difference in it, and the parts are put together by the rule for
comparing sequences part by part.
-/
import Ytl.Base.FirstDiff
import Ytl.Proofs.Memory.Word

namespace Ytl.Memory

/-- The bytes from an address on, as `unsigned char`s. -/
def letters (m : Bytes) (a : Addr) (i : Nat) : Int := (m (a + BitVec.ofNat 64 i)).toNat

theorem letters_add (m : Bytes) (a : Addr) (k : Nat) :
    letters m (a + BitVec.ofNat 64 k) = fun i => letters m a (k + i) := by
  funext i
  unfold letters
  rw [add_ofNat_add]

theorem letters_eq_iff {m : Bytes} {a b : Addr} {i : Nat} :
    letters m a i = letters m b i ↔
      m (a + BitVec.ofNat 64 i) = m (b + BitVec.ofNat 64 i) := by
  unfold letters
  rw [Int.natCast_inj]
  exact ⟨BitVec.eq_of_toNat_eq, congrArg BitVec.toNat⟩

namespace Compare

variable {m : Bytes} {p q : Compare} {k l n : Nat} {v : Int} {r : Int ⊕ Compare}

/-! ### A part that has been compared -/

/-- The next `n` bytes have been compared: the first difference is returned, or there is
none and the pointers are behind. -/
inductive Went (m : Bytes) (p : Compare) (n : Nat) : Int ⊕ Compare → Prop
  | differ {v : Int} (hv : v ≠ 0) (h : Compares (letters m p.s1) (letters m p.s2) n v) :
      Went m p n (.inl v)
  | same (h : ∀ i, i < n → letters m p.s1 i = letters m p.s2 i) :
      Went m p n (.inr (p.next (BitVec.ofNat 64 n)))

namespace Went

theorem zero (m : Bytes) (p : Compare) : Went m p 0 (.inr p) := by
  have hp : p.next (BitVec.ofNat 64 0) = p := by
    unfold next
    rw [BitVec.add_zero, BitVec.add_zero]
  have hsame : Went m p 0 (.inr (p.next (BitVec.ofNat 64 0))) :=
    same fun i hi => absurd hi (Nat.not_lt_zero i)
  rwa [hp] at hsame

/-- A difference is returned from any longer part. -/
theorem extend (h : Went m p k (.inl v)) (hkn : k ≤ n) : Went m p n (.inl v) := by
  cases h with
  | differ hv h => exact differ hv (h.extend hv hkn)

theorem append (h : Went m p k (.inr q)) (h' : Went m q l r) : Went m p (k + l) r := by
  cases h with
  | same hsame =>
      cases h' with
      | differ hv hrest =>
          refine differ hv (Compares.after hsame ?_)
          rw [← letters_add, ← letters_add]
          exact hrest
      | same hrest =>
          have hq : (p.next (BitVec.ofNat 64 k)).next (BitVec.ofNat 64 l) =
              p.next (BitVec.ofNat 64 (k + l)) := by
            unfold next
            dsimp only
            rw [add_ofNat_add, add_ofNat_add]
          rw [hq]
          refine same (before_add hsame fun i hi => ?_)
          have heq := hrest i hi
          unfold next at heq
          rwa [letters_add, letters_add] at heq

/-- What is returned if this was all there is to compare. -/
theorem compares (h : Went m p n r) :
    Compares (letters m p.s1) (letters m p.s2) n (r.elim (fun v => v) fun _ => 0) := by
  cases h with
  | differ _ h => exact h
  | same h => exact Compares.same h

end Went

/-! ### The loops -/

theorem letters_zero (m : Bytes) (a : Addr) : letters m a 0 = (m a).toNat := by
  unfold letters
  rw [BitVec.add_zero]

theorem bytes_went (m : Bytes) : ∀ (n : Nat) (p : Compare), Went m p n (bytes m n p) := by
  intro n
  induction n with
  | zero =>
      intro p
      exact Went.zero m p
  | succ n ih =>
      intro p
      rw [bytes]
      have hfirst : letters m p.s1 0 = letters m p.s2 0 ↔ m p.s1 = m p.s2 := by
        rw [letters_eq_iff, BitVec.add_zero, BitVec.add_zero]
      by_cases heq : m p.s1 = m p.s2
      · rw [if_neg (not_not_intro heq), Nat.add_comm]
        refine Went.append (q := p.next 1) (Went.same fun i hi => ?_) (ih (p.next 1))
        rw [Nat.lt_one_iff.mp hi]
        exact hfirst.mpr heq
      · rw [if_pos heq]
        have hdiff : Compares (letters m p.s1) (letters m p.s2) (n + 1)
            (letters m p.s1 0 - letters m p.s2 0) :=
          Compares.differ (Nat.succ_pos n) (fun i hi => absurd hi (Nat.not_lt_zero i))
            (mt hfirst.mp heq)
        rw [letters_zero, letters_zero] at hdiff
        refine Went.differ (fun hzero => heq ?_) hdiff
        have hbytes := sub_eq_zero.mp hzero
        exact BitVec.eq_of_toNat_eq (Int.natCast_inj.mp hbytes)

/-- Two different words have a first byte in which they differ. -/
theorem inWord_went (h : loadWord m p.s1 ≠ loadWord m p.s2) :
    ∃ v, inWord m p = some v ∧ Went m p 8 (.inl v) := by
  unfold inWord
  dsimp only
  generalize hfind : (List.range 8).find? _ = o
  cases o with
  | none =>
      rw [List.find?_range_eq_none] at hfind
      refine absurd ((loadWord_eq_iff m _ _).mpr fun i hi => ?_) h
      simpa using hfind i hi
  | some k =>
      obtain ⟨hk, hmem, hbefore⟩ := List.find?_range_eq_some.mp hfind
      have hdiff : letters m p.s1 k ≠ letters m p.s2 k := by
        rw [Ne, letters_eq_iff]
        simpa using hk
      refine ⟨_, rfl, Went.differ ?_ (Compares.differ (List.mem_range.mp hmem) ?_ hdiff)⟩
      · exact fun hzero => hdiff (sub_eq_zero.mp hzero)
      · intro i hi
        rw [letters_eq_iff]
        simpa using hbefore i hi

theorem words_went (m : Bytes) :
    ∀ (fuel count : Nat) (p : Compare), count < fuel →
      (∃ v, words m fuel count p = .ok (.inl v) ∧ Went m p count (.inl v)) ∨
        ∃ k q, k ≤ count ∧ words m fuel count p = .ok (.inr (count - k, q)) ∧
          Went m p k (.inr q) := by
  intro fuel
  induction fuel with
  | zero =>
      intro count p hfuel
      omega
  | succ fuel ih =>
      intro count p hfuel
      rw [words]
      by_cases hmore : count ≥ 8
      · rw [if_pos hmore]
        by_cases heq : loadWord m p.s1 = loadWord m p.s2
        · rw [if_neg (not_not_intro heq), show sub64 count 8 = count - 8 from if_pos hmore]
          have hword : Went m p 8 (.inr (p.next 8)) :=
            Went.same fun i hi => letters_eq_iff.mpr ((loadWord_eq_iff m _ _).mp heq i hi)
          rcases ih (count - 8) (p.next 8) (by omega) with ⟨v, hv, hwent⟩ | ⟨k, q, hk, hq, hwent⟩
          · refine Or.inl ⟨v, hv, ?_⟩
            rw [show count = 8 + (count - 8) by omega]
            exact hword.append hwent
          · refine Or.inr ⟨8 + k, q, by omega, ?_, hword.append hwent⟩
            rw [hq, Nat.sub_add_eq]
        · obtain ⟨v, hv, hwent⟩ := inWord_went heq
          rw [if_pos heq, hv]
          exact Or.inl ⟨v, rfl, hwent.extend hmore⟩
      · rw [if_neg hmore]
        exact Or.inr ⟨0, p, Nat.zero_le _, rfl, Went.zero m p⟩

end Compare

/-- **`memcmp` is the comparison of the two ranges.** -/
theorem memcmp_compares (m : Bytes) (cs ct : Addr) (count : Nat) :
    ∃ v, memcmp m cs ct count = .ok v ∧ Compares (letters m cs) (letters m ct) count v := by
  unfold memcmp
  by_cases hshort : count < 8
  · rw [if_pos hshort]
    have hall := Compare.bytes_went m count ⟨cs, ct⟩
    generalize Compare.bytes m count ⟨cs, ct⟩ = r at hall
    cases r with
    | inl v => exact ⟨v, rfl, hall.compares⟩
    | inr q => exact ⟨0, rfl, hall.compares⟩
  · rw [if_neg hshort]
    have halign : (-cs &&& 7).toNat ≤ count := by
      rw [BitVec.toNat_and]
      exact Nat.and_le_right.trans (show 7 ≤ count by omega)
    have hhead := Compare.bytes_went m (-cs &&& 7).toNat ⟨cs, ct⟩
    dsimp only
    rw [show sub64 count (-cs &&& 7).toNat = count - (-cs &&& 7).toNat from if_pos halign]
    generalize Compare.bytes m (-cs &&& 7).toNat ⟨cs, ct⟩ = r at hhead
    cases r with
    | inl v => exact ⟨v, rfl, (hhead.extend halign).compares⟩
    | inr p =>
        dsimp only
        rcases Compare.words_went m _ (count - (-cs &&& 7).toNat) p (Nat.lt_succ_self _) with
          ⟨v, hv, hwent⟩ | ⟨k, q, hk, hq, hwent⟩
        · rw [hv, bind_of_ok]
          refine ⟨v, rfl, ((hhead.append hwent).extend ?_).compares⟩
          omega
        · have hall := (hhead.append hwent).append
            (Compare.bytes_went m (count - (-cs &&& 7).toNat - k) q)
          rw [show (-cs &&& 7).toNat + k + (count - (-cs &&& 7).toNat - k) = count by omega]
            at hall
          rw [hq, bind_of_ok]
          dsimp only
          generalize Compare.bytes m (count - (-cs &&& 7).toNat - k) q = r at hall
          cases r with
          | inl v => exact ⟨v, rfl, hall.compares⟩
          | inr q => exact ⟨0, rfl, hall.compares⟩

/--
**`memcmp` for every alignment.**  It returns 0 if the two ranges are equal and otherwise
the difference of the first two bytes that differ, as unsigned values; with the ranges
exchanged it returns the same with the other sign.
-/
theorem memcmp_correct (m : Bytes) (cs ct : Addr) (count : Nat) :
    ∃ v, memcmp m cs ct count = .ok v ∧
      ((∀ i, i < count → m (cs + BitVec.ofNat 64 i) = m (ct + BitVec.ofNat 64 i)) → v = 0) ∧
      (∀ k, k < count →
        (∀ i, i < k → m (cs + BitVec.ofNat 64 i) = m (ct + BitVec.ofNat 64 i)) →
        m (cs + BitVec.ofNat 64 k) ≠ m (ct + BitVec.ofNat 64 k) →
        v = (m (cs + BitVec.ofNat 64 k)).toNat - (m (ct + BitVec.ofNat 64 k)).toNat) ∧
      memcmp m ct cs count = .ok (-v) := by
  obtain ⟨v, hv, hcompares⟩ := memcmp_compares m cs ct count
  obtain ⟨w, hw, hswapped⟩ := memcmp_compares m ct cs count
  refine ⟨v, hv, fun hall => ?_, fun k hk hbefore hdiff => ?_, ?_⟩
  · exact hcompares.eq_zero_iff.mpr fun i hi => letters_eq_iff.mpr (hall i hi)
  · exact hcompares.eq_of_differ hk (fun i hi => letters_eq_iff.mpr (hbefore i hi))
      (mt letters_eq_iff.mp hdiff)
  · rw [hw, hswapped.unique hcompares.swap]

end Ytl.Memory
