/-
How far `strcmp` reads.

Through the first pointer it loads bytes of the string and aligned words that begin with
one.  Through the second it loads words wherever the first is aligned, and such a word may
go on in an aligned word behind the NUL.  When that happens is said here exactly.

It does no harm to read past a NUL as long as it is in the same page.  An aligned word lies in
one page, so what counts is whether every load lies in an aligned word that has a byte of its
string.
-/
import Ytl.Proofs.String.Compare

namespace Ytl.CString

open Memory

variable {m : Bytes} {s s1 s2 : Addr} {n n1 n2 o : Nat} {l : Load}

/-! ### Blocks of memory

A block begins at a multiple of its size, as a word and a page do.
-/

/-- Every byte that is loaded is in an aligned block with a byte of the string. -/
def Load.Within (block : Nat) (s : Addr) (n : Nat) (l : Load) : Prop :=
  ∀ j, j < l.size → ∃ i, i ≤ n ∧
    (l.addr + BitVec.ofNat 64 j).toNat / block = (s + BitVec.ofNat 64 i).toNat / block

/-- So it is in a larger block, as a page is one. -/
theorem Load.Within.mono {block page : Nat} (h : l.Within block s n) (hpage : block ∣ page) :
    l.Within page s n := by
  obtain ⟨k, rfl⟩ := hpage
  intro j hj
  obtain ⟨i, hi, heq⟩ := h j hj
  refine ⟨i, hi, ?_⟩
  rw [← Nat.div_div_eq_div_mul, ← Nat.div_div_eq_div_mul, heq]

/-- The loads of a comparison, each with its own string. -/
def Pair.Within (block : Nat) (s1 : Addr) (n1 : Nat) (s2 : Addr) (n2 : Nat) (p : Pair) : Prop :=
  (∀ l ∈ p.r1.loads, l.Within block s1 n1) ∧ ∀ l ∈ p.r2.loads, l.Within block s2 n2

theorem within_byte (ho : o ≤ n) : Load.Within 8 s n ⟨s + BitVec.ofNat 64 o, 1⟩ := by
  intro j hj
  refine ⟨o, ho, ?_⟩
  rw [Nat.lt_one_iff.mp hj, BitVec.add_zero]

theorem Load.Begins.within (h : l.Begins s n) : l.Within 8 s n := by
  obtain ⟨⟨i, hi, haddr⟩, hbyte | ⟨hword, haligned⟩⟩ := h
  · intro j hj
    refine ⟨i, hi, ?_⟩
    rw [show j = 0 by omega, haddr, BitVec.add_zero]
  · intro j hj
    rw [hword] at hj
    refine ⟨i, hi, ?_⟩
    rw [← haddr, toNat_add_of_aligned haligned hj]
    rw [aligned_iff] at haligned
    omega

/-- The word at the byte `o` is aligned, or what it has in the next aligned word begins in
the string.  (In the last case the string goes round all of the memory.) -/
def Fits (s : Addr) (n o : Nat) : Prop :=
  let r := ((s + BitVec.ofNat 64 o) &&& 7).toNat
  r = 0 ∨ o + 8 ≤ n + r ∨ 2 ^ 64 + r ≤ o + 15

theorem within_word_iff (ho : o ≤ n) (hn : n < 2 ^ 64) :
    Load.Within 8 s n ⟨s + BitVec.ofNat 64 o, 8⟩ ↔ Fits s n o := by
  have hs := s.isLt
  have haddr : ∀ k, (s + BitVec.ofNat 64 k).toNat = (s.toNat + k) % 2 ^ 64 := by
    intro k
    rw [BitVec.toNat_add, BitVec.toNat_ofNat, Nat.add_mod_mod]
  unfold Fits
  dsimp only
  rw [toNat_and_seven, toNat_add_mod]
  constructor
  · intro h
    -- the last byte is in the next aligned word, unless the word is aligned
    obtain ⟨i, hi, heq⟩ := h 7 (Nat.lt_succ_self 7)
    dsimp only at heq
    rw [add_ofNat_add, haddr, haddr] at heq
    omega
  · intro h j (hj : j < 8)
    dsimp only
    rw [add_ofNat_add]
    by_cases hfirst : (s.toNat + o) % 8 + j < 8
    · refine ⟨o, ho, ?_⟩
      rw [haddr, haddr]
      omega
    · rcases h with hzero | hnext | hround
      · omega
      · refine ⟨o + 8 - (s.toNat + o) % 8, by omega, ?_⟩
        rw [haddr, haddr]
        omega
      · refine ⟨o + 8 - (s.toNat + o) % 8 - 2 ^ 64, by omega, ?_⟩
        rw [haddr, haddr]
        omega

/-! ### The comparison

Words are compared where the first string has a whole aligned word without a NUL, up to the
first that differs.
-/

/-- A place where a whole word is compared, told by the strings. -/
theorem wordAt_iff {t : Strings m} :
    t.WordAt o ↔ (t.s1 + BitVec.ofNat 64 o) &&& 7 = 0 ∧ o + 8 ≤ t.n1 ∧
      ∀ i, i < o → m (t.s1 + BitVec.ofNat 64 i) = m (t.s2 + BitVec.ofNat 64 i) := by
  constructor
  · intro h
    refine ⟨h.aligned, ?_, fun i hi => (h.agree i hi).1⟩
    exact t.string1.le_of_before
      (before_add (fun j hj => (h.agree j hj).2) (hasZero_at_iff.mp h.full))
  · rintro ⟨haligned, ho, heq⟩
    refine ⟨haligned, fun j hj => ⟨heq j hj, t.string1.before j (by omega)⟩, ?_⟩
    exact hasZero_at_iff.mpr fun j hj => t.string1.before (o + j) (by omega)

/--
**When `strcmp` reads only words of its strings.**  Every byte it loads is in an aligned
word with a byte of the string it belongs to, and so in a page with one, exactly when each
word of the first string that it compares whole meets a word of the second string that
fits.
-/
theorem strcmp_within_iff (h1 : IsString m s1 n1) (h2 : IsString m s2 n2) :
    ∃ v p, strcmp m s1 s2 = .ok (v, p) ∧
      (p.Within 8 s1 n1 s2 n2 ∧ (∀ page, 8 ∣ page → p.Within page s1 n1 s2 n2) ↔
        ∀ o, (s1 + BitVec.ofNat 64 o) &&& 7 = 0 → o + 8 ≤ n1 →
          (∀ i, i < o → m (s1 + BitVec.ofNat 64 i) = m (s2 + BitVec.ofNat 64 i)) →
          Fits s2 n2 o) := by
  let t : Strings m := ⟨s1, s2, n1, n2, h1, h2⟩
  obtain ⟨e, v, p, hv, hdecided⟩ := t.strcmp_decided
  have hwalked := hdecided.walked
  refine ⟨v, p, hv, ?_, ?_⟩
  · rintro ⟨⟨-, hwithin⟩, -⟩ o haligned ho heq
    have hword : t.WordAt o := wordAt_iff.mpr ⟨haligned, ho, heq⟩
    exact (within_word_iff hword.agree.le2 h2.lt_allAddrs).mp
      (hwithin _ (hwalked.words o hword.lt hword))
  · intro hfits
    have hwithin : p.Within 8 s1 n1 s2 n2 := by
      refine ⟨fun l hl => (hwalked.loads1 l hl).within, fun l hl => ?_⟩
      rcases hwalked.loads2 l hl with ⟨i, hi, rfl⟩ | ⟨o, hword, rfl⟩
      · exact within_byte hi
      · obtain ⟨haligned, ho, heq⟩ := wordAt_iff.mp hword
        exact (within_word_iff hword.agree.le2 h2.lt_allAddrs).mpr (hfits o haligned ho heq)
    exact ⟨hwithin, fun page hpage =>
      ⟨fun l hl => (hwithin.1 l hl).mono hpage, fun l hl => (hwithin.2 l hl).mono hpage⟩⟩

/-- Twice the same eleven bytes, at addresses that are equally aligned. -/
theorem strcmp_within_equally :
    ∃ v p, strcmp (fun a => a.setWidth 8) 245 501 = .ok (v, p) ∧
      (p.Within 8 245 11 501 11 ∧ (∀ page, 8 ∣ page → p.Within page 245 11 501 11) ↔
        ∀ o, (245 + BitVec.ofNat 64 o) &&& 7 = 0 → o + 8 ≤ 11 →
          (∀ i, i < o →
            (245 + BitVec.ofNat 64 i).setWidth 8 = (501 + BitVec.ofNat 64 i).setWidth 8) →
          Fits 501 11 o) :=
  strcmp_within_iff ⟨by decide, by decide⟩ ⟨by decide, by decide⟩

/-- The empty string in the last byte of a page, against an aligned string of sixteen bytes:
the first word that is loaded goes on in the next page. -/
theorem strcmp_leaves_page :
    IsString (fun a => if a = 4095 ∨ a = 8208 then 0 else 0x41) 8192 16 ∧
      IsString (fun a => if a = 4095 ∨ a = 8208 then 0 else 0x41) 4095 0 ∧
      ∃ v p, strcmp (fun a => if a = 4095 ∨ a = 8208 then 0 else 0x41) 8192 4095 = .ok (v, p) ∧
        ¬ p.Within 8 8192 16 4095 0 ∧ ¬ p.Within 4096 8192 16 4095 0 := by
  refine ⟨⟨by decide, by decide⟩, ⟨by decide, by decide⟩, ?_⟩
  obtain ⟨⟨v, p⟩, hv, hload⟩ := returns_of_checkResult
    (x := strcmp (fun a => if a = 4095 ∨ a = 8208 then 0 else 0x41) 8192 4095)
    (P := fun x => x.2.r2.loads.any fun l => l.addr == 4095 && l.size == 8) (by decide +kernel)
  obtain ⟨⟨addr, size⟩, hl, heq⟩ := List.any_eq_true.mp hload
  obtain ⟨rfl, rfl⟩ : addr = 4095 ∧ size = 8 := by simpa using heq
  have hleaves : ∀ block, block = 8 ∨ block = 4096 → ¬ p.Within block 8192 16 4095 0 := by
    intro block hblock hwithin
    obtain ⟨i, hi, hsame⟩ := hwithin.2 _ hl 1 (by decide)
    rw [Nat.le_zero.mp hi] at hsame
    rcases hblock with rfl | rfl
    · exact absurd hsame (by decide)
    · exact absurd hsame (by decide)
  exact ⟨v, p, hv, hleaves 8 (Or.inl rfl), hleaves 4096 (Or.inr rfl)⟩

end Ytl.CString
