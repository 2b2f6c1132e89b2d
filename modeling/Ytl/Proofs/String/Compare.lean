/-
`strcmp` compares.

The two strings agree, without a NUL, up to where the pointers are, so the function stops at
the one place where they differ or end together.  The words of the second string may hold
anything behind its NUL: a word of the first string without a zero is equal to one of them
only if there is no NUL in it either.

The same walk keeps account of the loads.  Through the second pointer exactly those words
are loaded at which the first string has a whole aligned word to be compared.
-/
import Ytl.Proofs.String.Scan

namespace Ytl.CString

open Memory

/-! ### Two strings

They may lie anywhere, also one in the other.
-/

/-- Two strings of a memory, with `n1` and `n2` bytes before their NULs. -/
structure Strings (m : Bytes) where
  s1 : Addr
  s2 : Addr
  n1 : Nat
  n2 : Nat
  string1 : IsString m s1 n1
  string2 : IsString m s2 n2

namespace Strings

variable {m : Bytes} {t : Strings m} {i k : Nat} {p : Pair}

/-- The strings are equal so far and go on. -/
def Agree (t : Strings m) (i : Nat) : Prop :=
  ∀ j, j < i → m (t.s1 + BitVec.ofNat 64 j) = m (t.s2 + BitVec.ofNat 64 j) ∧
    m (t.s1 + BitVec.ofNat 64 j) ≠ 0

/-- The strings differ here, or both end. -/
def Stops (t : Strings m) (e : Nat) : Prop :=
  m (t.s1 + BitVec.ofNat 64 e) = m (t.s2 + BitVec.ofNat 64 e) → m (t.s1 + BitVec.ofNat 64 e) = 0

/-- Here a whole word is compared. -/
structure WordAt (t : Strings m) (o : Nat) : Prop where
  aligned : (t.s1 + BitVec.ofNat 64 o) &&& 7 = 0
  agree : t.Agree o
  full : hasZero (loadWord m (t.s1 + BitVec.ofNat 64 o)) = false

theorem Agree.zero (t : Strings m) : t.Agree 0 := fun j hj => absurd hj (Nat.not_lt_zero j)

theorem Agree.le1 (h : t.Agree i) : i ≤ t.n1 :=
  t.string1.le_of_before fun j hj => (h j hj).2

theorem Agree.le2 (h : t.Agree i) : i ≤ t.n2 := by
  refine t.string2.le_of_before fun j hj => ?_
  rw [← (h j hj).1]
  exact (h j hj).2

/-- Nothing agrees past a stop. -/
theorem Agree.le_stop (h : t.Agree i) {e : Nat} (hstop : t.Stops e) : i ≤ e := by
  by_contra hc
  obtain ⟨heq, hb⟩ := h e (by omega)
  exact hb (hstop heq)

theorem WordAt.lt (h : t.WordAt i) : i < t.n1 + 1 := Nat.lt_succ_iff.mpr h.agree.le1

/-- Two aligned places are a word apart. -/
theorem apart {o : Nat} (hi : (t.s1 + BitVec.ofNat 64 i) &&& 7 = 0)
    (ho : (t.s1 + BitVec.ofNat 64 o) &&& 7 = 0) : o < i ∨ o = i ∨ i + 8 ≤ o := by
  rw [aligned_iff, toNat_add_mod] at hi ho
  omega

/-- A word without a zero comes before every place where one is compared. -/
theorem WordAt.full_of_le {o : Nat} (h : t.WordAt o)
    (hi : (t.s1 + BitVec.ofNat 64 i) &&& 7 = 0) (hio : i ≤ o) :
    hasZero (loadWord m (t.s1 + BitVec.ofNat 64 i)) = false := by
  rcases apart hi h.aligned with hlt | rfl | hfar
  · omega
  · exact h.full
  · exact hasZero_at_iff.mpr fun j hj => (h.agree (i + j) (by omega)).2

/-- So do two equal words. -/
theorem WordAt.same_of_lt {o : Nat} (h : t.WordAt o)
    (hi : (t.s1 + BitVec.ofNat 64 i) &&& 7 = 0) (hio : i < o) :
    loadWord m (t.s1 + BitVec.ofNat 64 i) = loadWord m (t.s2 + BitVec.ofNat 64 i) := by
  rw [loadWord_eq_iff]
  intro j hj
  rw [add_ofNat_add, add_ofNat_add]
  rcases apart hi h.aligned with hlt | rfl | hfar
  · omega
  · omega
  · exact (h.agree (i + j) (by omega)).1

/-! ### What is known on the way

The first pointer is aligned before words are compared, and the second one lies wherever it
does.
-/

/-- A byte of the second string, or a word that is compared. -/
def Loads2 (t : Strings m) (l : Load) : Prop :=
  (∃ i, i ≤ t.n2 ∧ l = ⟨t.s2 + BitVec.ofNat 64 i, 1⟩) ∨
    ∃ o, t.WordAt o ∧ l = ⟨t.s2 + BitVec.ofNat 64 o, 8⟩

/-- The pointers have come to `i`, and every word in front of `k` that had to be compared
has been loaded. -/
structure Walked (t : Strings m) (k i : Nat) (p : Pair) : Prop where
  p1 : p.r1.p = t.s1 + BitVec.ofNat 64 i
  p2 : p.r2.p = t.s2 + BitVec.ofNat 64 i
  agree : t.Agree i
  loads1 : ∀ l ∈ p.r1.loads, l.Begins t.s1 t.n1
  loads2 : ∀ l ∈ p.r2.loads, t.Loads2 l
  words : ∀ o, o < k → t.WordAt o → ⟨t.s2 + BitVec.ofNat 64 o, 8⟩ ∈ p.r2.loads

namespace Walked

theorem start (t : Strings m) : t.Walked 0 0 ⟨⟨t.s1, []⟩, ⟨t.s2, []⟩⟩ :=
  ⟨(BitVec.add_zero t.s1).symm, (BitVec.add_zero t.s2).symm, Agree.zero t,
    fun _ hl => absurd hl List.not_mem_nil, fun _ hl => absurd hl List.not_mem_nil,
    fun o ho => absurd ho (Nat.not_lt_zero o)⟩

theorem load1 (h : t.Walked k i p) {size : Nat} (hsize : size = 1 ∨ size = 8 ∧ p.r1.p &&& 7 = 0) :
    t.Walked k i (p.load1 size) := by
  refine ⟨h.p1, h.p2, h.agree, fun l hl => ?_, h.loads2, h.words⟩
  rcases List.mem_append.mp hl with hold | hnew
  · exact h.loads1 l hold
  · rw [List.mem_singleton.mp hnew]
    exact ⟨⟨i, h.agree.le1, h.p1⟩, hsize⟩

theorem load2 (h : t.Walked k i p) {size : Nat} (hsize : size = 1 ∨ size = 8 ∧ t.WordAt i) :
    t.Walked k i (p.load2 size) := by
  refine ⟨h.p1, h.p2, h.agree, h.loads1, fun l hl => ?_, fun o ho hword => ?_⟩
  · rcases List.mem_append.mp hl with hold | hnew
    · exact h.loads2 l hold
    · rw [List.mem_singleton.mp hnew, h.p2]
      rcases hsize with rfl | ⟨rfl, hword⟩
      · exact Or.inl ⟨i, h.agree.le2, rfl⟩
      · exact Or.inr ⟨i, hword, rfl⟩
  · exact List.mem_append_left _ (h.words o ho hword)

/-- Both bytes are loaded. -/
theorem bytes (h : t.Walked k i p) : t.Walked k i ((p.load1 1).load2 1) :=
  (h.load1 (Or.inl rfl)).load2 (Or.inl rfl)

/-- Both words are loaded, and so the one that is compared here. -/
theorem words_at (h : t.Walked i i p) (hword : t.WordAt i) :
    t.Walked (i + 1) i ((p.load1 8).load2 8) := by
  have haligned : p.r1.p &&& 7 = 0 := by
    rw [h.p1]
    exact hword.aligned
  have hboth : t.Walked i i ((p.load1 8).load2 8) :=
    (h.load1 (Or.inr ⟨rfl, haligned⟩)).load2 (Or.inr ⟨rfl, hword⟩)
  refine { hboth with words := fun o ho hword' => ?_ }
  rcases Nat.lt_succ_iff_lt_or_eq.mp ho with hlt | rfl
  · exact hboth.words o hlt hword'
  · exact Reader.mem_load h.p2 8

/-- No word in between is compared. -/
theorem extend (h : t.Walked k i p) {k' : Nat} (hk : ∀ o, k ≤ o → o < k' → ¬ t.WordAt o) :
    t.Walked k' i p := by
  refine ⟨h.p1, h.p2, h.agree, h.loads1, h.loads2, fun o ho hword => ?_⟩
  by_cases hold : o < k
  · exact h.words o hold hword
  · exact absurd hword (hk o (by omega) ho)

/-- Going on behind `l` bytes that are equal and not 0. -/
theorem next (h : t.Walked k i p) {l : Nat}
    (heq : ∀ j, j < l → m (t.s1 + BitVec.ofNat 64 (i + j)) = m (t.s2 + BitVec.ofNat 64 (i + j)))
    (hb : ∀ j, j < l → m (t.s1 + BitVec.ofNat 64 (i + j)) ≠ 0) :
    t.Walked k (i + l) (p.next (BitVec.ofNat 64 l)) := by
  refine ⟨?_, ?_, before_add h.agree fun j hj => ⟨heq j hj, hb j hj⟩, h.loads1, h.loads2, h.words⟩
  · show p.r1.p + BitVec.ofNat 64 l = _
    rw [h.p1, add_ofNat_add]
  · show p.r2.p + BitVec.ofNat 64 l = _
    rw [h.p2, add_ofNat_add]

theorem next_byte (h : t.Walked k i p) (heq : m p.r1.p = m p.r2.p) (hb : m p.r1.p ≠ 0) :
    t.Walked k (i + 1) (p.next 1) := by
  rw [h.p1, h.p2] at heq
  rw [h.p1] at hb
  refine h.next (l := 1) (fun j hj => ?_) fun j hj => ?_
  · rw [Nat.lt_one_iff.mp hj]
    exact heq
  · rw [Nat.lt_one_iff.mp hj]
    exact hb

theorem stops (h : t.Walked k i p) (hstop : m p.r1.p = m p.r2.p → m p.r1.p = 0) : t.Stops i := by
  rw [h.p1, h.p2] at hstop
  exact hstop

end Walked

/-! ### What a comparison returns

There is one place at which a comparison can stop, so it does not matter by which loop it
does.
-/

/-- The walk has stopped and the difference is returned, with all words compared. -/
structure Decided (t : Strings m) (e : Nat) (v : Int) (p : Pair) : Prop where
  walked : t.Walked (t.n1 + 1) e p
  stop : t.Stops e
  value : v = byteDiff (m (t.s1 + BitVec.ofNat 64 e)) (m (t.s2 + BitVec.ofNat 64 e))

theorem Walked.decided (h : t.Walked (t.n1 + 1) i p)
    (hstop : m p.r1.p = m p.r2.p → m p.r1.p = 0) :
    t.Decided i (difference m p).1 (difference m p).2 := by
  refine ⟨h.bytes, h.stops hstop, ?_⟩
  rw [← h.p1, ← h.p2]
  rfl

/-! ### The loops

Single bytes up to the first aligned address, words as long as they are equal and without a
zero, and then bytes again: when the words have stopped, the place where the strings stop is
among the next eight.
-/

/-- No word is compared at an address that is not aligned. -/
theorem not_wordAt (h : t.Walked k i p) (hi : p.r1.p &&& 7 ≠ 0) : ¬ t.WordAt i := by
  intro hword
  rw [h.p1] at hi
  exact hi hword.aligned

theorem head_returns (t : Strings m) :
    ∃ x, loop (strcmpHead m) allAddrs ⟨⟨t.s1, []⟩, ⟨t.s2, []⟩⟩ = .ok x ∧
      ((∃ e v p, x = .inl (v, p) ∧ t.Decided e v p) ∨
        ∃ i p, x = .inr p ∧ p.r1.p &&& 7 = 0 ∧ t.Walked i i p) := by
  refine t.string1.loop_returns (I := fun i p => t.Walked i i p) (fun i p h => h.agree.le1)
    (Walked.start t) ?_
  intro i p h
  unfold strcmpHead
  by_cases haligned : p.r1.p &&& 7 = 0
  · rw [if_neg (not_not_intro haligned)]
    exact Or.inr ⟨.inr p, rfl, Or.inr ⟨i, p, rfl, haligned, h⟩⟩
  · rw [if_pos haligned]
    -- if the strings stop here, no word behind is compared
    have hend : t.Stops i → t.Walked (t.n1 + 1) i ((p.load1 1).load2 1) := by
      intro hstop
      refine h.bytes.extend fun o ho _ hword => ?_
      have hle := hword.agree.le_stop hstop
      rw [show o = i by omega] at hword
      exact not_wordAt h haligned hword
    by_cases heq : m p.r1.p = m p.r2.p
    · by_cases hb : m p.r1.p = 0
      · have hstop : t.Stops i := h.stops fun _ => hb
        refine Or.inr ⟨.inl (0, ((p.load1 1).load2 1).load1 1), ?_, Or.inl ⟨i, 0, _, rfl, ?_⟩⟩
        · exact (if_neg (not_not_intro heq)).trans (if_pos hb)
        · refine ⟨(hend hstop).load1 (Or.inl rfl), hstop, ?_⟩
          rw [← h.p1, ← h.p2, heq]
          exact (sub_self _).symm
      · refine Or.inl ⟨(((p.load1 1).load2 1).load1 1).next 1, i + 1, ?_, Nat.lt_succ_self i, ?_⟩
        · exact (if_neg (not_not_intro heq)).trans (if_neg hb)
        · refine Walked.extend (k := i) ((h.bytes.load1 (Or.inl rfl)).next_byte heq hb) ?_
          intro o ho ho' hword
          rw [show o = i by omega] at hword
          exact not_wordAt h haligned hword
    · refine Or.inr ⟨.inl (difference m ((p.load1 1).load2 1)), if_pos heq,
        Or.inl ⟨i, _, _, rfl, ?_⟩⟩
      have hstop : m p.r1.p = m p.r2.p → m p.r1.p = 0 := fun hc => absurd hc heq
      exact (hend (h.stops hstop)).decided hstop

theorem word_returns (h : t.Walked i i p) (haligned : p.r1.p &&& 7 = 0) :
    ∃ p', loop (strcmpWord m) allAddrs p = .ok p' ∧ ∃ i, t.Walked (t.n1 + 1) i p' := by
  refine t.string1.loop_returns (I := fun i p => t.Walked i i p ∧ p.r1.p &&& 7 = 0)
    (fun i p h => h.1.agree.le1) ⟨h, haligned⟩ ?_
  rintro i p ⟨h, haligned⟩
  have hload : t.Walked i i (p.load1 8) := h.load1 (Or.inr ⟨rfl, haligned⟩)
  have hplace : (t.s1 + BitVec.ofNat 64 i) &&& 7 = 0 := by rw [← h.p1]; exact haligned
  unfold strcmpWord
  by_cases hzero : hasZero (loadWord m p.r1.p) = true
  · refine Or.inr ⟨p.load1 8, if_pos hzero, i, hload.extend fun o ho _ hword => ?_⟩
    rw [h.p1, hword.full_of_le hplace ho] at hzero
    cases hzero
  · have hfull : hasZero (loadWord m p.r1.p) = false := Bool.eq_false_iff.mpr hzero
    have hword : t.WordAt i := ⟨hplace, h.agree, by rw [← h.p1]; exact hfull⟩
    have hloaded : t.Walked (i + 1) i (((p.load1 8).load1 8).load2 8) := hload.words_at hword
    by_cases heq : loadWord m p.r1.p = loadWord m p.r2.p
    · refine Or.inl ⟨(((p.load1 8).load1 8).load2 8).next 8, i + 8, ?_, by omega, ?_,
        aligned_next haligned⟩
      · exact (if_neg hzero).trans (if_pos heq)
      · rw [h.p1, h.p2, loadWord_eq_iff] at heq
        rw [h.p1, hasZero_at_iff] at hfull
        simp only [add_ofNat_add] at heq
        refine Walked.extend (hloaded.next (l := 8) heq hfull) fun o ho ho' hword' => ?_
        rcases apart hplace hword'.aligned with hlt | rfl | hfar <;> omega
    · refine Or.inr ⟨((p.load1 8).load1 8).load2 8, ?_, i, hloaded.extend fun o ho _ hword' => ?_⟩
      · exact (if_neg hzero).trans (if_neg heq)
      · apply heq
        rw [h.p1, h.p2]
        exact hword'.same_of_lt hplace ho

theorem byte_returns (h : t.Walked (t.n1 + 1) i p) :
    ∃ p', loop (strcmpByte m) allAddrs p = .ok p' ∧
      ∃ e, t.Walked (t.n1 + 1) e p' ∧ (m p'.r1.p = m p'.r2.p → m p'.r1.p = 0) := by
  refine t.string1.loop_returns (I := fun i p => t.Walked (t.n1 + 1) i p)
    (fun i p h => h.agree.le1) h ?_
  intro i p h
  have hload : t.Walked (t.n1 + 1) i (p.load1 1) := h.load1 (Or.inl rfl)
  unfold strcmpByte
  by_cases hb : m p.r1.p = 0
  · exact Or.inr ⟨p.load1 1, if_pos hb, i, hload, fun _ => hb⟩
  · by_cases heq : m p.r1.p = m p.r2.p
    · exact Or.inl ⟨(((p.load1 1).load1 1).load2 1).next 1, i + 1,
        (if_neg hb).trans (if_pos heq), Nat.lt_succ_self i, hload.bytes.next_byte heq hb⟩
    · exact Or.inr ⟨((p.load1 1).load1 1).load2 1, (if_neg hb).trans (if_neg heq), i,
        hload.bytes, fun hc => absurd hc heq⟩

/-- **A whole comparison.** -/
theorem strcmp_decided (t : Strings m) :
    ∃ e v p, strcmp m t.s1 t.s2 = .ok (v, p) ∧ t.Decided e v p := by
  unfold strcmp
  obtain ⟨x, hhead, ⟨e, v, p, rfl, hdecided⟩ | ⟨i, p, rfl, haligned, h⟩⟩ := head_returns t
  · refine ⟨e, v, p, ?_, hdecided⟩
    rw [hhead]
    rfl
  · obtain ⟨p', hword, i', h'⟩ := word_returns h haligned
    obtain ⟨p'', hbyte, e, h'', hstop⟩ := byte_returns h'
    refine ⟨e, (difference m p'').1, (difference m p'').2, ?_, h''.decided hstop⟩
    rw [hhead, bind_of_ok]
    dsimp only
    rw [hword, bind_of_ok, hbyte]
    rfl

theorem strncmp_decided {count : Nat} :
    ∀ {i : Nat} {p : Pair}, t.Walked 0 i p → min t.n1 t.n2 < i + count →
      ∃ e, t.Agree e ∧ t.Stops e ∧ (strncmpLoop m count p).1 =
        byteDiff (m (t.s1 + BitVec.ofNat 64 e)) (m (t.s2 + BitVec.ofNat 64 e)) := by
  induction count with
  | zero =>
      intro i p h hcount
      have hle1 := h.agree.le1
      have hle2 := h.agree.le2
      omega
  | succ count ih =>
      intro i p h hcount
      rw [strncmpLoop]
      by_cases heq : m p.r1.p = m p.r2.p
      · by_cases hb : m p.r1.p = 0
        · refine ⟨i, h.agree, h.stops fun _ => hb, ?_⟩
          rw [if_neg (not_not_intro heq), if_pos hb, ← h.p1, ← h.p2, heq]
          exact (sub_self _).symm
        · rw [if_neg (not_not_intro heq), if_neg hb]
          exact ih (h.bytes.next_byte heq hb) (by omega)
      · refine ⟨i, h.agree, h.stops fun hc => absurd hc heq, ?_⟩
        rw [if_pos heq, h.p1, h.p2]

/-- There is one place to stop. -/
theorem stop_unique {e e' : Nat} (h : t.Agree e) (hstop : t.Stops e) (h' : t.Agree e')
    (hstop' : t.Stops e') : e = e' :=
  Nat.le_antisymm (h.le_stop hstop') (h'.le_stop hstop)

/-- Where the strings stop without a difference, both are at an end. -/
theorem ends_of_same {e : Nat} (h : t.Agree e) (hstop : t.Stops e)
    (heq : m (t.s1 + BitVec.ofNat 64 e) = m (t.s2 + BitVec.ofNat 64 e)) : e = t.n1 ∧ e = t.n2 := by
  have hnul := hstop heq
  constructor
  · exact t.string1.eq_of_nul (fun j hj => (h j hj).2) hnul
  · refine t.string2.eq_of_nul (fun j hj => ?_) (heq ▸ hnul)
    rw [← (h j hj).1]
    exact (h j hj).2

end Strings

variable {m : Bytes} {s1 s2 : Addr} {n1 n2 : Nat}

/--
**`strcmp` for every alignment.**  It returns 0 if the strings are equal and otherwise the
difference of the first two bytes that differ, as unsigned values.  `strncmp` returns the
same for every count beyond the length of the shorter string.
-/
theorem strcmp_correct (h1 : IsString m s1 n1) (h2 : IsString m s2 n2) :
    ∃ v p, strcmp m s1 s2 = .ok (v, p) ∧
      ((n1 = n2 ∧ (∀ i, i < n1 → m (s1 + BitVec.ofNat 64 i) = m (s2 + BitVec.ofNat 64 i)) ∧
          v = 0) ∨
        ∃ k, k ≤ n1 ∧ k ≤ n2 ∧
          (∀ i, i < k → m (s1 + BitVec.ofNat 64 i) = m (s2 + BitVec.ofNat 64 i)) ∧
          m (s1 + BitVec.ofNat 64 k) ≠ m (s2 + BitVec.ofNat 64 k) ∧
          v = (m (s1 + BitVec.ofNat 64 k)).toNat - (m (s2 + BitVec.ofNat 64 k)).toNat) ∧
      ∀ count, min n1 n2 < count → (strncmp m s1 s2 count).1 = v := by
  let t : Strings m := ⟨s1, s2, n1, n2, h1, h2⟩
  obtain ⟨e, v, p, hv, hdecided⟩ := t.strcmp_decided
  have hagree : t.Agree e := hdecided.walked.agree
  refine ⟨v, p, hv, ?_, fun count hcount => ?_⟩
  · by_cases heq : m (s1 + BitVec.ofNat 64 e) = m (s2 + BitVec.ofNat 64 e)
    · obtain ⟨hn1, hn2⟩ := Strings.ends_of_same hagree hdecided.stop heq
      refine Or.inl ⟨hn1.symm.trans hn2, fun i hi => ?_, ?_⟩
      · rw [← show e = n1 from hn1] at hi
        exact (hagree i hi).1
      · rw [hdecided.value, show m (t.s1 + BitVec.ofNat 64 e) = _ from heq]
        exact sub_self _
    · exact Or.inr ⟨e, hagree.le1, hagree.le2, fun i hi => (hagree i hi).1, heq, hdecided.value⟩
  · obtain ⟨e', hagree', hstop', hvalue⟩ :=
      Strings.strncmp_decided (Strings.Walked.start t) (show min n1 n2 < 0 + count by omega)
    rw [hdecided.value, Strings.stop_unique hagree hdecided.stop hagree' hstop']
    exact hvalue

/-- Eleven and twelve bytes at addresses of different alignment. -/
theorem strcmp_correct_unaligned :
    ∃ v p, strcmp (fun a => a.setWidth 8) 245 500 = .ok (v, p) ∧
      ((11 = 12 ∧ (∀ i, i < 11 →
            (245 + BitVec.ofNat 64 i).setWidth 8 = (500 + BitVec.ofNat 64 i).setWidth 8) ∧
          v = 0) ∨
        ∃ k, k ≤ 11 ∧ k ≤ 12 ∧
          (∀ i, i < k →
            (245 + BitVec.ofNat 64 i).setWidth 8 = (500 + BitVec.ofNat 64 i).setWidth 8) ∧
          (245 + BitVec.ofNat 64 k).setWidth 8 ≠ (500 + BitVec.ofNat 64 k).setWidth 8 ∧
          v = ((245 + BitVec.ofNat 64 k).setWidth 8).toNat -
            ((500 + BitVec.ofNat 64 k).setWidth 8).toNat) ∧
      ∀ count, min 11 12 < count → (strncmp (fun a => a.setWidth 8) 245 500 count).1 = v :=
  strcmp_correct ⟨by decide, by decide⟩ ⟨by decide, by decide⟩

end Ytl.CString
