/-
Searching for a string.

`strstr` compares at every place of the haystack and stops at its NUL.  `strnstr` stops only
where the needle would not fit into `len`: it goes on behind the NUL if `len` is so large
that the needle would fit there, unless it has been found before.
-/
import Ytl.Proofs.String.Length
import Ytl.String.Search

namespace Ytl.CString

open Memory

variable {m : Bytes} {h ne : Addr} {nh nn i j bound : Nat} {p : Pair}

/-- The needle is at `i`, and ends within the first `bound` bytes. -/
def Occurs (m : Bytes) (h ne : Addr) (nn bound i : Nat) : Prop :=
  i + nn ≤ bound ∧
    ∀ j, j < nn → m (h + BitVec.ofNat 64 (i + j)) = m (ne + BitVec.ofNat 64 j)

theorem Occurs.mono (hocc : Occurs m h ne nn bound i) {bound' : Nat} (hb : bound ≤ bound') :
    Occurs m h ne nn bound' i :=
  ⟨Nat.le_trans hocc.1 hb, hocc.2⟩

/-! ### Comparing at a place

A comparison at one place of the haystack stops at the first byte that is another, or at the
end of the needle.  It loads no byte of the haystack behind its NUL, because the NUL is
another byte than any of the needle.
-/

/-- At `i` the first `j` bytes of the needle have been found. -/
structure Matched (m : Bytes) (h : Addr) (nh : Nat) (ne : Addr) (nn i j : Nat) (p : Pair) :
    Prop where
  le : j ≤ nn
  same : ∀ k, k < j → m (h + BitVec.ofNat 64 (i + k)) = m (ne + BitVec.ofNat 64 k)
  p1 : p.r1.p = h + BitVec.ofNat 64 (i + j)
  p2 : p.r2.p = ne + BitVec.ofNat 64 j
  inside1 : p.r1.Inside h (nh + 1)
  inside2 : p.r2.Inside ne (nn + 1)

section

variable (hh : IsString m h nh) (hn : IsString m ne nn) (hi : i ≤ nh)

include hh hn hi

/-- The bytes that were found are in the string. -/
theorem place_le (hj : j ≤ nn)
    (hsame : ∀ k, k < j → m (h + BitVec.ofNat 64 (i + k)) = m (ne + BitVec.ofNat 64 k)) :
    i + j ≤ nh := by
  refine hh.le_of_before (before_add (fun k hk => hh.before k (by omega)) fun k hk => ?_)
  rw [hsame k hk]
  exact hn.before k (by omega)

theorem occurs_of_same
    (hsame : ∀ k, k < nn → m (h + BitVec.ofNat 64 (i + k)) = m (ne + BitVec.ofNat 64 k)) :
    Occurs m h ne nn nh i :=
  ⟨place_le hh hn hi (Nat.le_refl nn) hsame, hsame⟩

namespace Matched

theorem load1 (hm : Matched m h nh ne nn i j p) : Matched m h nh ne nn i j (p.load1 1) :=
  ⟨hm.le, hm.same, hm.p1, hm.p2,
    hm.inside1.load (Nat.lt_succ_of_le (place_le hh hn hi hm.le hm.same)) hm.p1, hm.inside2⟩

omit hh hn hi in
theorem load2 (hm : Matched m h nh ne nn i j p) : Matched m h nh ne nn i j (p.load2 1) :=
  ⟨hm.le, hm.same, hm.p1, hm.p2, hm.inside1,
    hm.inside2.load (Nat.lt_succ_of_le hm.le) hm.p2⟩

omit hh hn hi in
theorem next (hm : Matched m h nh ne nn i j p) (hj : j < nn) (hb : m p.r1.p = m p.r2.p) :
    Matched m h nh ne nn i (j + 1) (p.next 1) := by
  rw [hm.p1, hm.p2] at hb
  exact ⟨hj, Nat.forall_lt_succ_right.mpr ⟨hm.same, hb⟩, next_place hm.p1, next_place hm.p2,
    hm.inside1, hm.inside2⟩

omit hh hn hi in
theorem not_occurs (hm : Matched m h nh ne nn i j p) (hj : j < nn) (hb : m p.r1.p ≠ m p.r2.p) :
    ¬ Occurs m h ne nn bound i := by
  rw [hm.p1, hm.p2] at hb
  exact fun hocc => hb (hocc.2 j hj)

end Matched

/-- Where the loop of `strstr` stops. -/
theorem matchLoop_returns (hm : Matched m h nh ne nn i j p) :
    ∃ q, loop (matchLoop m) allAddrs p = .ok q ∧
      (∃ j, Matched m h nh ne nn i j q) ∧ (m q.r2.p = 0 ↔ Occurs m h ne nn nh i) := by
  refine hn.loop_returns (I := fun j p => Matched m h nh ne nn i j p) (fun j p hm => hm.le) hm
    fun j p hm => ?_
  have hload : Matched m h nh ne nn i j (p.load2 1) := hm.load2
  have hpair : Matched m h nh ne nn i j (((p.load2 1).load1 1).load2 1) :=
    (hload.load1 hh hn hi).load2
  unfold matchLoop
  dsimp only
  rcases Nat.lt_or_eq_of_le hm.le with hlt | rfl
  · have hb : m (p.load2 1).r2.p ≠ 0 := by
      rw [hload.p2]
      exact hn.before j hlt
    rw [if_neg hb]
    by_cases heq : m p.r1.p = m p.r2.p
    · exact Or.inl ⟨_, j + 1, if_pos heq, Nat.lt_succ_self j, hpair.next hlt heq⟩
    · exact Or.inr ⟨_, if_neg heq, ⟨j, hpair⟩, iff_of_false hb (hpair.not_occurs hlt heq)⟩
  · have hb : m (p.load2 1).r2.p = 0 := by
      rw [hload.p2]
      exact hn.nul
    rw [if_pos hb]
    exact Or.inr ⟨_, rfl, ⟨j, hload⟩, iff_of_true hb (occurs_of_same hh hn hi hm.same)⟩

/-- `strncmp` over the length of the needle. -/
theorem strncmpLoop_matched :
    ∀ (left j : Nat) (p : Pair), j + left = nn → Matched m h nh ne nn i j p →
      ((strncmpLoop m left p).1 = 0 ↔ Occurs m h ne nn nh i) ∧
        (strncmpLoop m left p).2.r1.Inside h (nh + 1) := by
  intro left
  induction left with
  | zero =>
      intro j p hj hm
      obtain rfl : j = nn := hj
      exact ⟨iff_of_true rfl (occurs_of_same hh hn hi hm.same), hm.inside1⟩
  | succ left ih =>
      intro j p hj hm
      have hlt : j < nn := by omega
      have hpair : Matched m h nh ne nn i j ((p.load1 1).load2 1) := (hm.load1 hh hn hi).load2
      rw [strncmpLoop]
      by_cases heq : m p.r1.p = m p.r2.p
      · have hb : m p.r1.p ≠ 0 := by
          rw [heq, hm.p2]
          exact hn.before j hlt
        rw [if_neg (not_not_intro heq), if_neg hb]
        exact ih (j + 1) _ (by omega) (hpair.next hlt heq)
      · rw [if_pos heq]
        refine ⟨iff_of_false ?_ (hm.not_occurs hlt heq), hpair.inside1⟩
        exact fun hzero => heq (byteDiff_eq_zero_iff.mp hzero)

end

/-! ### `strstr`

The place moves up by one as long as the needle is not there and the haystack has not ended.
-/

/-- `strstr` has come to `i`. -/
structure Sought (m : Bytes) (h : Addr) (nh : Nat) (ne : Addr) (nn i : Nat) (p : Pair) : Prop where
  le : i ≤ nh
  before : ∀ k, k < i → ¬ Occurs m h ne nn nh k
  p1 : p.r1.p = h + BitVec.ofNat 64 i
  p2 : p.r2.p = ne
  inside1 : p.r1.Inside h (nh + 1)
  inside2 : p.r2.Inside ne (nn + 1)

theorem strstrLoop_cases (hh : IsString m h nh) (hn : IsString m ne nn) (hnn : nn ≠ 0)
    (hs : Sought m h nh ne nn i p) :
    (∃ p' i', strstrLoop m (m ne) p = .ok (.inl p') ∧ i < i' ∧ Sought m h nh ne nn i' p') ∨
      ∃ x, strstrLoop m (m ne) p = .ok (.inr x) ∧
        First (Occurs m h ne nn nh) (fun i => h + BitVec.ofNat 64 i) x.1 ∧
        x.2.r1.Inside h (nh + 1) ∧ x.2.r2.Inside ne (nn + 1) := by
  have hload : (p.load1 1).r1.Inside h (nh + 1) := hs.inside1.load (Nat.lt_succ_of_le hs.le) hs.p1
  have hload' : ((p.load1 1).load1 1).r1.Inside h (nh + 1) :=
    hload.load (Nat.lt_succ_of_le hs.le) hs.p1
  unfold strstrLoop
  dsimp only
  rcases Nat.lt_or_eq_of_le hs.le with hlt | rfl
  · have hb : m p.r1.p ≠ 0 := by
      rw [hs.p1]
      exact hh.before i hlt
    rw [if_neg hb]
    have hgo : ¬ Occurs m h ne nn nh i → ∀ k, k < i + 1 → ¬ Occurs m h ne nn nh k :=
      fun hocc => Nat.forall_lt_succ_right.mpr ⟨hs.before, hocc⟩
    by_cases hfirst : m p.r1.p = m ne
    · rw [if_pos hfirst]
      have hstart : Matched m h nh ne nn i 1
          (((p.load1 1).load1 1).seek (p.r1.p + 1) (p.r2.p + 1)) := by
        refine ⟨Nat.pos_of_ne_zero hnn, fun k hk => ?_, next_place hs.p1, ?_, hload', hs.inside2⟩
        · rw [Nat.lt_one_iff.mp hk, Nat.add_zero, BitVec.add_zero, ← hs.p1]
          exact hfirst
        · show p.r2.p + 1 = _
          rw [hs.p2]
          rfl
      obtain ⟨q, hloop, ⟨j, hm⟩, hend⟩ := matchLoop_returns hh hn hs.le hstart
      have hlast : (q.load2 1).r2.Inside ne (nn + 1) := hm.load2.inside2
      rw [hloop, bind_of_ok]
      by_cases hb' : m q.r2.p = 0
      · refine Or.inr ⟨_, if_pos hb', ?_, hm.inside1, hlast⟩
        rw [hs.p1]
        exact First.found (hend.mp hb') hs.before
      · exact Or.inl ⟨_, i + 1, if_neg hb', Nat.lt_succ_self i, hlt,
          hgo fun hocc => hb' (hend.mpr hocc), next_place hs.p1, hs.p2, hm.inside1, hlast⟩
    · refine Or.inl ⟨_, i + 1, if_neg hfirst, Nat.lt_succ_self i, hlt,
        hgo fun hocc => hfirst ?_, next_place hs.p1, hs.p2, hload', hs.inside2⟩
      have hsame := hocc.2 0 (Nat.pos_of_ne_zero hnn)
      rw [Nat.add_zero, BitVec.add_zero, ← hs.p1] at hsame
      exact hsame
  · have hb : m p.r1.p = 0 := by
      rw [hs.p1]
      exact hh.nul
    rw [if_pos hb]
    refine Or.inr ⟨_, rfl, First.none fun k hocc => ?_, hload, hs.inside2⟩
    have hend := hocc.1
    exact hs.before k (by omega) hocc

/-- An empty needle is at the beginning. -/
theorem first_of_empty (m : Bytes) (h ne : Addr) (bound : Nat) :
    First (Occurs m h ne 0 bound) (fun i => h + BitVec.ofNat 64 i) (some h) := by
  have hocc : Occurs m h ne 0 bound 0 :=
    ⟨Nat.zero_le bound, fun j hj => absurd hj (Nat.not_lt_zero j)⟩
  have hfound : First (Occurs m h ne 0 bound) (fun i => h + BitVec.ofNat 64 i)
      (some (h + BitVec.ofNat 64 0)) :=
    First.found hocc fun j hj => absurd hj (Nat.not_lt_zero j)
  rwa [BitVec.add_zero] at hfound

theorem strstr_finds (hh : IsString m h nh) (hn : IsString m ne nn) :
    ∃ r p, strstr m h ne = .ok (r, p) ∧
      First (Occurs m h ne nn nh) (fun i => h + BitVec.ofNat 64 i) r ∧
      p.r1.Inside h (nh + 1) ∧ p.r2.Inside ne (nn + 1) := by
  have hfirst : (Pair.load2 ⟨⟨h, []⟩, ⟨ne, []⟩⟩ 1).r2.Inside ne (nn + 1) :=
    (Reader.Inside.start ne ne (nn + 1)).load (Nat.succ_pos nn) (BitVec.add_zero ne).symm
  unfold strstr
  dsimp only
  by_cases hzero : m ne = 0
  · rw [if_pos hzero]
    obtain rfl : 0 = nn := by
      refine hn.eq_of_nul (fun j hj => absurd hj (Nat.not_lt_zero j)) ?_
      rw [BitVec.add_zero]
      exact hzero
    exact ⟨_, _, rfl, first_of_empty m h ne nh, Reader.Inside.start h h _, hfirst⟩
  · rw [if_neg hzero]
    have hnn : nn ≠ 0 := by
      rintro rfl
      have hnul := hn.nul
      rw [BitVec.add_zero] at hnul
      exact hzero hnul
    have hstart : Sought m h nh ne nn 0 (Pair.load2 ⟨⟨h, []⟩, ⟨ne, []⟩⟩ 1) :=
      ⟨Nat.zero_le nh, fun k hk => absurd hk (Nat.not_lt_zero k), (BitVec.add_zero h).symm, rfl,
        Reader.Inside.start h h _, hfirst⟩
    obtain ⟨⟨r, p⟩, hloop, hfound⟩ := loopM_returns (fun i p hs => Sought.le hs)
      (fun i p hs => strstrLoop_cases hh hn hnn hs) allAddrs 0 _ hstart
      (Nat.lt_add_right 0 hh.lt_allAddrs)
    exact ⟨r, p, hloop, hfound⟩

/--
**`strstr` finds the first occurrence.**  It returns the first place of the haystack at which
the needle is, which is the beginning for an empty needle, and null exactly if there is none.
It loads no byte behind either NUL.
-/
theorem strstr_correct (hh : IsString m h nh) (hn : IsString m ne nn) :
    ∃ r p, strstr m h ne = .ok (r, p) ∧
      First (Occurs m h ne nn nh) (fun i => h + BitVec.ofNat 64 i) r ∧
      (r = none ↔ ∀ i, ¬ Occurs m h ne nn nh i) ∧ (nn = 0 → r = some h) ∧
      p.r1.Inside h (nh + 1) ∧ p.r2.Inside ne (nn + 1) := by
  obtain ⟨r, p, hret, hfirst, hinside⟩ := strstr_finds hh hn
  refine ⟨r, p, hret, hfirst, hfirst.eq_none_iff, fun hempty => ?_, hinside⟩
  subst hempty
  exact hfirst.unique (first_of_empty m h ne nh)

/-- `aaaaba` at 2 and `aab` at 11. -/
def repeated : Bytes := fun a =>
  if a = 8 ∨ a = 14 then 0 else if a = 6 ∨ a = 13 then 0x62 else 0x61

theorem strstr_correct_repeated :
    ∃ r p, strstr repeated 2 11 = .ok (r, p) ∧
      First (Occurs repeated 2 11 3 6) (fun i => 2 + BitVec.ofNat 64 i) r ∧
      (r = none ↔ ∀ i, ¬ Occurs repeated 2 11 3 6 i) ∧ (3 = 0 → r = some 2) ∧
      p.r1.Inside 2 (6 + 1) ∧ p.r2.Inside 11 (3 + 1) :=
  strstr_correct ⟨by decide, by decide⟩ ⟨by decide, by decide⟩

/-! ### `strnstr`

The loop counts down what is left of `len`, and does not look whether the haystack has ended.
-/

/-- What is loaded in a call stays in the string. -/
theorem called_inside {q : Pair} (hp : p.r1.Inside h (nh + 1)) (hq : q.r1.Inside h (nh + 1)) :
    (p.called q).r1.Inside h (nh + 1) := by
  intro l hl
  rcases List.mem_append.mp hl with hold | hnew
  · exact hp l hold
  · exact hq l hnew

/-- The comparison at a place of the haystack. -/
theorem strncmp_occurs (hh : IsString m h nh) (hn : IsString m ne nn) (hi : i ≤ nh) :
    ((strncmp m (h + BitVec.ofNat 64 i) ne nn).1 = 0 ↔ Occurs m h ne nn nh i) ∧
      (strncmp m (h + BitVec.ofNat 64 i) ne nn).2.r1.Inside h (nh + 1) :=
  strncmpLoop_matched hh hn hi nn 0 _ (Nat.zero_add nn)
    ⟨Nat.zero_le nn, fun k hk => absurd hk (Nat.not_lt_zero k), rfl, (BitVec.add_zero ne).symm,
      Reader.Inside.start h _ _, Reader.Inside.start ne ne _⟩

/-- Where the needle does not fit any more it is not found. -/
theorem first_none {len left : Nat} (hi : i + left = len) (hleft : left < nn)
    (hbefore : ∀ k, k < i → ¬ Occurs m h ne nn nh k) :
    First (Occurs m h ne nn (min len nh)) (fun i => h + BitVec.ofNat 64 i) none := by
  refine First.none fun k hocc => ?_
  have hfits := hocc.1
  by_cases hk : k < i
  · exact hbefore k hk (hocc.mono (Nat.min_le_right len nh))
  · omega

/-- `strnstr` stays in the string if it ends where the needle would end behind it, or if the
needle is found. -/
theorem strnstrLoop_finds (hh : IsString m h nh) (hn : IsString m ne nn) (hnn : nn ≠ 0)
    {len : Nat} (hgood : len ≤ nh + nn ∨ ∃ k, Occurs m h ne nn nh k) :
    ∀ (left i : Nat) (p : Pair), i + left = len → (∀ k, k < i → ¬ Occurs m h ne nn nh k) →
      p.r1.p = h + BitVec.ofNat 64 i → p.r2.p = ne → p.r1.Inside h (nh + 1) →
      First (Occurs m h ne nn (min len nh)) (fun i => h + BitVec.ofNat 64 i)
          (strnstrLoop m nn left p).1 ∧
        (strnstrLoop m nn left p).2.r1.Inside h (nh + 1) := by
  intro left
  induction left with
  | zero =>
      intro i p hi hbefore _ _ hinside
      exact ⟨first_none hi (Nat.pos_of_ne_zero hnn) hbefore, hinside⟩
  | succ left ih =>
      intro i p hi hbefore hp1 hp2 hinside
      rw [strnstrLoop]
      by_cases hfits : left + 1 ≥ nn
      · rw [if_pos hfits]
        have hplace : i ≤ nh := by
          rcases hgood with hlen | ⟨k, hocc⟩
          · omega
          · have hki : i ≤ k := by
              by_contra hc
              exact hbefore k (by omega) hocc
            have hk := hocc.1
            omega
        obtain ⟨hzero, hcall⟩ := strncmp_occurs hh hn hplace
        rw [hp1, hp2]
        have hcalled := called_inside hinside hcall
        by_cases hv : (strncmp m (h + BitVec.ofNat 64 i) ne nn).1 = 0
        · dsimp only
          rw [if_pos hv]
          have hocc := hzero.mp hv
          have hend := hocc.1
          refine ⟨First.found ⟨by omega, hocc.2⟩ fun k hk hocc' => ?_, hcalled⟩
          exact hbefore k hk (hocc'.mono (Nat.min_le_right len nh))
        · dsimp only
          rw [if_neg hv]
          exact ih (i + 1) _ (by omega)
            (Nat.forall_lt_succ_right.mpr ⟨hbefore, fun hocc => hv (hzero.mpr hocc)⟩)
            (next_place rfl) rfl hcalled
      · rw [if_neg hfits]
        exact ⟨first_none hi (by omega) hbefore, hinside⟩

/-! ### What `strnstr` loads behind the string

If the needle is not in the string, the loop comes to the byte behind the NUL, as long as
`len` allows it.
-/

/-- What has been loaded is kept, and the first byte is loaded in every comparison. -/
theorem strncmpLoop_loads {l : Load} :
    ∀ (count : Nat) (p : Pair), l ∈ p.r1.loads ∨ count ≠ 0 ∧ l = ⟨p.r1.p, 1⟩ →
      l ∈ (strncmpLoop m count p).2.r1.loads := by
  intro count
  induction count with
  | zero =>
      intro p hl
      exact hl.resolve_right fun hc => hc.1 rfl
  | succ count ih =>
      intro p hl
      have hnext : l ∈ (((p.load1 1).load2 1).next 1).r1.loads :=
        List.mem_append.mpr (hl.imp_right fun hnew => List.mem_singleton.mpr hnew.2)
      rw [strncmpLoop]
      by_cases heq : m p.r1.p = m p.r2.p
      · rw [if_neg (not_not_intro heq)]
        by_cases hb : m p.r1.p = 0
        · rw [if_pos hb]
          exact hnext
        · rw [if_neg hb]
          exact ih _ (Or.inl hnext)
      · rw [if_pos heq]
        exact hnext

theorem strnstrLoop_loads {l : Load} (hnn : nn ≠ 0) :
    ∀ (left : Nat) (p : Pair), l ∈ p.r1.loads ∨ nn ≤ left ∧ l = ⟨p.r1.p, 1⟩ →
      l ∈ (strnstrLoop m nn left p).2.r1.loads := by
  intro left
  induction left with
  | zero =>
      intro p hl
      exact hl.resolve_right fun hc => hnn (Nat.le_zero.mp hc.1)
  | succ left ih =>
      intro p hl
      rw [strnstrLoop]
      by_cases hfits : left + 1 ≥ nn
      · have hcalled : l ∈ (p.called (strncmp m p.r1.p p.r2.p nn).2).r1.loads :=
          List.mem_append.mpr
            (hl.imp_right fun hnew => strncmpLoop_loads nn _ (Or.inr ⟨hnn, hnew.2⟩))
        rw [if_pos hfits]
        dsimp only
        by_cases hv : (strncmp m p.r1.p p.r2.p nn).1 = 0
        · rw [if_pos hv]
          exact hcalled
        · rw [if_neg hv]
          exact ih _ (Or.inl hcalled)
      · rw [if_neg hfits]
        exact hl.resolve_right fun hc => hfits hc.1

/-- Without an occurrence the search goes on to the byte behind the NUL. -/
theorem strnstrLoop_reads (hh : IsString m h nh) (hn : IsString m ne nn) (hnn : nn ≠ 0)
    {len : Nat} (hlen : nh + nn < len) (hnone : ∀ k, ¬ Occurs m h ne nn nh k) :
    ∀ (left i : Nat) (p : Pair), i + left = len → i ≤ nh + 1 →
      p.r1.p = h + BitVec.ofNat 64 i → p.r2.p = ne →
      ⟨h + BitVec.ofNat 64 (nh + 1), 1⟩ ∈ (strnstrLoop m nn left p).2.r1.loads := by
  intro left
  induction left with
  | zero =>
      intro i p hi hplace
      omega
  | succ left ih =>
      intro i p hi hplace hp1 hp2
      rcases Nat.lt_or_eq_of_le hplace with hlt | rfl
      · have hv : (strncmp m (h + BitVec.ofNat 64 i) ne nn).1 ≠ 0 := fun hzero =>
          hnone i ((strncmp_occurs hh hn (Nat.le_of_lt_succ hlt)).1.mp hzero)
        rw [strnstrLoop, if_pos (by omega), hp1, hp2]
        dsimp only
        rw [if_neg hv]
        exact ih (i + 1) _ (by omega) hlt (next_place rfl) rfl
      · rw [← hp1]
        exact strnstrLoop_loads hnn _ p (Or.inr ⟨by omega, rfl⟩)

/--
**When `strnstr` searches only the string.**  It returns the first place at which the needle
is and ends within `len` bytes and within the string, stays in the string up to its NUL, and
agrees with `strstr` where `len` is not less than the string, exactly when one of three things
holds: the needle is empty, or it would end behind `len` if it began behind the NUL, or it is
in the string.
-/
theorem strnstr_bounded_iff (hh : IsString m h nh) (hn : IsString m ne nn) {len : Nat}
    (hlen : len < 2 ^ 64) :
    ∃ r p, strnstr m h ne len = .ok (r, p) ∧
      ((First (Occurs m h ne nn (min len nh)) (fun i => h + BitVec.ofNat 64 i) r ∧
          p.r1.Inside h (nh + 1) ∧ (nh ≤ len → ∃ q, strstr m h ne = .ok (r, q))) ↔
        nn = 0 ∨ len ≤ nh + nn ∨ ∃ i, Occurs m h ne nn nh i) := by
  obtain ⟨l2, r2, hl2, hmeasured⟩ := strlen_measured hn
  obtain ⟨r', q, hstr, hfirst', -⟩ := strstr_finds hh hn
  have hagree : ∀ r, First (Occurs m h ne nn (min len nh)) (fun i => h + BitVec.ofNat 64 i) r →
      nh ≤ len → ∃ q, strstr m h ne = .ok (r, q) := by
    intro r hfirst hle
    rw [Nat.min_eq_right hle] at hfirst
    exact ⟨q, by rw [hfirst.unique hfirst', hstr]⟩
  have hnn64 : nn < 2 ^ 64 := hn.lt_allAddrs
  have hnat : l2.toNat = nn := by
    rw [hmeasured.len, BitVec.toNat_ofNat, Nat.mod_eq_of_lt hnn64]
  rw [strnstr, hl2, bind_of_ok]
  dsimp only
  by_cases hzero : nn = 0
  · have hl2zero : l2 = 0 := BitVec.eq_of_toNat_eq (hnat.trans hzero)
    rw [if_pos hl2zero]
    subst hzero
    have hfirst := first_of_empty m h ne (min len nh)
    exact ⟨_, _, rfl, iff_of_true
      ⟨hfirst, Reader.Inside.start h h _, hagree _ hfirst⟩ (Or.inl rfl)⟩
  · have hl2ne : l2 ≠ 0 := by
      rintro rfl
      exact hzero hnat.symm
    rw [if_neg hl2ne, hnat]
    refine ⟨_, _, rfl, ?_, ?_⟩
    · rintro ⟨-, hinside, -⟩
      by_contra hc
      obtain ⟨-, hlong, hnone⟩ : nn ≠ 0 ∧ ¬ len ≤ nh + nn ∧ ¬ ∃ i, Occurs m h ne nn nh i := by
        simpa only [not_or] using hc
      have hload := strnstrLoop_reads hh hn hzero (by omega) (not_exists.mp hnone) len 0
        ⟨⟨h, []⟩, ⟨ne, r2.loads⟩⟩ (Nat.zero_add len) (Nat.zero_le _) (BitVec.add_zero h).symm rfl
      exact Reader.not_inside hload (Nat.le_refl _) (by omega) hinside
    · intro hgood
      obtain ⟨hfirst, hinside⟩ := strnstrLoop_finds hh hn hzero (hgood.resolve_left hzero) len 0
        ⟨⟨h, []⟩, ⟨ne, r2.loads⟩⟩ (Nat.zero_add len) (fun k hk => absurd hk (Nat.not_lt_zero k))
        (BitVec.add_zero h).symm rfl (Reader.Inside.start h h _)
      exact ⟨hfirst, hinside, hagree _ hfirst⟩

/-- With a bound beyond the end of the string. -/
theorem strnstr_bounded_repeated :
    ∃ r p, strnstr repeated 2 11 20 = .ok (r, p) ∧
      First (Occurs repeated 2 11 3 (min 20 6)) (fun i => 2 + BitVec.ofNat 64 i) r ∧
      p.r1.Inside 2 (6 + 1) ∧ (6 ≤ 20 → ∃ q, strstr repeated 2 11 = .ok (r, q)) := by
  have hh : IsString repeated 2 6 := ⟨by decide, by decide⟩
  have hn : IsString repeated 11 3 := ⟨by decide, by decide⟩
  obtain ⟨r, p, hret, hbounded⟩ := strnstr_bounded_iff hh hn (show 20 < 2 ^ 64 by decide)
  exact ⟨r, p, hret, hbounded.mpr (Or.inr (Or.inr ⟨2, by decide, by decide⟩))⟩

/-- `a` at 8 and a `b` behind its NUL, and `b` at 16. -/
def behind : Bytes := fun a => if a = 8 then 0x61 else if a = 10 ∨ a = 16 then 0x62 else 0

theorem strnstr_finds_behind :
    IsString behind 8 1 ∧ IsString behind 16 1 ∧
      ∃ p, strnstr behind 8 16 3 = .ok (some 10, p) ∧ ¬ p.r1.Inside 8 (1 + 1) := by
  refine ⟨⟨by decide, by decide⟩, ⟨by decide, by decide⟩, ?_⟩
  obtain ⟨⟨r, p⟩, hret, hread⟩ := returns_of_checkResult (x := strnstr behind 8 16 3)
    (P := fun x => x.1 = some 10 ∧ ∃ l ∈ x.2.r1.loads, l.addr = 10 ∧ l.size = 1)
    (by decide +kernel)
  obtain ⟨hfound, ⟨addr, size⟩, hl, haddr, hsize⟩ := of_decide_eq_true hread
  obtain rfl : r = some 10 := hfound
  obtain rfl : addr = 8 + BitVec.ofNat 64 2 := haddr
  obtain rfl : size = 1 := hsize
  exact ⟨p, hret, Reader.not_inside hl (Nat.le_refl 2) (by decide)⟩

end Ytl.CString
