/-
One order on strings.

A string is looked at as a list of bytes.  Its NUL is less than every byte of a string, so where a
comparison of bytes in memory comes to the end of one string it decides as the order of lists does,
and `strcmp`, `strncmp` and `memcmp` agree with what `lexicographical_compare` and `equal` say about
the bytes in an array.

What is returned is the difference of two bytes, of which the sign only counts.  With that
there is one order, of lists of bytes, and five functions decide it: three of them on memory
and two on arrays.
-/
import Ytl.Proofs.Algorithm.Linear
import Ytl.Proofs.Memory.Compare
import Ytl.Proofs.String.Buffer
import Ytl.Proofs.String.Compare

namespace Ytl.CString

open Memory

variable {m : Bytes} {x y : Source} {v : Int} {i count : Nat}

/-! ### Letters

The end of a list is treated as a byte 0, which no string has.
-/

/-- A byte of a string as it is compared: behind the last one there is a NUL. -/
def letter (o : Option Byte) : Int := o.elim 0 fun b => b.toNat

theorem letter_pos {b : Byte} (hb : b ≠ 0) : 0 < letter (some b) :=
  Int.natCast_pos.mpr (Nat.pos_of_ne_zero fun hzero => hb (BitVec.eq_of_toNat_eq hzero))

/-- The NUL is in front of every byte of a string. -/
theorem letter_lt_iff {o o' : Option Byte} (h : o' ≠ some 0) :
    letter o < letter o' ↔ Option.lt (· < ·) o o' := by
  cases o' with
  | none => exact iff_of_false (not_lt.mpr (by cases o <;> simp [letter])) not_lt_none
  | some b =>
      cases o with
      | none => exact iff_of_true (letter_pos fun hb => h (congrArg some hb)) trivial
      | some a => exact Int.ofNat_lt

theorem letter_inj {o o' : Option Byte} (h : o ≠ some 0) (h' : o' ≠ some 0)
    (heq : letter o = letter o') : o = o' := by
  cases o with
  | none =>
      cases o' with
      | none => rfl
      | some b => exact absurd heq (letter_pos fun hb => h' (congrArg some hb)).ne
  | some a =>
      cases o' with
      | none => exact absurd heq (letter_pos fun ha => h (congrArg some ha)).ne'
      | some b => exact congrArg some (BitVec.eq_of_toNat_eq (Int.ofNat_inj.mp heq))

theorem Source.getElem?_ne (x : Source) (i : Nat) : x.bytes[i]? ≠ some 0 :=
  fun hzero => x.nonzero (List.mem_of_getElem? hzero)

theorem Source.At.letters_eq (hx : x.At m) (hi : i ≤ x.bytes.length) :
    letters m x.addr i = letter x.bytes[i]? := by
  rcases Nat.lt_or_eq_of_le hi with hlt | rfl
  · rw [hx.bytes i hlt]
    rfl
  · rw [List.getElem?_eq_none (Nat.le_refl _)]
    exact congrArg (fun b : Byte => (b.toNat : Int)) hx.nul

/-! ### The order

The first difference of the two sequences of letters is the first difference of the lists, the
end of a list included.
-/

/-- Lists that agree up to the end of the shorter one are equal. -/
theorem takes_eq {xs ys : List Byte} (hsame : ∀ i, i < min count (min xs.length ys.length + 1) →
    xs[i]? = ys[i]?) : xs.take count = ys.take count := by
  refine List.ext_getElem? fun i => ?_
  rw [List.getElem?_take, List.getElem?_take]
  by_cases hi : i < count
  · rw [if_pos hi, if_pos hi]
    by_cases hi' : i < min xs.length ys.length + 1
    · exact hsame i (Nat.lt_min.mpr ⟨hi, hi'⟩)
    · -- both have ended where the shorter one has
      have hend := hsame (min xs.length ys.length) (by omega)
      have hlengths : xs.length = ys.length := by
        rcases Nat.le_total xs.length ys.length with hle | hle
        · rw [Nat.min_eq_left hle, List.getElem?_eq_none (Nat.le_refl _)] at hend
          exact Nat.le_antisymm hle (List.getElem?_eq_none_iff.mp hend.symm)
        · rw [Nat.min_eq_right hle, List.getElem?_eq_none (Nat.le_refl ys.length)] at hend
          exact Nat.le_antisymm (List.getElem?_eq_none_iff.mp hend) hle
      rw [List.getElem?_eq_none (by omega), List.getElem?_eq_none (by omega)]
  · rw [if_neg hi, if_neg hi]

section Sign

variable (hx : x.At m) (hy : y.At m)

include hx hy

theorem letters_eq_iff_bytes (hi : i < min x.bytes.length y.bytes.length + 1) :
    letters m x.addr i = letters m y.addr i ↔ x.bytes[i]? = y.bytes[i]? := by
  rw [hx.letters_eq (by omega), hy.letters_eq (by omega)]
  exact ⟨letter_inj (x.getElem?_ne i) (y.getElem?_ne i), congrArg letter⟩

theorem letters_lt_iff_bytes (hi : i < min x.bytes.length y.bytes.length + 1) :
    letters m x.addr i < letters m y.addr i ↔
      Option.lt (· < ·) x.bytes[i]? y.bytes[i]? := by
  rw [hx.letters_eq (by omega), hy.letters_eq (by omega)]
  exact letter_lt_iff (y.getElem?_ne i)

theorem orders_of_compares (h : Compares (letters m x.addr) (letters m y.addr)
    (min count (min x.bytes.length y.bytes.length + 1)) v) :
    Orders v (x.bytes.take count) (y.bytes.take count) := by
  have htakes : ∀ i, i < min count (min x.bytes.length y.bytes.length + 1) →
      (x.bytes.take count)[i]? = x.bytes[i]? ∧ (y.bytes.take count)[i]? = y.bytes[i]? :=
    fun i hi => ⟨List.getElem?_take_of_lt (Nat.lt_min.mp hi).1,
      List.getElem?_take_of_lt (Nat.lt_min.mp hi).1⟩
  refine h.orders (fun i hi => ?_) (fun i hi => ?_) (fun i hi => ?_) fun hsame =>
    takes_eq fun i hi => ?_
  · rw [(htakes i hi).1, (htakes i hi).2]
    exact letters_lt_iff_bytes hx hy (Nat.lt_min.mp hi).2
  · rw [(htakes i hi).1, (htakes i hi).2]
    exact letters_eq_iff_bytes hx hy (Nat.lt_min.mp hi).2
  · rw [(htakes i hi).1, (htakes i hi).2]
    exact letters_lt_iff_bytes hy hx (by omega)
  · rw [← (htakes i hi).1, ← (htakes i hi).2]
    exact hsame i hi

end Sign

/-! ### The comparisons in memory

A count cuts both strings, and a comparison with a count compares what is left.
-/

namespace Strings

variable {t : Strings m} {n e : Nat}

/-- The bytes at which the walk stops decide. -/
theorem Agree.compares (h : t.Agree e) (hstop : t.Stops e) (hlt : e < n)
    (hn : n ≤ min t.n1 t.n2 + 1) :
    Compares (letters m t.s1) (letters m t.s2) n
      (byteDiff (m (t.s1 + BitVec.ofNat 64 e)) (m (t.s2 + BitVec.ofNat 64 e))) := by
  have hbefore : ∀ i, i < e → letters m t.s1 i = letters m t.s2 i :=
    fun i hi => letters_eq_iff.mpr (h i hi).1
  by_cases heq : m (t.s1 + BitVec.ofNat 64 e) = m (t.s2 + BitVec.ofNat 64 e)
  · obtain ⟨h1, h2⟩ := ends_of_same h hstop heq
    rw [byteDiff_eq_zero_iff.mpr heq]
    refine Compares.same fun i hi => ?_
    rcases Nat.lt_or_eq_of_le (show i ≤ e by omega) with hi | rfl
    · exact hbefore i hi
    · exact letters_eq_iff.mpr heq
  · exact Compares.differ hlt hbefore (mt letters_eq_iff.mp heq)

theorem strncmp_compares (count : Nat) :
    ∀ {i : Nat} {p : Pair}, t.Walked 0 i p →
      Compares (letters m t.s1) (letters m t.s2) (min (i + count) (min t.n1 t.n2 + 1))
        (strncmpLoop m count p).1 := by
  induction count with
  | zero =>
      intro i p h
      exact Compares.same fun j hj => letters_eq_iff.mpr (h.agree j (Nat.lt_min.mp hj).1).1
  | succ count ih =>
      intro i p h
      have hle1 := h.agree.le1
      have hle2 := h.agree.le2
      have hstops := fun hstop => h.agree.compares (h.stops hstop)
        (show i < min (i + (count + 1)) (min t.n1 t.n2 + 1) by omega) (Nat.min_le_right _ _)
      rw [← h.p1, ← h.p2] at hstops
      rw [strncmpLoop]
      by_cases heq : m p.r1.p = m p.r2.p
      · by_cases hb : m p.r1.p = 0
        · have hzero := hstops fun _ => hb
          rw [byteDiff_eq_zero_iff.mpr heq] at hzero
          rw [if_neg (not_not_intro heq), if_pos hb]
          exact hzero
        · rw [if_neg (not_not_intro heq), if_neg hb, ← Nat.add_assoc, Nat.add_right_comm]
          exact ih (h.bytes.next_byte heq hb)
      · rw [if_pos heq]
        exact hstops fun hc => absurd hc heq

end Strings

/--
**One order on strings.**  On two strings `strcmp` returns what `strncmp` does for every count
beyond the shorter one, and `memcmp` what `strncmp` does for every count up to its NUL.  For every
count the sign of the result is the order of the lists of at most so many bytes: the one that
`lexicographical_compare` finds in the bytes as arrays, with `equal` for its 0.
-/
theorem one_order (m : Bytes) (x y : Source) (hx : x.At m) (hy : y.At m) :
    (∃ v p, strcmp m x.addr y.addr = .ok (v, p) ∧
      ∀ count, min x.bytes.length y.bytes.length < count →
        (strncmp m x.addr y.addr count).1 = v) ∧
    (∀ count, count ≤ min x.bytes.length y.bytes.length + 1 →
      memcmp m x.addr y.addr count = .ok (strncmp m x.addr y.addr count).1) ∧
    ∀ count,
      Orders (strncmp m x.addr y.addr count).1 (x.bytes.take count) (y.bytes.take count) ∧
      Algorithm.lexicographicalCompare x.bytes.toArray (min x.bytes.length count)
          y.bytes.toArray (min y.bytes.length count) =
        .ok (decide ((strncmp m x.addr y.addr count).1 < 0)) ∧
      (count ≤ min x.bytes.length y.bytes.length →
        Algorithm.equal x.bytes.toArray y.bytes.toArray count =
          .ok (decide ((strncmp m x.addr y.addr count).1 = 0))) := by
  let t : Strings m := ⟨x.addr, y.addr, x.bytes.length, y.bytes.length, hx.isString, hy.isString⟩
  have hstrncmp : ∀ count, Compares (letters m x.addr) (letters m y.addr)
      (min count (min x.bytes.length y.bytes.length + 1)) (strncmp m x.addr y.addr count).1 := by
    intro count
    have hwalk := Strings.strncmp_compares count (Strings.Walked.start t)
    rwa [Nat.zero_add] at hwalk
  refine ⟨?_, fun count hcount => ?_, fun count => ?_⟩
  · obtain ⟨e, v, p, hv, hdecided⟩ := t.strcmp_decided
    have hagree := hdecided.walked.agree
    have hle1 := hagree.le1
    have hle2 := hagree.le2
    refine ⟨v, p, hv, fun count hcount => ?_⟩
    have hall := hstrncmp count
    rw [Nat.min_eq_right hcount] at hall
    rw [hdecided.value]
    exact hall.unique (hagree.compares hdecided.stop
      (Nat.lt_succ_iff.mpr (Nat.le_min.mpr ⟨hle1, hle2⟩)) (Nat.le_refl _))
  · obtain ⟨v, hv, hcompares⟩ := memcmp_compares m x.addr y.addr count
    have hall := hstrncmp count
    rw [Nat.min_eq_left hcount] at hall
    rw [hv, hcompares.unique hall]
  · have horders := orders_of_compares hx hy (hstrncmp count)
    refine ⟨horders, ?_, fun hcount => ?_⟩
    · rw [Algorithm.lexicographicalCompare_lists, decide_eq_decide.mpr horders.less]
    · rw [Algorithm.equal_eq (hcount.trans (Nat.min_le_left _ _))
        (hcount.trans (Nat.min_le_right _ _)), decide_eq_decide.mpr horders.same]

/-- Two bytes and three. -/
theorem one_order_ab :
    (∃ v p, strcmp Buffer.letters 200 300 = .ok (v, p) ∧
      ∀ count, min 2 3 < count → (strncmp Buffer.letters 200 300 count).1 = v) ∧
    (∀ count, count ≤ min 2 3 + 1 →
      memcmp Buffer.letters 200 300 count = .ok (strncmp Buffer.letters 200 300 count).1) ∧
    ∀ count,
      Orders (strncmp Buffer.letters 200 300 count).1 (([97, 98] : List Byte).take count)
        ([99, 100, 101].take count) ∧
      Algorithm.lexicographicalCompare (#[97, 98] : Array Byte) (min 2 count)
          #[99, 100, 101] (min 3 count) =
        .ok (decide ((strncmp Buffer.letters 200 300 count).1 < 0)) ∧
      (count ≤ min 2 3 → Algorithm.equal (#[97, 98] : Array Byte) #[99, 100, 101] count =
        .ok (decide ((strncmp Buffer.letters 200 300 count).1 = 0))) :=
  one_order Buffer.letters Buffer.ab Buffer.cde
    (Buffer.letters_ready (Nat.zero_le 5) (Or.inl rfl)).1
    (Buffer.letters_ready (Nat.zero_le 5) (Or.inr rfl)).1

end Ytl.CString
