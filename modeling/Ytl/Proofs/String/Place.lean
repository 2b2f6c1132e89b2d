/-
Where a character is.

A string with its NUL is looked at as an array.  What `find` finds in it is the first place of a
character, and what it finds in the array that `reverse` has turned around is the last one: these
are the places to which the searches in memory point.

The searches in memory return pointers and those in arrays indices.  A pointer into the string
is its address and an index, so the results are compared as places.
-/
import Ytl.Proofs.Algorithm.Linear
import Ytl.Proofs.Algorithm.Rotate
import Ytl.Proofs.String.Buffer
import Ytl.Proofs.String.Char

namespace Ytl.CString

open Memory

variable {m : Bytes} {x : Source} {s : Addr} {l : List Byte} {b : Byte} {c : Int} {i n : Nat}

/-! ### Lists

The last place of a byte is the first one of it in the list turned around.
-/

/-- The first place of `b`, if it has one. -/
def place (s : Addr) (l : List Byte) (b : Byte) : Option Addr :=
  if l.idxOf b < l.length then some (s + BitVec.ofNat 64 (l.idxOf b)) else none

/-- The last one. -/
def lastPlace (s : Addr) (l : List Byte) (b : Byte) : Option Addr :=
  if l.reverse.idxOf b < l.length then
    some (s + BitVec.ofNat 64 (l.length - 1 - l.reverse.idxOf b))
  else none

theorem first_place (s : Addr) (l : List Byte) (b : Byte) :
    First (fun i => l[i]? = some b) (fun i => s + BitVec.ofNat 64 i) (place s l b) := by
  unfold place
  by_cases hlt : l.idxOf b < l.length
  · rw [if_pos hlt]
    refine First.found ?_ fun j hj hat => ?_
    · rw [List.getElem?_eq_getElem hlt, List.getElem_idxOf]
    · obtain ⟨hlt', hat⟩ := List.getElem?_eq_some_iff.mp hat
      have hne := List.not_of_lt_findIdx hj
      simp [hat] at hne
  · rw [if_neg hlt]
    refine First.none fun i hat => hlt (List.idxOf_lt_length_of_mem (List.mem_of_getElem? hat))

theorem place_head (s : Addr) (l : List Byte) (b : Byte) : place s (b :: l) b = some s := by
  rw [place, List.idxOf_cons_self]
  exact congrArg some (BitVec.add_zero s)

theorem place_tail (s : Addr) (l : List Byte) {a b : Byte} (hab : a ≠ b) :
    place s (a :: l) b = place (s + 1) l b := by
  have hidx : (a :: l).idxOf b = l.idxOf b + 1 := by
    rw [List.idxOf_cons, beq_eq_false_iff_ne.mpr hab, cond_false]
  rw [place, place, hidx, List.length_cons, Nat.add_comm _ 1, ← add_ofNat_add]
  exact if_congr (by omega) rfl rfl

/-- One byte more behind. -/
theorem lastPlace_append (s : Addr) (l : List Byte) (a b : Byte) :
    lastPlace s (l ++ [a]) b =
      if a = b then some (s + BitVec.ofNat 64 l.length) else lastPlace s l b := by
  simp only [lastPlace, List.reverse_append, List.reverse_singleton, List.singleton_append,
    List.idxOf_cons, List.length_append, List.length_singleton]
  by_cases hab : a = b
  · simp [hab]
  · rw [beq_eq_false_iff_ne.mpr hab, if_neg hab]
    simp only [cond_false, Nat.add_lt_add_iff_right]
    rw [Nat.add_sub_cancel, Nat.sub_sub, Nat.add_comm 1]

/-- The two places are the same one exactly if there is no other. -/
theorem places_eq_iff (hmem : b ∈ l) :
    l.idxOf b = l.length - 1 - l.reverse.idxOf b ↔ l.count b ≤ 1 := by
  obtain ⟨front, back, rfl, hfront⟩ := List.eq_append_cons_of_mem hmem
  have hfirst : (front ++ b :: back).idxOf b = front.length := by
    rw [List.idxOf_append, if_neg hfront, List.idxOf_cons_self, Nat.zero_add]
  have hcount : (front ++ b :: back).count b = back.count b + 1 := by
    rw [List.count_append, List.count_eq_zero.mpr hfront, Nat.zero_add, List.count_cons_self]
  have hreverse : (front ++ b :: back).reverse = back.reverse ++ b :: front.reverse := by simp
  have hlength : (front ++ b :: back).length = front.length + (back.length + 1) := by simp
  rw [hfirst, hcount, hreverse, hlength, List.idxOf_append]
  by_cases hback : b ∈ back
  · have hlt : back.reverse.idxOf b < back.reverse.length :=
      List.idxOf_lt_length_of_mem (List.mem_reverse.mpr hback)
    have hpos : 0 < back.count b := List.count_pos_iff.mpr hback
    rw [List.length_reverse] at hlt
    rw [if_pos (List.mem_reverse.mpr hback)]
    omega
  · rw [if_neg (mt List.mem_reverse.mp hback), List.idxOf_cons_self, List.length_reverse,
      List.count_eq_zero.mpr hback]
    omega

/-! ### The searches

By induction on the bytes that are left, each loop gives the place that lists have for it.
-/

theorem Spelled.head {a : Byte} (h : Spelled m s (a :: l)) : m s = a := by
  have hhead := h 0 (Nat.succ_pos _)
  rw [BitVec.add_zero] at hhead
  exact (Option.some.inj hhead).symm

theorem Spelled.tail {a : Byte} (h : Spelled m s (a :: l)) : Spelled m (s + 1) l := by
  intro i hi
  have hrest := h (i + 1) (Nat.succ_lt_succ hi)
  rw [Nat.add_comm, ← add_ofNat_add] at hrest
  rw [← List.getElem?_cons_succ (a := a), Nat.add_comm]
  exact hrest

theorem Source.At.spelled (hx : x.At m) : Spelled m x.addr (x.bytes ++ [0]) := by
  intro i hi
  rw [List.length_append, List.length_singleton] at hi
  rcases Nat.lt_succ_iff_lt_or_eq.mp hi with hlt | rfl
  · rw [List.getElem?_append_left hlt, hx.bytes i hlt]
  · rw [List.getElem?_append_right (Nat.le_refl _), Nat.sub_self, hx.nul]
    rfl

/-- The character, as a byte of the string. -/
theorem charAt_iff (hx : x.At m) :
    CharAt m x.addr x.bytes.length c i ↔ (x.bytes ++ [0])[i]? = some (BitVec.ofInt 8 c) := by
  by_cases hi : i < (x.bytes ++ [0]).length
  · have hle : i ≤ x.bytes.length := by simpa [Nat.lt_succ_iff] using hi
    rw [hx.spelled i hi, Option.some_inj, ← signed_eq_iff hle, BitVec.toInt_inj]
  · rw [List.getElem?_eq_none (Nat.not_lt.mp hi)]
    refine iff_of_false (fun hat => hi ?_) (Option.some_ne_none _).symm
    simpa [Nat.lt_succ_iff] using hat.1

/-- `strnchr` stops at the count, or behind the NUL. -/
theorem strnchr_place :
    ∀ (count : Nat) (l : List Byte) (s : Addr), 0 ∉ l → Spelled m s (l ++ [0]) →
      strnchr m s count c = if (l ++ [0]).idxOf (BitVec.ofInt 8 c) < count then
        place s (l ++ [0]) (BitVec.ofInt 8 c) else none := by
  intro count
  induction count with
  | zero =>
      intro l s _ _
      rfl
  | succ count ih =>
      intro l s hl h
      cases l with
      | nil =>
          have hbyte : m s = 0 := Spelled.head (l := []) h
          rw [strnchr, hbyte, List.nil_append]
          by_cases hb : 0 = BitVec.ofInt 8 c
          · rw [if_pos (congrArg BitVec.toInt hb), ← hb, place_head, List.idxOf_cons_self,
              if_pos (Nat.succ_pos count)]
          · rw [if_neg (mt BitVec.toInt_inj.mp hb), if_pos rfl, place_tail s [] hb]
            exact (ite_self none).symm
      | cons a l =>
          have hbyte : m s = a := Spelled.head h
          rw [List.mem_cons, not_or] at hl
          rw [strnchr, hbyte, List.cons_append]
          by_cases hb : a = BitVec.ofInt 8 c
          · rw [if_pos (congrArg BitVec.toInt hb), ← hb, place_head, List.idxOf_cons_self,
              if_pos (Nat.succ_pos count)]
          · rw [if_neg (mt BitVec.toInt_inj.mp hb), if_neg (Ne.symm hl.1), ih l (s + 1) hl.2 h.tail,
              place_tail s _ hb, List.idxOf_cons, beq_eq_false_iff_ne.mpr hb, cond_false]
            exact if_congr Nat.succ_lt_succ_iff.symm rfl rfl

/-- `last` is the last place among the bytes that have been passed. -/
theorem strrchr_lastPlace (hx : x.At m) (c : Int) :
    strrchr m x.addr c = .ok (lastPlace x.addr (x.bytes ++ [0]) (BitVec.ofInt 8 c)) := by
  have hloop : ∃ last, strrchr m x.addr c = .ok last ∧
      last = lastPlace x.addr (x.bytes ++ [0]) (BitVec.ofInt 8 c) := by
    refine hx.isString.loop_returns (I := fun i p => i ≤ x.bytes.length ∧
      p = (x.addr + BitVec.ofNat 64 i, lastPlace x.addr (x.bytes.take i) (BitVec.ofInt 8 c)))
      (fun i p h => h.1) ⟨Nat.zero_le _, ?_⟩ ?_
    · rw [show x.addr + BitVec.ofNat 64 0 = x.addr from BitVec.add_zero _]
      rfl
    · rintro i p ⟨hi, rfl⟩
      -- the byte that is passed now is the last one
      have hround : (if (m (x.addr + BitVec.ofNat 64 i)).toInt = (BitVec.ofInt 8 c).toInt then
          some (x.addr + BitVec.ofNat 64 i)
          else lastPlace x.addr (x.bytes.take i) (BitVec.ofInt 8 c)) =
          lastPlace x.addr (x.bytes.take i ++ [m (x.addr + BitVec.ofNat 64 i)])
            (BitVec.ofInt 8 c) := by
        rw [lastPlace_append, List.length_take, Nat.min_eq_left hi]
        exact if_congr BitVec.toInt_inj rfl rfl
      unfold strrchrLoop
      dsimp only
      rw [hround]
      rcases Nat.lt_or_eq_of_le hi with hlt | rfl
      · rw [if_neg (hx.isString.before i hlt), next_place rfl]
        refine Or.inl ⟨_, i + 1, rfl, Nat.lt_succ_self i, hlt, ?_⟩
        rw [← List.take_append_getElem hlt, (List.getElem_eq_iff hlt).mpr (hx.bytes i hlt)]
      · rw [if_pos hx.nul, hx.nul, List.take_length]
        exact Or.inr ⟨_, rfl, rfl⟩
  obtain ⟨last, hlast, rfl⟩ := hloop
  exact hlast

/-- `strchr` knows the characters below 128 only. -/
theorem strchr_place (hx : x.At m) (c : Int) :
    strchr m x.addr c =
      .ok (if c % 256 < 128 then place x.addr (x.bytes ++ [0]) (BitVec.ofInt 8 c) else none) := by
  obtain ⟨r, hr, hfirst⟩ := strchr_returns hx.isString c
  rw [hr]
  refine congrArg Except.ok (hfirst.unique ?_)
  simp only [charAt_iff hx]
  by_cases hc : c % 256 < 128
  · simp only [hc, and_true, if_true]
    exact first_place _ _ _
  · rw [if_neg hc]
    exact First.none fun i hat => hc hat.2

/-- The first place is the last one. -/
theorem lastPlace_eq_iff (hl : l.length ≤ 2 ^ 64) :
    lastPlace s l b = place s l b ↔ l.count b ≤ 1 := by
  by_cases hmem : b ∈ l
  · have hlt := List.idxOf_lt_length_of_mem hmem
    have hlt' := List.idxOf_lt_length_of_mem (List.mem_reverse.mpr hmem)
    rw [List.length_reverse] at hlt'
    rw [← places_eq_iff hmem, lastPlace, place, if_pos hlt, if_pos hlt', Option.some_inj]
    refine ⟨fun heq => ?_, fun heq => by rw [heq]⟩
    by_contra hne
    exact ofNat_ne (by omega) (by omega) (Ne.symm hne) (add_left_cancel heq)
  · refine iff_of_true ?_ (by rw [List.count_eq_zero.mpr hmem]; exact Nat.zero_le 1)
    rw [lastPlace, place, if_neg, if_neg (mt List.idxOf_lt_length_iff.mp hmem)]
    exact fun hlt => hmem (List.mem_reverse.mp (List.idxOf_lt_length_iff.mp (by simpa using hlt)))

/--
**The places of a character.**  In a string with its NUL, as an array, `find` finds the place at
which `strnchr` stops for every count that goes so far, and `strchr` if the character is below
128; in the array that `reverse` has turned around it finds the one of `strrchr`.  First and last
place are the same exactly if `count` counts at most one.
-/
theorem one_search (m : Bytes) (x : Source) (hx : x.At m) (c : Int) :
    ∃ t' k l q,
      Algorithm.find (x.bytes ++ [0]).toArray (x.bytes.length + 1) (BitVec.ofInt 8 c) = .ok k ∧
      Algorithm.reverse (x.bytes ++ [0]).toArray 0 (x.bytes.length + 1) = .ok t' ∧
      Algorithm.find t' (x.bytes.length + 1) (BitVec.ofInt 8 c) = .ok l ∧
      Algorithm.count (x.bytes ++ [0]).toArray (x.bytes.length + 1) (BitVec.ofInt 8 c) = .ok q ∧
      (∀ count, strnchr m x.addr count c =
        if k ≤ x.bytes.length ∧ k < count then some (x.addr + BitVec.ofNat 64 k) else none) ∧
      strchr m x.addr c = .ok (if k ≤ x.bytes.length ∧ c % 256 < 128 then
        some (x.addr + BitVec.ofNat 64 k) else none) ∧
      strrchr m x.addr c = .ok (if l ≤ x.bytes.length then
        some (x.addr + BitVec.ofNat 64 (x.bytes.length - l)) else none) ∧
      (strrchr m x.addr c = .ok (strnchr m x.addr (x.bytes.length + 1) c) ↔ q ≤ 1) := by
  have hlength : (x.bytes ++ [0]).length = x.bytes.length + 1 := by simp
  have hroom : (x.bytes ++ [0]).length ≤ 2 ^ 64 := by
    rw [hlength]
    exact hx.isString.lt_allAddrs
  have hfind := Algorithm.find_list (x.bytes ++ [0]) (BitVec.ofInt 8 c)
  have hreverse := Algorithm.reverse_list (x.bytes ++ [0])
  have hlast := Algorithm.find_list (x.bytes ++ [0]).reverse (BitVec.ofInt 8 c)
  have hcount := Algorithm.count_list (x.bytes ++ [0]) (BitVec.ofInt 8 c)
  have hstrnchr := fun count => strnchr_place (c := c) count x.bytes x.addr x.nonzero hx.spelled
  rw [List.length_reverse] at hlast
  rw [hlength] at hfind hreverse hlast hcount
  refine ⟨_, _, _, _, hfind, hreverse, hlast, hcount, fun count => ?_, ?_, ?_, ?_⟩
  · rw [hstrnchr, place, hlength, ← ite_and]
    exact if_congr (by omega) rfl rfl
  · rw [strchr_place hx, place, hlength, ← ite_and]
    exact congrArg Except.ok (if_congr (by omega) rfl rfl)
  · rw [strrchr_lastPlace hx, lastPlace, hlength, Nat.add_sub_cancel]
    exact congrArg Except.ok (if_congr Nat.lt_succ_iff rfl rfl)
  · have hall : strnchr m x.addr (x.bytes.length + 1) c =
        place x.addr (x.bytes ++ [0]) (BitVec.ofInt 8 c) := by
      rw [hstrnchr, place, hlength, ← ite_and]
      exact if_congr and_self_iff rfl rfl
    rw [strrchr_lastPlace hx, hall, Except.ok.injEq, lastPlace_eq_iff hroom]

/-- The character in the middle of three. -/
theorem one_search_middle :
    ∃ t' k l q,
      Algorithm.find (#[99, 100, 101, 0] : Array Byte) (3 + 1) (BitVec.ofInt 8 100) = .ok k ∧
      Algorithm.reverse (#[99, 100, 101, 0] : Array Byte) 0 (3 + 1) = .ok t' ∧
      Algorithm.find t' (3 + 1) (BitVec.ofInt 8 100) = .ok l ∧
      Algorithm.count (#[99, 100, 101, 0] : Array Byte) (3 + 1) (BitVec.ofInt 8 100) = .ok q ∧
      (∀ count, strnchr Buffer.letters 300 count 100 =
        if k ≤ 3 ∧ k < count then some (300 + BitVec.ofNat 64 k) else none) ∧
      strchr Buffer.letters 300 100 =
        .ok (if k ≤ 3 ∧ (100 : Int) % 256 < 128 then some (300 + BitVec.ofNat 64 k) else none) ∧
      strrchr Buffer.letters 300 100 =
        .ok (if l ≤ 3 then some (300 + BitVec.ofNat 64 (3 - l)) else none) ∧
      (strrchr Buffer.letters 300 100 = .ok (strnchr Buffer.letters 300 (3 + 1) 100) ↔ q ≤ 1) :=
  one_search Buffer.letters Buffer.cde (Buffer.letters_ready (Nat.zero_le 5) (Or.inr rfl)).1 100

end Ytl.CString
