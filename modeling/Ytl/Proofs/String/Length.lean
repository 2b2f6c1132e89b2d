/-
`strlen` and `strnlen` find the end of a string.

The three loops of `strlen` keep the same: no NUL has been passed, and every load began at a
byte of the string, a word at the beginning of an aligned word.  So a word may reach past the
NUL, but it is one that the string reaches into.  `strnlen` reads bytes, the last one at the
NUL or at its bound.

Where the addresses come back to the string a load may do so too, which nothing excludes:
memory is all of the addresses here, and a string may go around them.
-/
import Ytl.Base.CellMove
import Ytl.Proofs.String.Scan

namespace Ytl.CString

open Memory

variable {m : Bytes} {s : Addr} {n i : Nat} {r : Reader}

/-! ### A scan on its way -/

/-- A scan has come to the byte `i` of a string with `n` bytes. -/
structure Scanned (m : Bytes) (s : Addr) (n i : Nat) (r : Reader) : Prop where
  p : r.p = s + BitVec.ofNat 64 i
  before : ∀ j, j < i → m (s + BitVec.ofNat 64 j) ≠ 0
  loads : ∀ l ∈ r.loads, l.Begins s n

namespace Scanned

theorem start (m : Bytes) (s : Addr) (n : Nat) : Scanned m s n 0 ⟨s, []⟩ :=
  ⟨(BitVec.add_zero s).symm, fun j hj => absurd hj (Nat.not_lt_zero j),
    fun _ hl => absurd hl List.not_mem_nil⟩

theorem le (h : Scanned m s n i r) (hs : IsString m s n) : i ≤ n := hs.le_of_before h.before

theorem load (h : Scanned m s n i r) (hs : IsString m s n) {size : Nat}
    (hsize : size = 1 ∨ size = 8 ∧ r.p &&& 7 = 0) : Scanned m s n i (r.load size) := by
  refine ⟨h.p, h.before, fun l hl => ?_⟩
  rcases List.mem_append.mp hl with hold | hnew
  · exact h.loads l hold
  · rw [List.mem_singleton.mp hnew]
    exact ⟨⟨i, h.le hs, h.p⟩, hsize⟩

theorem load_byte (h : Scanned m s n i r) (hs : IsString m s n) : Scanned m s n i (r.load 1) :=
  h.load hs (Or.inl rfl)

/-- Going on behind `k` bytes that are not 0. -/
theorem next (h : Scanned m s n i r) {k : Nat}
    (hk : ∀ j, j < k → m (s + BitVec.ofNat 64 (i + j)) ≠ 0) :
    Scanned m s n (i + k) (r.next (BitVec.ofNat 64 k)) := by
  refine ⟨?_, before_add h.before hk, h.loads⟩
  show r.p + BitVec.ofNat 64 k = _
  rw [h.p, add_ofNat_add]

theorem next_byte (h : Scanned m s n i r) (hb : m r.p ≠ 0) : Scanned m s n (i + 1) (r.next 1) := by
  refine h.next (k := 1) fun j hj => ?_
  rw [Nat.lt_one_iff.mp hj, Nat.add_zero, ← h.p]
  exact hb

theorem next_word (h : Scanned m s n i r) (hw : hasZero (loadWord m r.p) = false) :
    Scanned m s n (i + 8) (r.next 8) := by
  rw [h.p] at hw
  exact h.next (k := 8) (hasZero_at_iff.mp hw)

/-- At a NUL the scan is at the end. -/
theorem eq_of_nul (h : Scanned m s n i r) (hs : IsString m s n) (hb : m r.p = 0) : i = n := by
  rw [h.p] at hb
  exact hs.eq_of_nul h.before hb

theorem distance (h : Scanned m s n i r) : r.p - s = BitVec.ofNat 64 i := by
  rw [h.p, add_ofNat_sub]

end Scanned

/-- What `strlen` returns, whichever loop it returns from. -/
structure Measured (s : Addr) (n : Nat) (len : Addr) (r : Reader) : Prop where
  len : len = BitVec.ofNat 64 n
  loads : ∀ l ∈ r.loads, l.Begins s n

theorem Scanned.measured (h : Scanned m s n i r) (hs : IsString m s n) (hb : m r.p = 0) :
    Measured s n (r.p - s) r :=
  ⟨by rw [h.distance, h.eq_of_nul hs hb], h.loads⟩

/-! ### The loops

Bytes up to the first aligned address, words up to one with a zero, and bytes again up to the
NUL.
-/

theorem strlenHead_returns (hs : IsString m s n) :
    ∃ x, loop (strlenHead m s) allAddrs ⟨s, []⟩ = .ok x ∧
      ((∃ len, x.1 = some len ∧ Measured s n len x.2) ∨
        x.1 = none ∧ x.2.p &&& 7 = 0 ∧ ∃ i, Scanned m s n i x.2) := by
  refine hs.loop_returns (I := Scanned m s n) (fun i r h => h.le hs) (Scanned.start m s n) ?_
  intro i r h
  unfold strlenHead
  by_cases haligned : r.p &&& 7 = 0
  · rw [if_neg (not_not_intro haligned)]
    exact Or.inr ⟨_, rfl, Or.inr ⟨rfl, haligned, i, h⟩⟩
  · rw [if_pos haligned]
    have hload : Scanned m s n i (r.load 1) := h.load_byte hs
    by_cases hb : m r.p = 0
    · refine Or.inr ⟨(some (r.p - s), r.load 1), if_pos hb, Or.inl ⟨_, rfl, ?_⟩⟩
      exact hload.measured hs hb
    · exact Or.inl ⟨(r.load 1).next 1, i + 1, if_neg hb, Nat.lt_succ_self i, hload.next_byte hb⟩

theorem strlenWord_returns (hs : IsString m s n) (h : Scanned m s n i r)
    (haligned : r.p &&& 7 = 0) :
    ∃ r', loop (strlenWord m) allAddrs r = .ok r' ∧ ∃ i, Scanned m s n i r' := by
  refine hs.loop_returns (I := fun i r => Scanned m s n i r ∧ r.p &&& 7 = 0)
    (fun i r h => h.1.le hs) ⟨h, haligned⟩ ?_
  rintro i r ⟨h, haligned⟩
  have hload : Scanned m s n i (r.load 8) := h.load hs (Or.inr ⟨rfl, haligned⟩)
  unfold strlenWord
  cases hzero : hasZero (loadWord m r.p) with
  | true => exact Or.inr ⟨r.load 8, if_pos hzero, i, hload⟩
  | false =>
      refine Or.inl ⟨(r.load 8).next 8, i + 8, ?_, by omega, hload.next_word hzero,
        aligned_next haligned⟩
      show (if hasZero (loadWord m r.p) then _ else _) = _
      rw [hzero]
      rfl

theorem strlenByte_returns (hs : IsString m s n) (h : Scanned m s n i r) :
    ∃ r', loop (strlenByte m) allAddrs r = .ok r' ∧ Measured s n (r'.p - s) r' := by
  refine hs.loop_returns (I := Scanned m s n) (fun i r h => h.le hs) h ?_
  intro i r h
  have hload : Scanned m s n i (r.load 1) := h.load_byte hs
  unfold strlenByte
  by_cases hb : m r.p = 0
  · exact Or.inr ⟨r.load 1, if_pos hb, hload.measured hs hb⟩
  · exact Or.inl ⟨(r.load 1).next 1, i + 1, if_neg hb, Nat.lt_succ_self i, hload.next_byte hb⟩

theorem strlen_measured (hs : IsString m s n) :
    ∃ len r, strlen m s = .ok (len, r) ∧ Measured s n len r := by
  obtain ⟨⟨result, r⟩, hhead, ⟨len, rfl, hlen⟩ | ⟨rfl, haligned, i, h⟩⟩ := strlenHead_returns hs
  · refine ⟨len, r, ?_, hlen⟩
    rw [strlen, hhead]
    rfl
  · obtain ⟨r', hword, i', h'⟩ := strlenWord_returns hs h haligned
    obtain ⟨r'', hbyte, hlen⟩ := strlenByte_returns hs h'
    refine ⟨r''.p - s, r'', ?_, hlen⟩
    rw [strlen, hhead, bind_of_ok]
    dsimp only
    rw [hword, bind_of_ok, hbyte]
    rfl

theorem strnlenLoop_stops {maxlen k : Nat} (hl : Limited m s maxlen k) :
    ∀ (left i : Nat) (r : Reader), i + left = maxlen → i ≤ k → r.p = s + BitVec.ofNat 64 i →
      r.Inside s (k + 1) →
      (strnlenLoop m left r).p = s + BitVec.ofNat 64 k ∧
        (strnlenLoop m left r).Inside s (k + 1) ∧
        ⟨s + BitVec.ofNat 64 k, 1⟩ ∈ (strnlenLoop m left r).loads := by
  intro left
  induction left with
  | zero =>
      intro i r hi hik hp hinside
      have hle := hl.le
      obtain rfl : k = i := by omega
      exact ⟨hp, hinside.load (Nat.lt_succ_self k) hp, Reader.mem_load hp 1⟩
  | succ left ih =>
      intro i r hi hik hp hinside
      have hload : (r.load 1).Inside s (k + 1) := hinside.load (Nat.lt_succ_of_le hik) hp
      rw [strnlenLoop]
      rcases Nat.lt_or_eq_of_le hik with hlt | rfl
      · rw [if_neg (hp ▸ hl.before i hlt)]
        exact ih (i + 1) _ (by omega) hlt (next_place hp) hload
      · rw [if_pos (hp ▸ hl.nul (by omega))]
        exact ⟨hp, hload, Reader.mem_load hp 1⟩

/-- The scan of `strnlen` from the beginning. -/
theorem strnlen_stops {maxlen k : Nat} (hl : Limited m s maxlen k) :
    (strnlen m s maxlen).1 = BitVec.ofNat 64 k ∧ (strnlen m s maxlen).2.Inside s (k + 1) ∧
      ⟨s + BitVec.ofNat 64 k, 1⟩ ∈ (strnlen m s maxlen).2.loads := by
  obtain ⟨hp, hinside, hload⟩ := strnlenLoop_stops hl maxlen 0 ⟨s, []⟩ (Nat.zero_add maxlen)
    (Nat.zero_le k) (BitVec.add_zero s).symm (Reader.Inside.start s s (k + 1))
  refine ⟨?_, hinside, hload⟩
  show (strnlenLoop m maxlen ⟨s, []⟩).p - s = _
  rw [hp, add_ofNat_sub]

/--
**`strlen` for every alignment.**  It returns the distance to the first NUL, as `strnlen`
does for every maximum that is not smaller.  Every word it loads is aligned and has a byte
of the string in it.
-/
theorem strlen_correct (hs : IsString m s n) :
    ∃ len r, strlen m s = .ok (len, r) ∧ len.toNat = n ∧
      (∀ maxlen, n ≤ maxlen → (strnlen m s maxlen).1 = len) ∧
      ∀ l ∈ r.loads, l.size = 8 → l.addr &&& 7 = 0 ∧
        ∃ i j, i ≤ n ∧ j < 8 ∧ s + BitVec.ofNat 64 i = l.addr + BitVec.ofNat 64 j := by
  obtain ⟨len, r, hlen, hmeasured⟩ := strlen_measured hs
  refine ⟨len, r, hlen, ?_, fun maxlen hn => ?_, fun l hl hsize => ?_⟩
  · rw [hmeasured.len, BitVec.toNat_ofNat]
    exact Nat.mod_eq_of_lt hs.lt_allAddrs
  · rw [(strnlen_stops (hs.limited hn)).1, hmeasured.len]
  · obtain ⟨⟨i, hi, haddr⟩, hbyte | ⟨-, haligned⟩⟩ := hmeasured.loads l hl
    · omega
    · refine ⟨haligned, i, 0, hi, by omega, ?_⟩
      rw [haddr, BitVec.add_zero]

/-- Nineteen bytes with their highest bits set, from an odd address on. -/
theorem strlen_correct_odd :
    ∃ len r, strlen (fun a => if a = 120 then 0 else 0x80) 101 = .ok (len, r) ∧ len.toNat = 19 ∧
      (∀ maxlen, 19 ≤ maxlen →
        (strnlen (fun a => if a = 120 then 0 else 0x80) 101 maxlen).1 = len) ∧
      ∀ l ∈ r.loads, l.size = 8 → l.addr &&& 7 = 0 ∧
        ∃ i j, i ≤ 19 ∧ j < 8 ∧ 101 + BitVec.ofNat 64 i = l.addr + BitVec.ofNat 64 j :=
  strlen_correct ⟨by decide, by decide⟩

/--
**When `strnlen` stays inside its bound.**  It reads only the bytes it is allowed to, and
returns the place of the first NUL among them or the bound, exactly when there is a NUL
among them: at the bound the byte is read before the counter is looked at.
-/
theorem strnlen_bounded_iff (m : Bytes) (s : Addr) (maxlen : Nat) (hmax : maxlen < 2 ^ 64) :
    ((strnlen m s maxlen).2.Inside s maxlen ∧
        ∀ k, Limited m s maxlen k → (strnlen m s maxlen).1.toNat = k) ↔
      ∃ i, i < maxlen ∧ m (s + BitVec.ofNat 64 i) = 0 := by
  constructor
  · rintro ⟨hinside, -⟩
    obtain ⟨k, hl⟩ := exists_limited m s maxlen
    rcases Nat.lt_or_eq_of_le hl.le with hlt | rfl
    · exact ⟨k, hlt, hl.nul hlt⟩
    · exact absurd hinside (Reader.not_inside (strnlen_stops hl).2.2 (Nat.le_refl k) hmax)
  · rintro ⟨i, hi, hb⟩
    have hshort : ∀ k, Limited m s maxlen k → k < maxlen := by
      intro k hl
      by_contra hc
      exact hl.before i (by omega) hb
    refine ⟨?_, fun k hl => ?_⟩
    · obtain ⟨k, hl⟩ := exists_limited m s maxlen
      exact (strnlen_stops hl).2.1.mono (hshort k hl)
    · have hlt := hshort k hl
      rw [(strnlen_stops hl).1, BitVec.toNat_ofNat, Nat.mod_eq_of_lt (by omega)]

/-- Ten bytes, of which the seventh is the NUL. -/
theorem strnlen_bounded_ten :
    (strnlen (fun a => a.setWidth 8) 250 10).2.Inside 250 10 ∧
      ∀ k, Limited (fun a => a.setWidth 8) 250 10 k →
        (strnlen (fun a => a.setWidth 8) 250 10).1.toNat = k :=
  (strnlen_bounded_iff (fun a => a.setWidth 8) 250 10 (by decide)).mpr
    ⟨6, by decide, by decide⟩

/-- Of two bytes without a NUL a third one is read. -/
theorem strnlen_reads_behind : ¬ (strnlen (fun _ => 0x41) 100 2).2.Inside 100 2 := by
  have hload : ⟨100 + BitVec.ofNat 64 2, 1⟩ ∈ (strnlen (fun _ => 0x41) 100 2).2.loads := by
    simp [strnlen, strnlenLoop, Reader.load, Reader.next]
  exact Reader.not_inside hload (Nat.le_refl 2) (by decide)

end Ytl.CString
