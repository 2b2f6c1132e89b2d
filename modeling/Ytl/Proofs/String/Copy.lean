/-
`strcpy` and `strcat` copy a string.

Each round is a move of one or of eight cells, and as long as the destination does not begin
inside the string, what is still to be read is as it was.  A word without a zero ends in front
of the NUL, so no word is stored past the copy.

So the whole is a move of the string and its NUL, and whatever is known of moves is known of
these functions.  `strcat` is the same move, to the NUL of the other string, which the first
byte that is copied replaces.
-/
import Ytl.Proofs.Memory.Move
import Ytl.Proofs.String.Length

namespace Ytl.CString

open Memory

variable {m : Bytes} {d src : Addr} {n i : Nat} {c : Cursor}

/-! ### A part that has been copied -/

/-- The first `i` bytes of a string with `n` bytes have been copied. -/
structure Copied (m : Bytes) (d src : Addr) (n i : Nat) (c : Cursor) : Prop where
  le : i ≤ n
  rose : Cursor.Rose i ⟨m, d, src⟩ c

namespace Copied

theorem start (m : Bytes) (d src : Addr) (n : Nat) : Copied m d src n 0 ⟨m, d, src⟩ :=
  ⟨Nat.zero_le n, Cursor.way_up.zero _⟩

/-- The rest of the string is still there. -/
theorem read (h : Copied m d src n i c) (hsafe : Cursor.SafeUp (n + 1) ⟨m, d, src⟩) {j : Nat}
    (hj : i + j ≤ n) : c.mem (c.s + BitVec.ofNat 64 j) = m (src + BitVec.ofNat 64 (i + j)) := by
  have hlt : (src - d).toNat + (i + j) < 2 ^ 64 :=
    Nat.lt_of_lt_of_le (Nat.add_lt_add_left (Nat.lt_succ_of_le hj) _) hsafe
  rw [h.rose.mem, h.rose.s, add_ofNat_add]
  exact moved_unread (Nat.le_add_right i j) hlt

theorem read_first (h : Copied m d src n i c) (hsafe : Cursor.SafeUp (n + 1) ⟨m, d, src⟩) :
    c.mem c.s = m (src + BitVec.ofNat 64 i) := by
  have hread := h.read hsafe (j := 0) h.le
  rwa [BitVec.add_zero, Nat.add_zero] at hread

/-- Copying on, inside of the string and its NUL. -/
theorem onward (h : Copied m d src n i c) (hsafe : Cursor.SafeUp (n + 1) ⟨m, d, src⟩) {k : Nat}
    {c' : Cursor} (hk : i + k ≤ n + 1) (hwent : Cursor.Rose k c c') :
    Cursor.Rose (i + k) ⟨m, d, src⟩ c' :=
  Cursor.way_up.trans (Cursor.way_up.mono hsafe hk) h.rose hwent

theorem byte (h : Copied m d src n i c) (hs : IsString m src n)
    (hsafe : Cursor.SafeUp (n + 1) ⟨m, d, src⟩) (hb : c.mem c.s ≠ 0) :
    Copied m d src n (i + 1) c.byteUp := by
  have hle : i + 1 ≤ n := by
    rcases Nat.lt_or_eq_of_le h.le with hlt | rfl
    · exact hlt
    · rw [h.read_first hsafe] at hb
      exact absurd hs.nul hb
  exact ⟨hle, h.onward hsafe (by omega) (Cursor.byteUp_rose c)⟩

/-- A word without a zero ends in front of the NUL. -/
theorem word (h : Copied m d src n i c) (hs : IsString m src n)
    (hsafe : Cursor.SafeUp (n + 1) ⟨m, d, src⟩) (hw : hasZero (loadWord c.mem c.s) = false) :
    Copied m d src n (i + 8) c.wordUp := by
  have hle : i + 8 ≤ n := by
    by_contra hc
    have hi := h.le
    have hread := h.read hsafe (j := n - i) (by omega)
    rw [show i + (n - i) = n by omega, hs.nul] at hread
    exact (hasZero_iff c.mem c.s).mp hw (n - i) (by omega) hread
  exact ⟨hle, h.onward hsafe (by omega) (Cursor.wordUp_rose c)⟩

/-- At the NUL one byte more completes the copy. -/
theorem last (h : Copied m d src n i c) (hs : IsString m src n)
    (hsafe : Cursor.SafeUp (n + 1) ⟨m, d, src⟩) (hb : c.mem c.s = 0) :
    c.byteUp.mem = moved (n + 1) d src m := by
  have hi : i = n := by
    rw [h.read_first hsafe] at hb
    rcases Nat.lt_or_eq_of_le h.le with hlt | heq
    · exact absurd hb (hs.before i hlt)
    · exact heq
  have hwent := h.onward hsafe (by omega) (Cursor.byteUp_rose c)
  rw [hi] at hwent
  exact hwent.mem

end Copied

/-! ### The loops

Bytes until the destination is aligned, words until one has a zero, and bytes up to the NUL.
-/

section Loops

variable (hs : IsString m src n) (hsafe : Cursor.SafeUp (n + 1) ⟨m, d, src⟩)

include hs hsafe

theorem strcpyHead_returns :
    ∃ x, loop strcpyHead allAddrs ⟨m, d, src⟩ = .ok x ∧
      ((∃ c, x = (true, c) ∧ c.mem = moved (n + 1) d src m) ∨
        ∃ i c, x = (false, c) ∧ Copied m d src n i c) := by
  refine hs.loop_returns (I := Copied m d src n) (fun i c h => h.le) (Copied.start m d src n) ?_
  intro i c h
  unfold strcpyHead
  by_cases haligned : c.s &&& 7 = 0
  · rw [if_neg (not_not_intro haligned)]
    exact Or.inr ⟨(false, c), rfl, Or.inr ⟨i, c, rfl, h⟩⟩
  · rw [if_pos haligned]
    by_cases hb : c.mem c.s = 0
    · refine Or.inr ⟨_, if_pos hb, Or.inl ⟨_, rfl, ?_⟩⟩
      exact h.last hs hsafe hb
    · exact Or.inl ⟨c.byteUp, i + 1, if_neg hb, Nat.lt_succ_self i, h.byte hs hsafe hb⟩

theorem strcpyWord_returns (h : Copied m d src n i c) :
    ∃ c', loop strcpyWord allAddrs c = .ok c' ∧ ∃ i, Copied m d src n i c' := by
  refine hs.loop_returns (I := Copied m d src n) (fun i c h => h.le) h ?_
  intro i c h
  unfold strcpyWord
  cases hzero : hasZero (loadWord c.mem c.s) with
  | true => exact Or.inr ⟨c, rfl, i, h⟩
  | false => exact Or.inl ⟨c.wordUp, i + 8, rfl, by omega, h.word hs hsafe hzero⟩

theorem strcpyByte_returns (h : Copied m d src n i c) :
    ∃ c', loop strcpyByte allAddrs c = .ok c' ∧ c'.mem = moved (n + 1) d src m := by
  refine hs.loop_returns (I := Copied m d src n) (fun i c h => h.le) h ?_
  intro i c h
  unfold strcpyByte
  by_cases hb : c.mem c.s = 0
  · exact Or.inr ⟨c.byteUp, if_pos hb, h.last hs hsafe hb⟩
  · exact Or.inl ⟨c.byteUp, i + 1, if_neg hb, Nat.lt_succ_self i, h.byte hs hsafe hb⟩

/-- **`strcpy` is a move** of the string and its NUL. -/
theorem strcpy_moved : strcpy m d src = .ok (d, moved (n + 1) d src m) := by
  obtain ⟨x, hhead, ⟨c, rfl, hmem⟩ | ⟨i, c, rfl, h⟩⟩ := strcpyHead_returns hs hsafe
  · rw [strcpy, hhead, ← hmem]
    rfl
  · obtain ⟨c', hword, i', h'⟩ := strcpyWord_returns hs hsafe h
    obtain ⟨c'', hbyte, hmem⟩ := strcpyByte_returns hs hsafe h'
    rw [strcpy, hhead, bind_of_ok]
    dsimp only
    rw [if_neg Bool.false_ne_true, hword, bind_of_ok, hbyte, ← hmem]
    rfl

end Loops

/-- A string that is apart from the cells behind `dest` is read before it is written. -/
theorem safeUp_of_apart {dest : Addr} {nd : Nat}
    (hapart : ∀ i j, i ≤ n → j ≤ nd + n →
      src + BitVec.ofNat 64 i ≠ dest + BitVec.ofNat 64 j) :
    Cursor.SafeUp (n + 1) ⟨m, dest + BitVec.ofNat 64 nd, src⟩ := by
  refine safeUp_of_disjoint fun i j hi hj heq => ?_
  rw [add_ofNat_add] at heq
  exact hapart j (nd + i) (by omega) (by omega) heq.symm

/-- **`strcat` is a move** to the end of the string. -/
theorem strcat_moved {dest : Addr} {nd : Nat} (hd : IsString m dest nd) (hs : IsString m src n)
    (hsafe : Cursor.SafeUp (n + 1) ⟨m, dest + BitVec.ofNat 64 nd, src⟩) :
    strcat m dest src = .ok (dest, moved (n + 1) (dest + BitVec.ofNat 64 nd) src m) := by
  obtain ⟨c, hc, hmem⟩ := strcpyByte_returns hs hsafe (Copied.start m _ src n)
  rw [strcat, toEnd_returns hd, bind_of_ok, hc, ← hmem]
  rfl

/--
**`strcat` and `strcpy` agree.**  With the two apart, `strcat` leaves the same memory as
`strcpy` at the end of `dest`: the bytes of `src` and its NUL are appended, and nothing else
has changed.
-/
theorem strcat_eq_strcpy {dest : Addr} {nd ns : Nat} (hd : IsString m dest nd)
    (hs : IsString m src ns)
    (hapart : ∀ i j, i ≤ ns → j ≤ nd + ns →
      src + BitVec.ofNat 64 i ≠ dest + BitVec.ofNat 64 j) :
    ∃ len r mem, strlen m dest = .ok (len, r) ∧ strcat m dest src = .ok (dest, mem) ∧
      strcpy m (dest + len) src = .ok (dest + len, mem) ∧
      (∀ i, i ≤ ns → mem (dest + BitVec.ofNat 64 (nd + i)) = m (src + BitVec.ofNat 64 i)) ∧
      ∀ a, (∀ i, i ≤ ns → a ≠ dest + BitVec.ofNat 64 (nd + i)) → mem a = m a := by
  obtain ⟨len, r, hlen, hmeasured⟩ := strlen_measured hd
  have hsafe : Cursor.SafeUp (ns + 1) ⟨m, dest + BitVec.ofNat 64 nd, src⟩ :=
    safeUp_of_apart hapart
  refine ⟨len, r, _, hlen, strcat_moved hd hs hsafe, ?_, fun i hi => ?_, fun a ha => ?_⟩
  · rw [hmeasured.len]
    exact strcpy_moved hs hsafe
  · have hns := hs.lt_allAddrs
    rw [← add_ofNat_add]
    exact moved_inside (by omega) (Nat.lt_of_le_of_lt hi hns)
  · refine moved_outside fun i hi => ?_
    rw [add_ofNat_add]
    exact ha i (by omega)

/-- Ten bytes appended to six, neither string aligned. -/
theorem strcat_eq_strcpy_unaligned :
    ∃ len r mem, strlen (fun a => a.setWidth 8) 250 = .ok (len, r) ∧
      strcat (fun a => a.setWidth 8) 250 1014 = .ok (250, mem) ∧
      strcpy (fun a => a.setWidth 8) (250 + len) 1014 = .ok (250 + len, mem) ∧
      (∀ i, i ≤ 10 →
        mem (250 + BitVec.ofNat 64 (6 + i)) = (1014 + BitVec.ofNat 64 i).setWidth 8) ∧
      ∀ a, (∀ i, i ≤ 10 → a ≠ 250 + BitVec.ofNat 64 (6 + i)) → mem a = a.setWidth 8 :=
  strcat_eq_strcpy ⟨by decide, by decide⟩ ⟨by decide, by decide⟩
    (by intro i j hi hj; bv_omega)

end Ytl.CString
