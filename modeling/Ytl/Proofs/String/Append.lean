/-
`strlcat` and its bound.

The scan stops at the NUL of the destination or at the bound.  From there the copy counts down
the room that is left, but not below the cell for the NUL, while the scan of the source goes
on to its end.

The result is the length of what was meant to be there, so a caller compares it with the
size.  It is that also when nothing is written, because the destination had no NUL within the
bound: the bound counts as its length then.
-/
import Ytl.Proofs.String.Bounded

namespace Ytl.CString

open Memory

variable {m : Bytes} {dest d src : Addr} {f : Nat → Byte} {n k size room i : Nat} {r : Reader}
  {w : Writer}

/-! ### The scan -/

theorem strlcatScan_stops (hl : Limited m dest size k) :
    ∀ (left i : Nat) (r : Reader), i + left = size → i ≤ k → r.p = dest + BitVec.ofNat 64 i →
      r.Inside dest size →
      (strlcatScan m left r).p = dest + BitVec.ofNat 64 k ∧
        (strlcatScan m left r).Inside dest size := by
  intro left
  induction left with
  | zero =>
      intro i r hi hik hp hinside
      have hle := hl.le
      rw [show k = i by omega]
      exact ⟨hp, hinside⟩
  | succ left ih =>
      intro i r hi hik hp hinside
      have hload : (r.load 1).Inside dest size := hinside.load (by omega) hp
      rw [strlcatScan]
      rcases Nat.lt_or_eq_of_le hik with hlt | rfl
      · have hb : m r.p ≠ 0 := by
          rw [hp]
          exact hl.before i hlt
        rw [if_neg hb]
        exact ih (i + 1) _ (by omega) hlt (next_place hp) hload
      · have hb : m r.p = 0 := by
          rw [hp]
          exact hl.nul (by omega)
        rw [if_pos hb]
        exact ⟨hp, hload⟩

/-! ### The copy

The rounds of the loop are the bytes of the source, whether they are copied or not.
-/

/-- `i` bytes of the source have been seen, and as many of them copied as fit into `room`. -/
structure Appended (m : Bytes) (d src : Addr) (n room i : Nat) (x : Nat × Writer) : Prop where
  le : i ≤ n
  left : x.1 + min i room = room + 1
  pd : x.2.d = d + BitVec.ofNat 64 (min i room)
  ps : x.2.s = src + BitVec.ofNat 64 i
  holds : Holds m d (cut m src (min n room)) (min i room) x.2

theorem strlcatCopy_holds (hs : IsString m src n)
    (hapart : ∀ i j, i ≤ n → j ≤ n → j < room →
      src + BitVec.ofNat 64 i ≠ d + BitVec.ofNat 64 j) :
    ∃ w, loop strlcatCopy allAddrs (room + 1, ⟨m, d, src, []⟩) = .ok w ∧
      w.s = src + BitVec.ofNat 64 n ∧ w.d = d + BitVec.ofNat 64 (min n room) ∧
      Holds m d (cut m src (min n room)) (min n room) w := by
  refine hs.loop_returns (I := Appended m d src n room) (i := 0) (fun i x h => h.le) ?_ ?_
  · refine ⟨Nat.zero_le n, ?_, ?_, ?_, ?_⟩
    · rw [Nat.zero_min]
    · rw [Nat.zero_min]
      exact (BitVec.add_zero d).symm
    · exact (BitVec.add_zero src).symm
    · rw [Nat.zero_min]
      exact Holds.start m d d src _
  · rintro i ⟨left, w⟩ h
    have hle := h.le
    have hb : w.mem w.s = m (src + BitVec.ofNat 64 i) :=
      h.holds.source h.ps fun j hj => hapart i j hle (by omega) (by omega)
    have hleft : left + min i room = room + 1 := h.left
    have hnext : w.s + 1 = src + BitVec.ofNat 64 (i + 1) := next_place h.ps
    unfold strlcatCopy
    dsimp only
    rw [hb]
    rcases Nat.lt_or_eq_of_le h.le with hlt | rfl
    · rw [if_neg (hs.before i hlt)]
      by_cases hfull : left = 1
      · have hmin : min (i + 1) room = min i room := by omega
        refine Or.inl ⟨_, i + 1, if_neg (not_not_intro hfull), Nat.lt_succ_self i, hlt, ?_, ?_,
          hnext, ?_⟩
        · rw [hmin]
          exact hleft
        · rw [hmin]
          exact h.pd
        · rw [hmin]
          exact h.holds.nextS
      · have hmin : min i room = i := by omega
        have hmin' : min (i + 1) room = i + 1 := by omega
        have hn : n < 2 ^ 64 := hs.lt_allAddrs
        have hholds := h.holds
        have hd : w.d = d + BitVec.ofNat 64 (min i room) := h.pd
        rw [hmin] at hholds hd
        refine Or.inl ⟨_, i + 1, if_pos hfull, Nat.lt_succ_self i, hlt, ?_, ?_, hnext, ?_⟩
        · rw [hmin']
          dsimp only
          omega
        · rw [hmin']
          exact next_place hd
        · rw [hmin']
          have hput := hholds.put_next (by omega) hd
          rw [cut_of_lt (by omega)] at hput
          exact hput.nextD.nextS
    · rw [if_pos hs.nul]
      exact Or.inr ⟨w, rfl, h.ps, h.pd, h.holds⟩

/-- **`strlcat` appends what fits, and a NUL.** -/
theorem strlcat_holds (hs : IsString m src n) (hl : Limited m dest size k)
    (hapart : ∀ i j, i ≤ n → j < size → src + BitVec.ofNat 64 i ≠ dest + BitVec.ofNat 64 j) :
    ∃ r w, strlcat m dest src size = .ok (BitVec.ofNat 64 (k + n), r, w) ∧
      r.Inside dest size ∧
      (k = size → w.mem = m ∧ w.stores = []) ∧
      (k < size → Holds m (dest + BitVec.ofNat 64 k) (cut m src (min n (size - 1 - k)))
        (min n (size - 1 - k) + 1) w) := by
  have hroom := room_of_apart hs hapart
  have hle := hl.le
  obtain ⟨hp, hinside⟩ := strlcatScan_stops hl size 0 ⟨dest, []⟩ (Nat.zero_add size)
    (Nat.zero_le k) (BitVec.add_zero dest).symm (Reader.Inside.start dest dest size)
  generalize hscan : strlcatScan m size ⟨dest, []⟩ = r at hp hinside
  have hleft : sub64 size (BitVec.ofNat 64 k).toNat = size - k := by
    rw [BitVec.toNat_ofNat, Nat.mod_eq_of_lt (show k < 2 ^ 64 by omega)]
    exact if_pos hle
  unfold strlcat
  rw [hscan]
  dsimp only
  rw [hp, add_ofNat_sub, hleft]
  rcases Nat.lt_or_eq_of_le hle with hlt | rfl
  · have hapart' : ∀ i j, i ≤ n → j ≤ n → j < size - 1 - k →
        src + BitVec.ofNat 64 i ≠ dest + BitVec.ofNat 64 k + BitVec.ofNat 64 j := by
      intro i j hi _ hj
      rw [add_ofNat_add]
      exact hapart i (k + j) hi (by omega)
    obtain ⟨w, hw, hps, hpd, h⟩ := strlcatCopy_holds hs hapart'
    have hput := h.put_next (by omega) hpd
    rw [cut_of_le (Nat.le_refl _)] at hput
    refine ⟨r, w.put 0, ?_, hinside, fun hc => by omega, fun _ => hput⟩
    rw [if_neg (show ¬ size - k = 0 by omega), show size - k = size - 1 - k + 1 by omega]
    show (loop strlcatCopy allAddrs _ >>= _) = _
    rw [hw, bind_of_ok, hps, add_ofNat_sub, ← BitVec.ofNat_add]
    rfl
  · obtain ⟨len, rs, hlen, hmeasured⟩ := strlen_measured hs
    refine ⟨r, ⟨m, dest + BitVec.ofNat 64 k, src, []⟩, ?_, hinside, fun _ => ⟨rfl, rfl⟩,
      fun hc => by omega⟩
    rw [if_pos (Nat.sub_self k), hlen, hmeasured.len, bind_of_ok, ← BitVec.ofNat_add]
    rfl

/--
**`strlcat`.**  It returns the length of both strings, the first one limited to the size.  If
that is shorter than the size, the bytes of `src` that fit and a NUL are appended to it,
and the result tells whether all of them were; otherwise nothing is written.  Through `dest`
only the cells of the destination are read and written.
-/
theorem strlcat_correct (hs : IsString m src n) (hl : Limited m dest size k)
    (hapart : ∀ i j, i ≤ n → j < size → src + BitVec.ofNat 64 i ≠ dest + BitVec.ofNat 64 j) :
    ∃ len r w, strlcat m dest src size = .ok (len, r, w) ∧ len.toNat = k + n ∧
      (k < size →
        (∀ i, i < k → w.mem (dest + BitVec.ofNat 64 i) = m (dest + BitVec.ofNat 64 i)) ∧
        (∀ i, i < min n (size - 1 - k) →
          w.mem (dest + BitVec.ofNat 64 (k + i)) = m (src + BitVec.ofNat 64 i)) ∧
        w.mem (dest + BitVec.ofNat 64 (k + min n (size - 1 - k))) = 0 ∧
        (size ≤ len.toNat ↔ min n (size - 1 - k) < n)) ∧
      (k = size → w.stores = []) ∧
      r.Inside dest size ∧
      (∀ a ∈ w.stores, ∃ i, i < size ∧ a = dest + BitVec.ofNat 64 i) ∧
      ∀ a, (∀ i, i < size → a ≠ dest + BitVec.ofNat 64 i) → w.mem a = m a := by
  obtain ⟨r, w, hw, hinside, hnone, hsome⟩ := strlcat_holds hs hl hapart
  have hroom := room_of_apart hs hapart
  have hle := hl.le
  have hlen : (BitVec.ofNat 64 (k + n)).toNat = k + n := by
    rw [BitVec.toNat_ofNat, Nat.mod_eq_of_lt (by omega)]
  refine ⟨_, r, w, hw, hlen, fun hlt => ?_, fun hfull => (hnone hfull).2, hinside, ?_, ?_⟩
  · have h := hsome hlt
    refine ⟨fun i hi => h.read fun j hj heq => ?_, fun i hi => ?_, ?_, ?_⟩
    · rw [add_ofNat_add] at heq
      exact ofNat_ne (show i < 2 ^ 64 by omega) (show k + j < 2 ^ 64 by omega) (by omega)
        (add_left_cancel heq)
    · rw [← add_ofNat_add]
      exact h.byte hs hi (by omega) (Nat.min_le_left _ _)
    · rw [← add_ofNat_add]
      exact h.nul (Nat.le_refl _) (Nat.lt_succ_self _) (by omega)
    · rw [hlen]
      omega
  · intro a ha
    rcases Nat.lt_or_eq_of_le hle with hlt | heq
    · obtain ⟨i, hi, rfl⟩ := (hsome hlt).stores a ha
      exact ⟨k + i, by omega, add_ofNat_add dest k i⟩
    · rw [(hnone heq).2] at ha
      exact absurd ha List.not_mem_nil
  · intro a ha
    rcases Nat.lt_or_eq_of_le hle with hlt | heq
    · refine (hsome hlt).read fun j hj => ?_
      rw [add_ofNat_add]
      exact ha (k + j) (by omega)
    · rw [(hnone heq).1]

/-- Ten bytes behind six, with room for four of them. -/
theorem strlcat_correct_short :
    ∃ len r w, strlcat (fun a => a.setWidth 8) 250 1014 11 = .ok (len, r, w) ∧
      len.toNat = 6 + 10 ∧
      (6 < 11 →
        (∀ i, i < 6 →
          w.mem (250 + BitVec.ofNat 64 i) = (250 + BitVec.ofNat 64 i).setWidth 8) ∧
        (∀ i, i < min 10 (11 - 1 - 6) →
          w.mem (250 + BitVec.ofNat 64 (6 + i)) = (1014 + BitVec.ofNat 64 i).setWidth 8) ∧
        w.mem (250 + BitVec.ofNat 64 (6 + min 10 (11 - 1 - 6))) = 0 ∧
        (11 ≤ len.toNat ↔ min 10 (11 - 1 - 6) < 10)) ∧
      (6 = 11 → w.stores = []) ∧
      r.Inside 250 11 ∧
      (∀ a ∈ w.stores, ∃ i, i < 11 ∧ a = 250 + BitVec.ofNat 64 i) ∧
      ∀ a, (∀ i, i < 11 → a ≠ 250 + BitVec.ofNat 64 i) → w.mem a = a.setWidth 8 :=
  strlcat_correct ⟨by decide, by decide⟩ ⟨by decide, by decide, by decide⟩
    (by intro i j hi hj; bv_omega)

end Ytl.CString
