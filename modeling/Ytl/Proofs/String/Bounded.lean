/-
The writers with a bound.

What they leave in memory is the same sequence each time, the first bytes of the string and
NULs behind them; the functions differ in how much of it they write.  A cell may be written
twice, the second time with what it holds.

That sequence is a function on positions, so writing it is said once, as a number of cells
that hold their terms of it, with a record of the stores.  Each function is then a matter of
how far it writes, and what is left in memory is read off at the end.
-/
import Ytl.Proofs.String.Copy
import Ytl.String.Bounded

namespace Ytl.CString

open Memory

variable {m : Bytes} {d src : Addr} {f : Nat → Byte} {n k i : Nat} {w : Writer}

/-- The first `c` bytes from `src` on, and NULs behind them. -/
def cut (m : Bytes) (src : Addr) (c : Nat) (i : Nat) : Byte :=
  if i < c then m (src + BitVec.ofNat 64 i) else 0

/-- The first `k` cells from `d` on have been written with `f`, and no other cell. -/
structure Holds (m : Bytes) (d : Addr) (f : Nat → Byte) (k : Nat) (w : Writer) : Prop where
  mem : w.mem = written k d f m
  stores : ∀ a ∈ w.stores, ∃ i, i < k ∧ a = d + BitVec.ofNat 64 i

namespace Holds

theorem start (m : Bytes) (d a src : Addr) (f : Nat → Byte) : Holds m d f 0 ⟨m, a, src, []⟩ :=
  ⟨(written_zero d f m).symm, fun _ ha => absurd ha List.not_mem_nil⟩

/-- One of the cells is written again, or the next one for the first time. -/
theorem put (h : Holds m d f k w) (hi : i ≤ k) (hlt : i < 2 ^ 64)
    (hd : w.d = d + BitVec.ofNat 64 i) : Holds m d f (max k (i + 1)) (w.put (f i)) := by
  refine ⟨?_, fun a ha => ?_⟩
  · funext a
    show (if a = w.d then f i else w.mem a) = _
    rw [h.mem, hd]
    rcases Nat.lt_or_eq_of_le hi with hold | rfl
    · rw [Nat.max_eq_left hold]
      by_cases ha : a = d + BitVec.ofNat 64 i
      · rw [if_pos ha, ha, written_inside hold hlt]
      · rw [if_neg ha]
    · rw [Nat.max_eq_right (Nat.le_succ i), written_succ hlt]
  · rcases List.mem_append.mp ha with hold | hnew
    · obtain ⟨j, hj, heq⟩ := h.stores a hold
      exact ⟨j, Nat.lt_of_lt_of_le hj (Nat.le_max_left _ _), heq⟩
    · rw [List.mem_singleton.mp hnew]
      exact ⟨i, Nat.le_max_right _ _, hd⟩

theorem put_next (h : Holds m d f k w) (hlt : k < 2 ^ 64) (hd : w.d = d + BitVec.ofNat 64 k) :
    Holds m d f (k + 1) (w.put (f k)) := by
  have hput := h.put (Nat.le_refl k) hlt hd
  rwa [Nat.max_eq_right (Nat.le_succ k)] at hput

theorem put_again (h : Holds m d f (k + 1) w) (hlt : k < 2 ^ 64)
    (hd : w.d = d + BitVec.ofNat 64 k) : Holds m d f (k + 1) (w.put (f k)) := by
  have hput := h.put (Nat.le_succ k) hlt hd
  rwa [Nat.max_self] at hput

theorem nextD (h : Holds m d f k w) : Holds m d f k w.nextD := ⟨h.mem, h.stores⟩

theorem nextS (h : Holds m d f k w) : Holds m d f k w.nextS := ⟨h.mem, h.stores⟩

/-- What lies outside of the cells is still there. -/
theorem read (h : Holds m d f k w) {a : Addr} (ha : ∀ j, j < k → a ≠ d + BitVec.ofNat 64 j) :
    w.mem a = m a := by
  rw [h.mem]
  exact written_outside ha

theorem source (h : Holds m d f k w) {a : Addr} (hs : w.s = a)
    (ha : ∀ j, j < k → a ≠ d + BitVec.ofNat 64 j) : w.mem w.s = m a := by
  rw [hs]
  exact h.read ha

end Holds

/-! ### Copying up to a bound

The two loops differ in whether the pointers go on behind the NUL that is copied.
-/

section Copy

variable {count : Nat} (hs : IsString m src n)
  (hapart : ∀ i j, i ≤ n → j < n → j < count → src + BitVec.ofNat 64 i ≠ d + BitVec.ofNat 64 j)
  (hf : ∀ i, i < n → i < count → f i = m (src + BitVec.ofNat 64 i)) (hnul : n < count → f n = 0)

include hs hapart hf hnul

/-- The loop stops at the bound, or behind the NUL without going on from it. -/
theorem copy_holds :
    ∀ (left i : Nat) (w : Writer), i + left = count → i ≤ n → Holds m d f i w →
      w.d = d + BitVec.ofNat 64 i → w.s = src + BitVec.ofNat 64 i →
      ∃ w', Writer.copy left w = (count - min n count, w') ∧
        w'.d = d + BitVec.ofNat 64 (min n count) ∧
        (n < count ∧ Holds m d f (n + 1) w' ∨ count ≤ n ∧ Holds m d f count w') := by
  intro left
  induction left with
  | zero =>
      intro i w hcount hi h hd hsrc
      rw [Nat.add_zero] at hcount
      rw [hcount] at hi h hd
      refine ⟨w, ?_, ?_, Or.inr ⟨hi, h⟩⟩
      · rw [Nat.min_eq_right hi, Nat.sub_self]
        rfl
      · rw [Nat.min_eq_right hi]
        exact hd
  | succ left ih =>
      intro i w hcount hi h hd hsrc
      have hlt : i < 2 ^ 64 := Nat.lt_of_le_of_lt hi hs.lt_allAddrs
      have hb : w.mem w.s = m (src + BitVec.ofNat 64 i) :=
        h.source hsrc fun j hj => hapart i j hi (by omega) (by omega)
      rw [Writer.copy, hb]
      rcases Nat.lt_or_eq_of_le hi with hin | rfl
      · rw [if_pos (hs.before i hin), ← hf i hin (by omega)]
        exact ih (i + 1) _ (by omega) hin (h.put_next hlt hd).nextD.nextS (next_place hd)
          (next_place hsrc)
      · rw [hs.nul, if_neg (not_not_intro rfl), ← hnul (by omega)]
        refine ⟨w.put (f i), ?_, ?_, Or.inl ⟨by omega, h.put_next hlt hd⟩⟩
        · rw [Nat.min_eq_left (by omega), show count - i = left + 1 by omega]
        · rw [Nat.min_eq_left (by omega)]
          exact hd

/-- The loop goes on from the NUL before it stops. -/
theorem strlcpyCopy_holds :
    ∀ (left i : Nat) (w : Writer), i + left = count → i ≤ n → Holds m d f i w →
      w.d = d + BitVec.ofNat 64 i → w.s = src + BitVec.ofNat 64 i →
      ∃ left' w', strlcpyCopy left w = (left', w') ∧
        (n < count ∧ left' ≠ 0 ∧ w'.s = src + BitVec.ofNat 64 (n + 1) ∧ Holds m d f (n + 1) w' ∨
          count ≤ n ∧ left' = 0 ∧ w'.d = d + BitVec.ofNat 64 count ∧
            w'.s = src + BitVec.ofNat 64 count ∧ Holds m d f count w') := by
  intro left
  induction left with
  | zero =>
      intro i w hcount hi h hd hsrc
      rw [Nat.add_zero] at hcount
      rw [hcount] at hi h hd hsrc
      exact ⟨0, w, rfl, Or.inr ⟨hi, rfl, hd, hsrc, h⟩⟩
  | succ left ih =>
      intro i w hcount hi h hd hsrc
      have hlt : i < 2 ^ 64 := Nat.lt_of_le_of_lt hi hs.lt_allAddrs
      have hb : w.mem w.s = m (src + BitVec.ofNat 64 i) :=
        h.source hsrc fun j hj => hapart i j hi (by omega) (by omega)
      have hnext : ((w.put (f i)).nextD.nextS).s = src + BitVec.ofNat 64 (i + 1) :=
        next_place hsrc
      rw [strlcpyCopy, hb]
      rcases Nat.lt_or_eq_of_le hi with hin | rfl
      · rw [if_neg (hs.before i hin), ← hf i hin (by omega)]
        exact ih (i + 1) _ (by omega) hin (h.put_next hlt hd).nextD.nextS (next_place hd) hnext
      · rw [hs.nul, if_pos rfl, ← hnul (by omega)]
        exact ⟨left + 1, _, rfl, Or.inl ⟨by omega, Nat.succ_ne_zero left, hnext,
          (h.put_next hlt hd).nextD.nextS⟩⟩

end Copy

/-! ### `strncpy` and `strncat`

`strncpy` goes on with NULs until its count is used up, and `strncat` puts one.
-/

/-- A string and cells that are apart from it have room among the addresses. -/
theorem room_of_apart {count : Nat} (hs : IsString m src n)
    (hapart : ∀ i j, i ≤ n → j < count → src + BitVec.ofNat 64 i ≠ d + BitVec.ofNat 64 j) :
    count + n < 2 ^ 64 := by
  have hn : n < 2 ^ 64 := hs.lt_allAddrs
  have hlt := (src - d).isLt
  by_contra hc
  have hfar : count ≤ (src - d).toNat := by
    by_contra hnear
    apply hapart 0 (src - d).toNat (Nat.zero_le n) (by omega)
    rw [add_ofNat_toNat_sub]
    exact BitVec.add_zero src
  apply hapart (2 ^ 64 - (src - d).toNat) 0 (by omega) (by omega)
  rw [add_ofNat_back]
  exact (BitVec.add_zero d).symm

theorem pad_holds {count : Nat} (hcount : count ≤ 2 ^ 64) (hf : ∀ i, n ≤ i → f i = 0) :
    ∀ (left i : Nat) (w : Writer), i + left = count → n ≤ i → Holds m d f i w →
      w.d = d + BitVec.ofNat 64 i → Holds m d f count (strncpyPad left w) := by
  intro left
  induction left with
  | zero =>
      intro i w hi _ h _
      rw [Nat.add_zero] at hi
      rw [← hi]
      exact h
  | succ left ih =>
      intro i w hi hni h hd
      rw [strncpyPad, ← hf i hni]
      exact ih (i + 1) _ (by omega) (by omega) (h.put_next (by omega) hd).nextD (next_place hd)

theorem cut_of_lt {c : Nat} (hi : i < c) : cut m src c i = m (src + BitVec.ofNat 64 i) := if_pos hi

theorem cut_of_le {c : Nat} (hi : c ≤ i) : cut m src c i = 0 := if_neg (Nat.not_lt.mpr hi)

/-- **`strncpy` fills all of its cells.** -/
theorem strncpy_holds {count : Nat} (hs : IsString m src n)
    (hapart : ∀ i j, i ≤ n → j < count → src + BitVec.ofNat 64 i ≠ d + BitVec.ofNat 64 j) :
    ∃ w, strncpy m d src count = (d, w) ∧ Holds m d (cut m src n) count w := by
  have hroom := room_of_apart hs hapart
  have hpad : ∀ i, n ≤ i → cut m src n i = 0 := fun i hi => cut_of_le hi
  have hfirst : ∀ i, i < n → i < count → cut m src n i = m (src + BitVec.ofNat 64 i) :=
    fun i hi _ => cut_of_lt hi
  obtain ⟨w, hw, hd, hend⟩ := copy_holds hs (fun i j hi _ hj => hapart i j hi hj) hfirst
    (fun _ => hpad n (Nat.le_refl n)) count 0 ⟨m, d, src, []⟩ (Nat.zero_add count)
    (Nat.zero_le n) (Holds.start m d d src _) (BitVec.add_zero d).symm (BitVec.add_zero src).symm
  refine ⟨strncpyPad (count - min n count) w, ?_, ?_⟩
  · rw [strncpy, hw]
  · rcases hend with ⟨hlt, h⟩ | ⟨hle, h⟩
    · -- the NUL is written once more
      rw [Nat.min_eq_left (Nat.le_of_lt hlt)] at hd ⊢
      rw [show count - n = (count - (n + 1)) + 1 by omega, strncpyPad, ← hpad n (Nat.le_refl n)]
      exact pad_holds (by omega) hpad _ (n + 1) _ (by omega) (Nat.le_succ n)
        (h.put_again (by omega) hd).nextD (next_place hd)
    · rw [Nat.min_eq_right hle, Nat.sub_self]
      exact h

/-- **`strncat` appends what fits, and a NUL.** -/
theorem strncat_holds {dest : Addr} {nd count : Nat} (hd : IsString m dest nd)
    (hs : IsString m src n)
    (hapart : ∀ i j, i ≤ n → j ≤ nd + min n count →
      src + BitVec.ofNat 64 i ≠ dest + BitVec.ofNat 64 j) :
    ∃ w, strncat m dest src count = .ok (dest, w) ∧
      Holds m (dest + BitVec.ofNat 64 nd) (cut m src (min n count)) (min n count + 1) w := by
  have hfirst : ∀ i, i < n → i < count →
      cut m src (min n count) i = m (src + BitVec.ofNat 64 i) :=
    fun i hi hi' => cut_of_lt (Nat.lt_min.mpr ⟨hi, hi'⟩)
  have hnul : ∀ i, min n count ≤ i → cut m src (min n count) i = 0 := fun i hi => cut_of_le hi
  have happart' : ∀ i j, i ≤ n → j < n → j < count →
      src + BitVec.ofNat 64 i ≠ dest + BitVec.ofNat 64 nd + BitVec.ofNat 64 j := by
    intro i j hi hj hj'
    rw [add_ofNat_add]
    exact hapart i (nd + j) hi (by omega)
  obtain ⟨w, hw, hend, h⟩ := copy_holds hs happart' hfirst
    (fun _ => hnul n (Nat.min_le_left n count)) count 0
    ⟨m, dest + BitVec.ofNat 64 nd, src, []⟩ (Nat.zero_add count) (Nat.zero_le n)
    (Holds.start m _ _ src _) (BitVec.add_zero _).symm (BitVec.add_zero src).symm
  have hlt : min n count < 2 ^ 64 := Nat.lt_of_le_of_lt (Nat.min_le_left n count) hs.lt_allAddrs
  refine ⟨w.put 0, ?_, ?_⟩
  · rw [strncat, toEnd_returns hd, bind_of_ok, hw]
    rfl
  · rw [← hnul (min n count) (Nat.le_refl _)]
    generalize hc : min n count = c at hend hlt h
    rcases h with ⟨hlong, h⟩ | ⟨hshort, h⟩
    · obtain rfl : c = n := by omega
      exact h.put_again hlt hend
    · obtain rfl : c = count := by omega
      exact h.put_next hlt hend

/-! ### `strlcpy`

After the copy the source is scanned to its end for its length.
-/

theorem pastEnd_returns (hs : IsString m src n) (hi : i ≤ n) :
    loop (pastEnd m) allAddrs (src + BitVec.ofNat 64 i) =
      .ok (src + BitVec.ofNat 64 (n + 1)) := by
  have hloop : ∃ s, loop (pastEnd m) allAddrs (src + BitVec.ofNat 64 i) = .ok s ∧
      s = src + BitVec.ofNat 64 (n + 1) := by
    refine hs.loop_returns (I := fun i s => i ≤ n ∧ s = src + BitVec.ofNat 64 i)
      (fun i s h => h.1) ⟨hi, rfl⟩ ?_
    rintro i s ⟨hi, rfl⟩
    unfold pastEnd
    rcases Nat.lt_or_eq_of_le hi with hlt | rfl
    · exact Or.inl ⟨_, i + 1, if_neg (hs.before i hlt), Nat.lt_succ_self i, hlt,
        add_ofNat_add src i 1⟩
    · exact Or.inr ⟨_, if_pos hs.nul, add_ofNat_add src i 1⟩
  obtain ⟨s, hs', rfl⟩ := hloop
  exact hs'

theorem distance_past (a : Addr) (n : Nat) :
    a + BitVec.ofNat 64 (n + 1) - a - 1 = BitVec.ofNat 64 n := by
  rw [add_ofNat_sub, BitVec.ofNat_add]
  exact BitVec.add_sub_cancel _ _

/-- **`strlcpy` writes what fits, and a NUL.** -/
theorem strlcpy_holds {size : Nat} (hs : IsString m src n)
    (hapart : ∀ i j, i ≤ n → j ≤ n → j < size →
      src + BitVec.ofNat 64 i ≠ d + BitVec.ofNat 64 j) :
    ∃ w, strlcpy m d src size = .ok (BitVec.ofNat 64 n, w) ∧
      (size = 0 → w = ⟨m, d, src, []⟩) ∧
      (size ≠ 0 → Holds m d (cut m src (min n (size - 1))) (min n (size - 1) + 1) w) := by
  have hsrc : src = src + BitVec.ofNat 64 0 := (BitVec.add_zero src).symm
  by_cases hzero : size = 0
  · subst hzero
    refine ⟨⟨m, d, src, []⟩, ?_, fun _ => rfl, fun hc => absurd rfl hc⟩
    have hend := pastEnd_returns hs (Nat.zero_le n)
    rw [← hsrc] at hend
    show (loop (pastEnd m) allAddrs src >>= _) = _
    rw [hend, bind_of_ok, distance_past]
    rfl
  · have hrun : (if size ≠ 0 ∧ size - 1 ≠ 0 then strlcpyCopy (size - 1) ⟨m, d, src, []⟩
        else (size - 1, ⟨m, d, src, []⟩)) = strlcpyCopy (size - 1) ⟨m, d, src, []⟩ := by
      by_cases hone : size - 1 = 0
      · rw [if_neg (fun hc => hc.2 hone), hone]
        rfl
      · rw [if_pos ⟨hzero, hone⟩]
    have hnul : ∀ i, min n (size - 1) ≤ i → cut m src (min n (size - 1)) i = 0 :=
      fun i hi => cut_of_le hi
    have hfirst : ∀ i, i < n → i < size - 1 →
        cut m src (min n (size - 1)) i = m (src + BitVec.ofNat 64 i) :=
      fun i hi hi' => cut_of_lt (Nat.lt_min.mpr ⟨hi, hi'⟩)
    obtain ⟨left, w, hw, hend⟩ := strlcpyCopy_holds hs
      (fun i j hi hj hj' => hapart i j hi (Nat.le_of_lt hj) (by omega)) hfirst
      (fun _ => hnul n (Nat.min_le_left _ _)) (size - 1) 0 ⟨m, d, src, []⟩ (Nat.zero_add _)
      (Nat.zero_le n) (Holds.start m d d src _) (BitVec.add_zero d).symm hsrc
    have hn : n < 2 ^ 64 := hs.lt_allAddrs
    unfold strlcpy
    dsimp only
    rw [hrun, hw]
    dsimp only
    rcases hend with ⟨hlong, hleft, hpast, h⟩ | ⟨hshort, hleft, hd, hplace, h⟩
    · refine ⟨w, ?_, fun hc => absurd hc hzero, fun _ => ?_⟩
      · rw [if_neg hleft, hpast, distance_past]
        rfl
      · rw [Nat.min_eq_left (Nat.le_of_lt hlong)] at h ⊢
        exact h
    · have hmin : min n (size - 1) = size - 1 := Nat.min_eq_right hshort
      have hput : Holds m d (cut m src (min n (size - 1))) (size - 1 + 1) (w.put 0) := by
        have hlast := h.put_next (by omega) hd
        rwa [hnul (size - 1) (Nat.le_of_eq hmin)] at hlast
      refine ⟨w.put 0, ?_, fun hc => absurd hc hzero, fun _ => by rwa [hmin] at hput ⊢⟩
      have hstring : IsString (w.put 0).mem src n := by
        refine hs.congr fun i hi => hput.read fun j hj => ?_
        exact hapart i j hi (by omega) (by omega)
      rw [if_pos hleft, if_pos hzero]
      show (loop (pastEnd (w.put 0).mem) allAddrs w.s >>= _) = _
      rw [hplace, pastEnd_returns hstring hshort, bind_of_ok, distance_past]
      rfl

/-! ### What they leave in memory

A cell below the cut has the byte of the string, any other one that was written a NUL.
-/

namespace Holds

variable {c : Nat}

/-- A byte of the string. -/
theorem byte (h : Holds m d (cut m src c) k w) (hs : IsString m src n) (hi : i < c) (hik : i < k)
    (hc : c ≤ n) : w.mem (d + BitVec.ofNat 64 i) = m (src + BitVec.ofNat 64 i) := by
  have hn : n < 2 ^ 64 := hs.lt_allAddrs
  rw [h.mem, written_inside hik (by omega), cut_of_lt hi]

/-- A NUL behind them. -/
theorem nul (h : Holds m d (cut m src c) k w) (hi : c ≤ i) (hik : i < k) (hlt : i < 2 ^ 64) :
    w.mem (d + BitVec.ofNat 64 i) = 0 := by
  rw [h.mem, written_inside hik hlt, cut_of_le hi]

end Holds

/--
**`strlcpy`.**  It returns the length of `src`.  If the size is not 0, the destination holds
the bytes that fit and a NUL, and no other byte has changed; if it is 0, nothing is written.
-/
theorem strlcpy_correct {dest : Addr} {size : Nat} (hs : IsString m src n)
    (hapart : ∀ i j, i ≤ n → j ≤ n → j < size →
      src + BitVec.ofNat 64 i ≠ dest + BitVec.ofNat 64 j) :
    ∃ len w, strlcpy m dest src size = .ok (len, w) ∧ len.toNat = n ∧
      (0 < size →
        (∀ i, i < min n (size - 1) →
          w.mem (dest + BitVec.ofNat 64 i) = m (src + BitVec.ofNat 64 i)) ∧
        w.mem (dest + BitVec.ofNat 64 (min n (size - 1))) = 0) ∧
      (∀ a, (0 < size → ∀ i, i ≤ min n (size - 1) → a ≠ dest + BitVec.ofNat 64 i) →
        w.mem a = m a) ∧
      (size = 0 → w.stores = []) := by
  obtain ⟨w, hw, hnone, hsome⟩ := strlcpy_holds hs hapart
  have hn : n < 2 ^ 64 := hs.lt_allAddrs
  refine ⟨BitVec.ofNat 64 n, w, hw, ?_, fun hpos => ⟨fun i hi => ?_, ?_⟩, fun a ha => ?_,
    fun hzero => ?_⟩
  · rw [BitVec.toNat_ofNat, Nat.mod_eq_of_lt hn]
  · exact (hsome (by omega)).byte hs hi (by omega) (Nat.min_le_left _ _)
  · exact (hsome (by omega)).nul (Nat.le_refl _) (Nat.lt_succ_self _) (by omega)
  · by_cases hzero : size = 0
    · rw [hnone hzero]
    · exact (hsome hzero).read fun j hj => ha (by omega) j (by omega)
  · rw [hnone hzero]

/-- A string of ten bytes, and room for six. -/
theorem strlcpy_correct_short :
    ∃ len w, strlcpy (fun a => a.setWidth 8) 100 1014 6 = .ok (len, w) ∧ len.toNat = 10 ∧
      (0 < 6 →
        (∀ i, i < min 10 (6 - 1) →
          w.mem (100 + BitVec.ofNat 64 i) = (1014 + BitVec.ofNat 64 i).setWidth 8) ∧
        w.mem (100 + BitVec.ofNat 64 (min 10 (6 - 1))) = 0) ∧
      (∀ a, (0 < 6 → ∀ i, i ≤ min 10 (6 - 1) → a ≠ 100 + BitVec.ofNat 64 i) →
        w.mem a = a.setWidth 8) ∧
      (6 = 0 → w.stores = []) :=
  strlcpy_correct ⟨by decide, by decide⟩ (by intro i j hi hj hj'; bv_omega)

/--
**`strncpy` and `strncat`.**  `strncpy` changes the cells it is given, which become the first
bytes of `src`, as many as fit, with NULs behind them.  `strncat` appends these bytes and
one NUL and changes nothing else; if all of `src` fits, that is what `strcat` does.
-/
theorem bounded_writers (hs : IsString m src n) (count : Nat) :
    (∀ dest,
      (∀ i j, i ≤ n → j < count → src + BitVec.ofNat 64 i ≠ dest + BitVec.ofNat 64 j) →
      ∃ w, strncpy m dest src count = (dest, w) ∧
        (∀ i, i < min n count →
          w.mem (dest + BitVec.ofNat 64 i) = m (src + BitVec.ofNat 64 i)) ∧
        (∀ i, min n count ≤ i → i < count → w.mem (dest + BitVec.ofNat 64 i) = 0) ∧
        ∀ a, (∀ i, i < count → a ≠ dest + BitVec.ofNat 64 i) → w.mem a = m a) ∧
    ∀ dest nd, IsString m dest nd →
      (∀ i j, i ≤ n → j ≤ nd + min n count →
        src + BitVec.ofNat 64 i ≠ dest + BitVec.ofNat 64 j) →
      ∃ w, strncat m dest src count = .ok (dest, w) ∧
        (∀ i, i < min n count →
          w.mem (dest + BitVec.ofNat 64 (nd + i)) = m (src + BitVec.ofNat 64 i)) ∧
        w.mem (dest + BitVec.ofNat 64 (nd + min n count)) = 0 ∧
        (∀ a, (∀ i, i ≤ min n count → a ≠ dest + BitVec.ofNat 64 (nd + i)) → w.mem a = m a) ∧
        (n ≤ count → strcat m dest src = .ok (dest, w.mem)) := by
  have hn : n < 2 ^ 64 := hs.lt_allAddrs
  refine ⟨fun dest hapart => ?_, fun dest nd hd hapart => ?_⟩
  · obtain ⟨w, hw, h⟩ := strncpy_holds hs hapart
    have hroom := room_of_apart hs hapart
    refine ⟨w, hw, fun i hi => ?_, fun i hi hlt => ?_, fun a ha => h.read ha⟩
    · exact h.byte hs (by omega) (by omega) (Nat.le_refl n)
    · exact h.nul (by omega) hlt (by omega)
  · obtain ⟨w, hw, h⟩ := strncat_holds hd hs hapart
    refine ⟨w, hw, fun i hi => ?_, ?_, fun a ha => ?_, fun hall => ?_⟩
    · rw [← add_ofNat_add]
      exact h.byte hs hi (by omega) (Nat.min_le_left _ _)
    · rw [← add_ofNat_add]
      exact h.nul (Nat.le_refl _) (Nat.lt_succ_self _) (by omega)
    · refine h.read fun j hj => ?_
      rw [add_ofNat_add]
      exact ha j (by omega)
    · rw [Nat.min_eq_left hall] at h hapart
      rw [strcat_moved hd hs (safeUp_of_apart hapart), h.mem, moved_eq_written]
      congr 2
      refine written_congr fun i hi => ?_
      rcases Nat.lt_succ_iff_lt_or_eq.mp hi with hlt | rfl
      · rw [cut_of_lt hlt]
      · rw [cut_of_le (Nat.le_refl i), hs.nul]

/-- Ten bytes into twelve cells, and behind a string of six. -/
theorem bounded_writers_twelve :
    (∃ w, strncpy (fun a => a.setWidth 8) 100 1014 12 = (100, w) ∧
      (∀ i, i < min 10 12 →
        w.mem (100 + BitVec.ofNat 64 i) = (1014 + BitVec.ofNat 64 i).setWidth 8) ∧
      (∀ i, min 10 12 ≤ i → i < 12 → w.mem (100 + BitVec.ofNat 64 i) = 0) ∧
      ∀ a, (∀ i, i < 12 → a ≠ 100 + BitVec.ofNat 64 i) → w.mem a = a.setWidth 8) ∧
    ∃ w, strncat (fun a => a.setWidth 8) 250 1014 12 = .ok (250, w) ∧
      (∀ i, i < min 10 12 →
        w.mem (250 + BitVec.ofNat 64 (6 + i)) = (1014 + BitVec.ofNat 64 i).setWidth 8) ∧
      w.mem (250 + BitVec.ofNat 64 (6 + min 10 12)) = 0 ∧
      (∀ a, (∀ i, i ≤ min 10 12 → a ≠ 250 + BitVec.ofNat 64 (6 + i)) → w.mem a = a.setWidth 8) ∧
      (10 ≤ 12 → strcat (fun a => a.setWidth 8) 250 1014 = .ok (250, w.mem)) := by
  have hs : IsString (fun a => a.setWidth 8) 1014 10 := ⟨by decide, by decide⟩
  obtain ⟨hcopy, hcat⟩ := bounded_writers hs 12
  exact ⟨hcopy 100 (by intro i j hi hj; bv_omega),
    hcat 250 6 ⟨by decide, by decide⟩ (by intro i j hi hj; bv_omega)⟩

end Ytl.CString
