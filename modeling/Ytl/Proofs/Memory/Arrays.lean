/-
A block of memory as an array.

The operations on memory go a word at a time where they can, and the ones on arrays an element at
a time.  On a block that holds the bytes of an array they do the same: `memmove` and `memcpy` copy,
`memset` fills, and `memcmp` compares.  A move, a copy and a filling all write a sequence of bytes
into a range of the block, so one lemma says what becomes of the array.

The block may not wrap, and what a call reads and writes has to lie in it; the distances of a
call are from the beginning of the block, so the same calls make sense on the array.  Bytes
outside of the block are part of the relation, because that nothing else is written is half of
what is to be shown.
-/
import Ytl.Proofs.Algorithm.Copy
import Ytl.Proofs.Algorithm.Linear
import Ytl.Proofs.Memory.Compare
import Ytl.Proofs.Memory.Fill
import Ytl.Proofs.String.Scan

namespace Ytl.Memory

open Algorithm CString

variable {m m₀ : Bytes} {a : Addr} {t t' : Array Byte} {dest src n size : Nat}

/-! ### Calls

Each call is given twice, on the memory and on the array, where it is one of the algorithms on
sequences.
-/

/-- A call on a block, with distances from its beginning for the pointers. -/
inductive BlockCall where
  | memmove (dest src count : Nat)
  | memcpy (dest src count : Nat)
  | memset (s : Nat) (c : Int) (count : Nat)

namespace BlockCall

/-- The call on the memory, with the block at `a`. -/
def onMemory (a : Addr) (m : Bytes) : BlockCall → Except Fault Bytes
  | .memmove dest src count => do
      let (_, c) ← Memory.memmove m (a + BitVec.ofNat 64 dest) (a + BitVec.ofNat 64 src) count
      return c.cursor.mem
  | .memcpy dest src count => do
      let (_, c) ← Memory.memcpy m (a + BitVec.ofNat 64 dest) (a + BitVec.ofNat 64 src) count
      return c.cursor.mem
  | .memset s c count => do
      let (_, r) ← Memory.memset m (a + BitVec.ofNat 64 s) c count
      return r.cursor.mem

/-- What it comes to on an array. -/
def onArray (t : Array Byte) : BlockCall → Except Fault (Array Byte)
  | .memmove dest src count | .memcpy dest src count => Algorithm.copy t src dest count
  | .memset s c count => Algorithm.fill t s count (BitVec.ofInt 8 c)

/-- The ranges are in the block, and `memcpy` does not begin to write inside of what it reads. -/
def Inside (size : Nat) : BlockCall → Prop
  | .memmove dest src count => dest + count ≤ size ∧ src + count ≤ size
  | .memcpy dest src count =>
      dest + count ≤ size ∧ src + count ≤ size ∧ (dest ≤ src ∨ src + count ≤ dest)
  | .memset s _ count => s + count ≤ size

end BlockCall

/-! ### What is written

All three calls leave a range with a sequence of bytes in it and everything else as it was.
-/

/-- The array is in memory from `a` on, and elsewhere everything is as in `m₀`. -/
structure Stored (m₀ : Bytes) (a : Addr) (m : Bytes) (t : Array Byte) : Prop where
  bytes : ∀ i, i < t.size → t[i]? = some (m (a + BitVec.ofNat 64 i))
  outside : ∀ x, (∀ i, i < t.size → x ≠ a + BitVec.ofNat 64 i) → m x = m₀ x

namespace Stored

/-- **A range of the array is written over.** -/
theorem written (h : Stored m₀ a m t) (hroom : t.size ≤ 2 ^ 64) (hfit : dest + n ≤ t.size)
    {f : Nat → Byte} (hsize : t'.size = t.size)
    (hin : ∀ j, j < n → t'[dest + j]? = some (f j))
    (hout : ∀ j, j < dest ∨ dest + n ≤ j → t'[j]? = t[j]?) :
    Stored m₀ a (Ytl.written n (a + BitVec.ofNat 64 dest) f m) t' := by
  refine ⟨fun i hi => ?_, fun x hx => ?_⟩
  · rw [hsize] at hi
    by_cases hrange : dest ≤ i ∧ i < dest + n
    · obtain ⟨j, rfl⟩ := Nat.exists_eq_add_of_le hrange.1
      rw [hin j (by omega), ← add_ofNat_add, written_inside (by omega) (by omega)]
    · rw [hout i (by omega), h.bytes i hi, written_outside]
      intro j hj heq
      rw [add_ofNat_add] at heq
      exact ofNat_ne (by omega) (by omega) (by omega) (add_left_cancel heq)
  · rw [hsize] at hx
    rw [written_outside, h.outside x hx]
    intro j hj
    rw [add_ofNat_add]
    exact hx (dest + j) (by omega)

/-- A move is what `copy` does. -/
theorem moved (h : Stored m₀ a m t) (hroom : t.size ≤ 2 ^ 64) (hd : dest + n ≤ t.size)
    (hs : src + n ≤ t.size) :
    ∃ t', copy t src dest n = .ok t' ∧ t'.size = t.size ∧
      Stored m₀ a (Ytl.moved n (a + BitVec.ofNat 64 dest) (a + BitVec.ofNat 64 src) m) t' := by
  obtain ⟨t', ht', hcells⟩ := copy_copied hs hd
  refine ⟨t', ht', hcells.size, ?_⟩
  rw [moved_eq_written]
  refine h.written hroom hd hcells.size (fun j hj => ?_) fun j hj =>
    hcells.outside j fun k _ hk => by omega
  rw [hcells.inside j (Nat.zero_le j) hj, h.bytes _ (by omega), add_ofNat_add]

/-- A filling is what `fill` does. -/
theorem filled (h : Stored m₀ a m t) (hroom : t.size ≤ 2 ^ 64) (hfit : dest + n ≤ t.size)
    (b : Byte) :
    ∃ t', fill t dest n b = .ok t' ∧ t'.size = t.size ∧
      Stored m₀ a (Ytl.filled n (a + BitVec.ofNat 64 dest) b m) t' := by
  obtain ⟨t', ht', hsize, hin, hout⟩ := fillLoop_filled b dest n 0 t (by omega)
  refine ⟨t', ht', hsize,
    h.written (f := fun _ => b) hroom hfit hsize (fun j hj => ?_) fun j hj => ?_⟩
  · exact hin j (Nat.zero_le j) (by omega)
  · exact hout j (by omega)

/-! ### Runs

By induction on the calls, the memory keeps holding the array.
-/

/-- A range inside of a block that does not wrap does not either. -/
theorem noWrap (hroom : a.toNat + size ≤ 2 ^ 64) (hd : dest + n ≤ size) :
    (a + BitVec.ofNat 64 dest).toNat + n ≤ 2 ^ 64 := by
  rw [BitVec.toNat_add, BitVec.toNat_ofNat]
  omega

/-- Nor is what is still to be read on the way up written, if the destination begins outside. -/
theorem safeUp (hroom : a.toNat + size ≤ 2 ^ 64) (hd : dest + n ≤ size) (hs : src + n ≤ size)
    (haway : dest ≤ src ∨ src + n ≤ dest) :
    Cursor.SafeUp n ⟨m, a + BitVec.ofNat 64 dest, a + BitVec.ofNat 64 src⟩ := by
  show (a + BitVec.ofNat 64 src - (a + BitVec.ofNat 64 dest)).toNat + n ≤ 2 ^ 64
  rw [add_sub_add_left_eq_sub, BitVec.toNat_sub, BitVec.toNat_ofNat, BitVec.toNat_ofNat]
  omega

theorem step (h : Stored m₀ a m t) (hroom : a.toNat + t.size ≤ 2 ^ 64) {call : BlockCall}
    (hin : call.Inside t.size) :
    ∃ m' t', call.onMemory a m = .ok m' ∧ call.onArray t = .ok t' ∧ t'.size = t.size ∧
      Stored m₀ a m' t' := by
  cases call with
  | memmove dest src count =>
      obtain ⟨c, hc, hmem, -⟩ := memmove_moved m (a + BitVec.ofNat 64 dest)
        (a + BitVec.ofNat 64 src) count (noWrap hroom hin.1) (noWrap hroom hin.2)
      obtain ⟨t', ht', hsize, hstored⟩ := h.moved (by omega) hin.1 hin.2
      rw [← hmem] at hstored
      exact ⟨_, t', by rw [BlockCall.onMemory, hc]; rfl, ht', hsize, hstored⟩
  | memcpy dest src count =>
      obtain ⟨c, hc, hwent, -⟩ := run_went Cursor.way_up Cursor.byteUp_rose Cursor.wordUp_rose
        (fun d => -d) (c := ⟨⟨m, a + BitVec.ofNat 64 dest, a + BitVec.ofNat 64 src⟩, count, []⟩)
        (safeUp hroom hin.1 hin.2.1 hin.2.2) (fun p hp => absurd hp List.not_mem_nil)
      obtain ⟨t', ht', hsize, hstored⟩ := h.moved (by omega) hin.1 hin.2.1
      have hmem := hwent.mem
      dsimp only at hmem
      rw [← hmem] at hstored
      refine ⟨_, t', ?_, ht', hsize, hstored⟩
      rw [BlockCall.onMemory, memcpy, runShort_eq, hc]
      rfl
  | memset s c count =>
      have hfit : s + count ≤ t.size := hin
      obtain ⟨r, hr, hmem, -⟩ := memset_filled m (a + BitVec.ofNat 64 s) c count (by omega)
      obtain ⟨t', ht', hsize, hstored⟩ := h.filled (by omega) hfit (BitVec.ofInt 8 c)
      rw [← hmem] at hstored
      exact ⟨_, t', by rw [BlockCall.onMemory, hr]; rfl, ht', hsize, hstored⟩

theorem run :
    ∀ (calls : List BlockCall) (m : Bytes) (t : Array Byte), Stored m₀ a m t →
      a.toNat + t.size ≤ 2 ^ 64 → (∀ call ∈ calls, call.Inside t.size) →
      ∃ m' t', calls.foldlM (BlockCall.onMemory a) m = .ok m' ∧
        calls.foldlM BlockCall.onArray t = .ok t' ∧ t'.size = t.size ∧ Stored m₀ a m' t' := by
  intro calls
  induction calls with
  | nil =>
      intro m t h _ _
      exact ⟨m, t, rfl, rfl, rfl, h⟩
  | cons call rest ih =>
      intro m t h hroom hin
      rw [List.forall_mem_cons] at hin
      obtain ⟨m', t', hm', ht', hsize, h'⟩ := h.step hroom hin.1
      rw [← hsize] at hroom hin
      obtain ⟨m'', t'', hm'', ht'', hsize', h''⟩ := ih m' t' h' hroom hin.2
      refine ⟨m'', t'', ?_, ?_, hsize'.trans hsize, h''⟩
      · rw [List.foldlM_cons, hm']
        exact hm''
      · rw [List.foldlM_cons, ht']
        exact ht''

/-! ### Comparing

Comparing writes nothing, so it is not a step of a run but a question at its end.
-/

/-- A part of the array is what is in memory there. -/
theorem extract_getElem? (h : Stored m₀ a m t) (hfit : dest + n ≤ t.size) {i : Nat} (hi : i < n) :
    (t.extract dest (dest + n)).toList[i]? =
      some (m (a + BitVec.ofNat 64 dest + BitVec.ofNat 64 i)) := by
  rw [Array.getElem?_toList, Array.getElem?_extract, if_pos (by omega), h.bytes _ (by omega),
    add_ofNat_add]

theorem length_extract (hfit : dest + n ≤ t.size) :
    (t.extract dest (dest + n)).toList.length = n := by
  rw [Array.length_toList, Array.size_extract]
  omega

theorem memcmp_orders (h : Stored m₀ a m t) {cs ct count : Nat} (hcs : cs + count ≤ t.size)
    (hct : ct + count ≤ t.size) :
    ∃ v, memcmp m (a + BitVec.ofNat 64 cs) (a + BitVec.ofNat 64 ct) count = .ok v ∧
      Orders v (t.extract cs (cs + count)).toList (t.extract ct (ct + count)).toList := by
  obtain ⟨v, hv, hcompares⟩ :=
    memcmp_compares m (a + BitVec.ofNat 64 cs) (a + BitVec.ofNat 64 ct) count
  refine ⟨v, hv, hcompares.orders (fun i hi => ?_) (fun i hi => ?_) (fun i hi => ?_) fun hsame =>
    List.ext_getElem? fun i => ?_⟩
  · rw [h.extract_getElem? hcs hi, h.extract_getElem? hct hi]
    exact Int.ofNat_lt
  · rw [h.extract_getElem? hcs hi, h.extract_getElem? hct hi, Option.some_inj]
    exact letters_eq_iff
  · rw [h.extract_getElem? hcs hi, h.extract_getElem? hct hi]
    exact Int.ofNat_lt
  · by_cases hi : i < count
    · exact hsame i hi
    · rw [List.getElem?_eq_none (by rw [length_extract hcs]; omega),
        List.getElem?_eq_none (by rw [length_extract hct]; omega)]

end Stored

/--
**A block of memory is an array of bytes.**  Any run of `memmove`, `memcpy` and `memset` in a block
that does not wrap returns and leaves the array that `copy` and `fill` make of the one that was
there, and no byte outside of the block has changed, if no `memcpy` begins to write inside of what
it reads.  Of any two parts `memcmp` then says what `equal` and `lexicographical_compare` do.
-/
theorem block_refines_array (m : Bytes) (a : Addr) (t : Array Byte) (h : Stored m a m t)
    (hroom : a.toNat + t.size ≤ 2 ^ 64) (calls : List BlockCall)
    (hin : ∀ call ∈ calls, call.Inside t.size) :
    ∃ m' t', calls.foldlM (BlockCall.onMemory a) m = .ok m' ∧
      calls.foldlM BlockCall.onArray t = .ok t' ∧ t'.size = t.size ∧
      (∀ i, i < t.size → t'[i]? = some (m' (a + BitVec.ofNat 64 i))) ∧
      (∀ x, (∀ i, i < t.size → x ≠ a + BitVec.ofNat 64 i) → m' x = m x) ∧
      ∀ cs ct count, cs + count ≤ t.size → ct + count ≤ t.size →
        ∃ v, memcmp m' (a + BitVec.ofNat 64 cs) (a + BitVec.ofNat 64 ct) count = .ok v ∧
          equal (t'.extract cs (cs + count)) (t'.extract ct (ct + count)) count =
            .ok (decide (v = 0)) ∧
          lexicographicalCompare (t'.extract cs (cs + count)) count
            (t'.extract ct (ct + count)) count = .ok (decide (v < 0)) := by
  obtain ⟨m', t', hm', ht', hsize, h'⟩ := Stored.run calls m t h hroom hin
  refine ⟨m', t', hm', ht', hsize, fun i hi => h'.bytes i (by omega), fun x hx => ?_,
    fun cs ct count hcs hct => ?_⟩
  · rw [← hsize] at hx
    exact h'.outside x hx
  · rw [← hsize] at hcs hct
    obtain ⟨v, hv, horders⟩ := h'.memcmp_orders hcs hct
    have hcslen := Stored.length_extract hcs
    have hctlen := Stored.length_extract hct
    refine ⟨v, hv, ?_, ?_⟩
    · rw [equal_eq (by rw [← Array.length_toList]; omega) (by rw [← Array.length_toList]; omega),
        List.take_of_length_le hcslen.le, List.take_of_length_le hctlen.le,
        decide_eq_decide.mpr horders.same]
    · have hless := lexicographicalCompare_lists (t'.extract cs (cs + count)).toList
        (t'.extract ct (ct + count)).toList count
      rw [hcslen, hctlen, Nat.min_self, Array.toArray_toList, Array.toArray_toList,
        List.take_of_length_le hcslen.le, List.take_of_length_le hctlen.le] at hless
      rw [hless, decide_eq_decide.mpr horders.less]

/-- Five bytes: four go up by one, the last two are filled, and two of them go to the front. -/
theorem block_refines_array_five :
    ∃ m' t', [.memmove 1 0 4, .memset 3 (-1) 2, .memcpy 0 2 2].foldlM
        (BlockCall.onMemory 100) (fun x => x.setWidth 8) = .ok m' ∧
      [.memmove 1 0 4, .memset 3 (-1) 2, .memcpy 0 2 2].foldlM BlockCall.onArray
        #[100, 101, 102, 103, 104] = .ok t' ∧ t'.size = 5 ∧
      (∀ i, i < 5 → t'[i]? = some (m' (100 + BitVec.ofNat 64 i))) ∧
      (∀ x : Addr, (∀ i, i < 5 → x ≠ 100 + BitVec.ofNat 64 i) → m' x = x.setWidth 8) ∧
      ∀ cs ct count, cs + count ≤ 5 → ct + count ≤ 5 →
        ∃ v, memcmp m' (100 + BitVec.ofNat 64 cs) (100 + BitVec.ofNat 64 ct) count = .ok v ∧
          equal (t'.extract cs (cs + count)) (t'.extract ct (ct + count)) count =
            .ok (decide (v = 0)) ∧
          lexicographicalCompare (t'.extract cs (cs + count)) count
            (t'.extract ct (ct + count)) count = .ok (decide (v < 0)) :=
  block_refines_array (fun x => x.setWidth 8) 100 #[100, 101, 102, 103, 104]
    ⟨by decide, fun _ _ => rfl⟩ (by decide) [.memmove 1 0 4, .memset 3 (-1) 2, .memcpy 0 2 2] (by
      simp only [List.forall_mem_cons, List.not_mem_nil, false_implies, implies_true, and_true]
      exact ⟨⟨by decide, by decide⟩, show 3 + 2 ≤ 5 by decide, by decide, by decide, by decide⟩)

end Ytl.Memory
