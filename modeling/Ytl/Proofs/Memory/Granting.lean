/-
No slot is granted twice.

Whatever exchanges fail, `find_free_bits` either takes one bit that is set, and returns its
index, or leaves the bitmap as it is (`Grants`).  With `mark_bits_free` on outstanding indices,
one word at a time, the bitmap is used as a stock of things that are lent and given back.

A weak exchange may fail without a reason, as often as it likes, and the search then goes on
to the next word.  So a bitmap with free slots may be found to have none.  That is not denied
here; what is shown is that no slot is granted twice on any such run, and that none is lost.
-/
import Ytl.Base.Machine
import Ytl.Memory.Granting
import Ytl.Proofs.Memory.Bitmap

namespace Ytl.Memory.Allocator

variable {bmap : Bitmap} {spurious : Spurious} {i i' : Fin bitmapWords} {idx size : Nat}

/-! ### One call

The search tries one word after the other, and each attempt that fails leaves the bitmap
alone.
-/

/-- The bit that is found is set. -/
theorem ctz_spec {word : BitVec 64} (h : word ≠ 0) :
    ctz word < 64 ∧ word.getLsbD (ctz word) = true := by
  unfold ctz
  cases hfind : (List.range bitsPerWord).find? fun bit => word.getLsbD bit with
  | none =>
      exfalso
      apply h
      ext j hj
      have hzero : word.getLsbD j = false := by
        simpa using List.find?_range_eq_none.mp hfind j hj
      rw [← BitVec.getLsbD_eq_getElem hj, hzero]
      exact (BitVec.getElem_zero hj).symm
  | some bit =>
      obtain ⟨hset, hmem, -⟩ := List.find?_range_eq_some.mp hfind
      exact ⟨List.mem_range.mp hmem, hset⟩

/-- What a call may come to: nothing has changed, or a free slot is taken. -/
inductive Grants (bmap : Bitmap) : Option Nat × Bitmap → Prop
  | kept : Grants bmap (none, bmap)
  | taken (idx : Nat) (b : Bitmap) (hmem : idx ∈ freeSlots bmap)
      (hb : freeSlots b = (freeSlots bmap).erase idx) : Grants bmap (some idx, b)

/-- A second attempt after a first one that has changed nothing. -/
theorem Grants.orElse (next : Bitmap → Option Nat × Bitmap) {r : Option Nat × Bitmap} :
    Grants bmap r → Grants bmap (next bmap) →
      Grants bmap (match r with
        | (some idx, b) => (some idx, b)
        | (none, b) => next b) := by
  intro h hnext
  cases h with
  | kept => exact hnext
  | taken idx b hmem hb => exact .taken idx b hmem hb

theorem takeBitWeak_grants (spurious : Spurious) (bmap : Bitmap) (i : Fin bitmapWords) :
    Grants bmap (takeBitWeak spurious bmap i) := by
  unfold takeBitWeak compareExchangeWeak
  dsimp only
  by_cases hword : bmap i ≠ 0
  · obtain ⟨hlt, hset⟩ := ctz_spec hword
    rw [if_pos hword]
    by_cases hfail : bmap i = bmap i ∧ spurious i = false
    · rw [if_pos hfail]
      refine .taken _ _ ?_ (WordSet.members_clear bmap i hlt)
      rw [WordSet.mem_members]
      exact (WordSet.bit_place bmap i hlt).trans hset
    · rw [if_neg hfail]
      exact .kept
  · rw [if_neg hword]
    exact .kept

theorem findInPairWeak_grants (spurious : Spurious) (bmap : Bitmap) (alignMask : Nat)
    (i i' : Fin bitmapWords) : Grants bmap (findInPairWeak spurious bmap alignMask i i') := by
  unfold findInPairWeak
  by_cases hskip : i.val &&& alignMask ≠ 0
  · rw [if_pos hskip]
    exact .kept
  · rw [if_neg hskip]
    by_cases hzero : bmap i ≠ 0 ∨ bmap i' ≠ 0
    · rw [if_pos hzero]
      exact (takeBitWeak_grants spurious bmap i).orElse (fun b => takeBitWeak spurious b i')
        (takeBitWeak_grants spurious bmap i')
    · rw [if_neg hzero]
      exact .kept

/-- **A call takes one free slot, or changes nothing.** -/
theorem findFreeBitsWeak_grants (spurious : Spurious) (bmap : Bitmap) (size : Nat) :
    Grants bmap (findFreeBitsWeak spurious bmap size) := by
  unfold findFreeBitsWeak
  dsimp only
  generalize getAlignmentForSize size / bitsPerWord - 1 = alignMask
  exact (findInPairWeak_grants spurious bmap alignMask 0 1).orElse
    (fun b => findInPairWeak spurious b alignMask 2 3)
    (findInPairWeak_grants spurious bmap alignMask 2 3)

/-! ### Exchanges that succeed

The model of the allocator elsewhere uses exchanges that do not fail.  That is the case of
this one in which none does.
-/

/-- The result of a call that cannot fail without a reason, with the bitmap it leaves. -/
def leaving (bmap : Bitmap) : Option (Nat × Bitmap) → Option Nat × Bitmap
  | none => (none, bmap)
  | some (idx, b) => (some idx, b)

theorem takeBitWeak_eq (bmap : Bitmap) (i : Fin bitmapWords) :
    takeBitWeak (fun _ => false) bmap i = leaving bmap (takeBit bmap i) := by
  unfold takeBitWeak takeBit compareExchangeWeak
  dsimp only
  by_cases hword : bmap i ≠ 0
  · rw [if_pos hword, if_pos hword, if_pos ⟨rfl, rfl⟩]
    rfl
  · rw [if_neg hword, if_neg hword]
    rfl

theorem findInPairWeak_eq (bmap : Bitmap) (alignMask : Nat) (i i' : Fin bitmapWords) :
    findInPairWeak (fun _ => false) bmap alignMask i i' =
      leaving bmap (findInPair bmap alignMask i i') := by
  unfold findInPairWeak findInPair
  by_cases hskip : i.val &&& alignMask ≠ 0
  · rw [if_pos hskip, if_pos hskip]
    rfl
  · rw [if_neg hskip, if_neg hskip]
    by_cases hzero : bmap i ≠ 0 ∨ bmap i' ≠ 0
    · rw [if_pos hzero, if_pos hzero, takeBitWeak_eq]
      cases htake : takeBit bmap i with
      | none => exact takeBitWeak_eq bmap i'
      | some r => rfl
    · rw [if_neg hzero, if_neg hzero]
      rfl

/-- Without failures, `findFreeBitsWeak` is `findFreeBits`. -/
theorem findFreeBitsWeak_eq (bmap : Bitmap) (size : Nat) :
    findFreeBitsWeak (fun _ => false) bmap size = leaving bmap (findFreeBits bmap size) := by
  unfold findFreeBitsWeak findFreeBits
  dsimp only
  rw [findInPairWeak_eq]
  cases hpair : findInPair bmap (getAlignmentForSize size / bitsPerWord - 1) 0 1 with
  | none => exact findInPairWeak_eq bmap _ 2 3
  | some r => rfl

/-! ### Runs

A bitmap with its outstanding indices is a stock of things that are lent; what is known of any
stock is used by name.
-/

namespace SlotUse

variable {s t : SlotUse}

/-- What is lent and what is not. -/
def lending (s : SlotUse) : Lending.State Nat := ⟨freeSlots s.bmap, s.outstanding, s.log⟩

/-- The runs on a bitmap, from when no index is outstanding. -/
def machine (bmap : Bitmap) : Machine SlotUse SlotOp Trap where
  start s := s = { bmap := bmap }
  admits := Promised
  step := step

theorem find_lends (s : SlotUse) (size : Nat) (spurious : Spurious) :
    Lending.Step s.lending (s.granted (findFreeBitsWeak spurious s.bmap size)).lending := by
  have hgrants := findFreeBitsWeak_grants spurious s.bmap size
  generalize findFreeBitsWeak spurious s.bmap size = r at hgrants ⊢
  cases hgrants with
  | kept => exact .idle
  | taken idx b hmem hb =>
      unfold granted lending
      dsimp only
      rw [hb]
      exact .lend idx hmem

theorem free_gives_back (hidx : idx < 256) (hout : idx ∈ s.outstanding) (hsize : size < 128) :
    ∃ t, s.step (.free idx size) = .ok t ∧ Lending.Step s.lending t.lending := by
  obtain ⟨b, hb, hslots⟩ := updateWords_scalar (sets_bit idx) hidx hsize s.bmap
  rw [← markBitsFree_eq] at hb
  refine ⟨⟨b, s.outstanding.erase idx, s.log ++ [.returned idx]⟩, ?_, ?_⟩
  · unfold step
    dsimp only
    rw [hb]
    rfl
  · unfold lending
    dsimp only
    rw [hslots]
    exact .giveBack idx hout

/-- **One step**: the bitmap is used as a stock. -/
theorem step_lends (h : Lending.OK (freeSlots bmap) s.lending) {op : SlotOp}
    (hop : s.Promised op) : ∃ t, s.step op = .ok t ∧ Lending.Step s.lending t.lending := by
  cases op with
  | find size spurious => exact ⟨_, rfl, s.find_lends size spurious⟩
  | free idx size => exact free_gives_back (WordSet.lt_of_mem (h.mem_stock hop.1)) hop.1 hop.2

theorem lending_of_reachable (h : (machine bmap).Reachable s) :
    Lending.OK (freeSlots bmap) s.lending := by
  refine h.invariant (I := fun s => Lending.OK (freeSlots bmap) s.lending) ?_ ?_
  · rintro s rfl
    exact Lending.OK.initial _
  · intro s op t hok hop hs
    obtain ⟨u, hu, hstep⟩ := step_lends hok hop
    rw [Except.ok.inj (hs.symm.trans hu)]
    exact hok.step hstep

/--
**Slots are granted exclusively.**  For every bitmap, every size and all failures of
`compare_exchange_weak`, an index that `find_free_bits` returns is below 256, its bit was set,
and it is the one bit that is cleared; if it returns none, the bitmap is as it was.  So in every
run of `find_free_bits`, and of `mark_bits_free` for sizes below 128 on outstanding indices, all
calls return, no index is returned twice without being freed in between, and the number of set
bits and outstanding indices together does not change.
-/
theorem grants_exclusive (bmap : Bitmap) :
    (∀ (size : Nat) (spurious : Spurious),
      (∀ idx b, findFreeBitsWeak spurious bmap size = (some idx, b) →
        idx < 256 ∧ idx ∈ freeSlots bmap ∧ freeSlots b = (freeSlots bmap).erase idx) ∧
      ∀ b, findFreeBitsWeak spurious bmap size = (none, b) → b = bmap) ∧
    ∀ s, (machine bmap).Reachable s →
      (∀ op, s.Promised op → ∃ t, s.step op = .ok t) ∧ Lending.NeverTwice s.log ∧
        s.outstanding.Nodup ∧
        (freeSlots s.bmap).card + s.outstanding.length = (freeSlots bmap).card := by
  refine ⟨fun size spurious => ⟨fun idx b h => ?_, fun b h => ?_⟩, fun s hs => ?_⟩
  · have hgrants := findFreeBitsWeak_grants spurious bmap size
    rw [h] at hgrants
    cases hgrants with
    | taken _ _ hmem hb => exact ⟨WordSet.lt_of_mem hmem, hmem, hb⟩
  · have hgrants := findFreeBitsWeak_grants spurious bmap size
    rw [h] at hgrants
    cases hgrants with
    | kept => rfl
  · have hok := lending_of_reachable hs
    refine ⟨fun op hop => ?_, hok.once, hok.nodup, hok.card_add_length⟩
    obtain ⟨t, ht, -⟩ := step_lends hok hop
    exact ⟨t, ht⟩

instance instDecidablePromised (s : SlotUse) : ∀ op, Decidable (s.Promised op)
  | .find _ _ => isTrue trivial
  | .free idx size => inferInstanceAs (Decidable (idx ∈ s.outstanding ∧ size < 128))

instance instDecidableAdmits (bmap : Bitmap) (s : SlotUse) (op : SlotOp) :
    Decidable ((machine bmap).admits s op) := instDecidablePromised s op

/-- The first slots of two words, and an exchange that fails at the first word. -/
theorem grants_exclusive_retry :
    ∃ s, (machine fun i => if i.val < 2 then 1 else 0).Reachable s ∧
      s.log = [.lent 64, .returned 64, .lent 0, .lent 64] ∧ Lending.NeverTwice s.log := by
  obtain ⟨s, hs, hlog⟩ := (machine fun i => if i.val < 2 then 1 else 0).exists_reachable rfl
    [.find 1 fun i => i.val = 0, .free 64 1, .find 1 fun _ => false, .find 1 fun _ => false]
    (fun s => decide (s.log = [.lent 64, .returned 64, .lent 0, .lent 64])) (by decide +kernel)
  exact ⟨s, hs, of_decide_eq_true hlog, ((grants_exclusive _).2 s hs).2.1⟩

end SlotUse

end Ytl.Memory.Allocator
