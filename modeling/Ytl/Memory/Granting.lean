/-
Slots that are granted and given back, when `compare_exchange_weak` may fail.

`find_free_bits` tries each word at most once, so the failures of one call are told by the
words they happen at.  A word that could not be exchanged is left for the next one, and a call
for which all exchanges fail returns as if there were no free slot.

A slot is outstanding from the call that returns its index until its bit is set again.
-/
import Ytl.Base.Lending
import Ytl.Memory.Pool

namespace Ytl.Memory.Allocator

/-! ### Exchanges that fail -/

/-- The words at which an exchange fails although the word is the expected one. -/
abbrev Spurious := Fin bitmapWords → Bool

/-- `words[i].compare_exchange_weak(expected, desired)`; what it puts into `expected` when it
fails is not used. -/
def compareExchangeWeak (spurious : Spurious) (bmap : Bitmap) (i : Fin bitmapWords)
    (expected desired : BitVec 64) : Bool × Bitmap :=
  if bmap i = expected ∧ spurious i = false then (true, Function.update bmap i desired)
  else (false, bmap)

/-- Try to take the lowest bit that is set in word `i`. -/
def takeBitWeak (spurious : Spurious) (bmap : Bitmap) (i : Fin bitmapWords) :
    Option Nat × Bitmap :=
  let word := bmap i
  if word ≠ 0 then
    let bit := ctz word
    let blockOffset := i.val * 64 + bit
    match compareExchangeWeak spurious bmap i word (word &&& ~~~((1 : BitVec 64) <<< bit)) with
    | (true, bmap) => (some blockOffset, bmap)
    | (false, bmap) => (none, bmap)
  else (none, bmap)

/-- One round of `find_free_bits`: the words `i` and `i'` after it. -/
def findInPairWeak (spurious : Spurious) (bmap : Bitmap) (alignMask : Nat)
    (i i' : Fin bitmapWords) : Option Nat × Bitmap :=
  if i.val &&& alignMask ≠ 0 then (none, bmap)
  else if bmap i ≠ 0 ∨ bmap i' ≠ 0 then
    match takeBitWeak spurious bmap i with
    | (some idx, bmap) => (some idx, bmap)
    | (none, bmap) => takeBitWeak spurious bmap i'
  else (none, bmap)

/-- `find_free_bits`; none stands for `~0`. -/
def findFreeBitsWeak (spurious : Spurious) (bmap : Bitmap) (size : Nat) : Option Nat × Bitmap :=
  let alignMask := getAlignmentForSize size / bitsPerWord - 1
  match findInPairWeak spurious bmap alignMask 0 1 with
  | (some idx, bmap) => (some idx, bmap)
  | (none, bmap) => findInPairWeak spurious bmap alignMask 2 3

/-! ### Runs on one bitmap -/

/-- A bitmap, the indices that were returned and not yet freed, and what has happened so far: an
index is lent when `find_free_bits` returns it, and given back by `mark_bits_free`. -/
structure SlotUse where
  bmap : Bitmap
  outstanding : List Nat := []
  log : List (Lending.Event Nat) := []

/-- The calls on a bitmap. -/
inductive SlotOp where
  | find (size : Nat) (spurious : Spurious)
  | free (idx size : Nat)

namespace SlotUse

/-- The state after `find_free_bits` has returned. -/
def granted (s : SlotUse) : Option Nat × Bitmap → SlotUse
  | (none, bmap) => { s with bmap := bmap }
  | (some idx, bmap) => ⟨bmap, idx :: s.outstanding, s.log ++ [.lent idx]⟩

def step (s : SlotUse) : SlotOp → Except Trap SlotUse
  | .find size spurious => return s.granted (findFreeBitsWeak spurious s.bmap size)
  | .free idx size => do
      let bmap ← markBitsFree s.bmap idx size
      return ⟨bmap, s.outstanding.erase idx, s.log ++ [.returned idx]⟩

/-- Only outstanding indices are freed, and one word at a time. -/
def Promised (s : SlotUse) : SlotOp → Prop
  | .find _ _ => True
  | .free idx size => idx ∈ s.outstanding ∧ size < 128

end SlotUse

end Ytl.Memory.Allocator
