/-
The heap functions: `algorithm/include/heap.inl`.

A `T *` is an array, and reading or swapping outside it is a fault.  Positions are
natural numbers; the one place where the source's unsigned subtraction wraps is
`push_heap` of an empty range.  The `while` loops get a bound on the number of
rounds, and using it up counts as not returning.
-/
import Mathlib.Algebra.Order.Ring.Int
import Mathlib.Order.Lattice
import Ytl.Base.Fault

namespace Ytl.Algorithm

/-! ### Cells -/

section Cells

variable {α : Type}

/-- `t[i]`. -/
def read (t : Array α) (i : Nat) : Except Fault α :=
  match t[i]? with
  | some a => .ok a
  | none => .error .outOfBounds

/-- `swap(t[i], t[j])`. -/
def swap (t : Array α) (i j : Nat) : Except Fault (Array α) :=
  if h : i < t.size ∧ j < t.size then .ok (t.swap i j h.1 h.2) else .error .outOfBounds

/-- `n - 1` for a `size_t`. -/
def pred64 (n : Nat) : Nat := if n = 0 then 2 ^ 64 - 1 else n - 1

end Cells

variable {α : Type} [LinearOrder α]

/-! ### Sifting -/

def siftUpLoop : Nat → Array α → Nat → Except Fault (Array α)
  | 0, t, pos => if 0 < pos then throw .noReturn else return t
  | fuel + 1, t, pos => do
      if 0 < pos then
        let parent := (pos - 1) / 2
        if (← read t parent) ≥ (← read t pos) then
          return t
        let t ← swap t parent pos
        siftUpLoop fuel t parent
      else
        return t

/-- The position gets smaller in every round. -/
def siftUp (t : Array α) (pos : Nat) : Except Fault (Array α) := siftUpLoop pos t pos

/-- The test of one child against the largest so far. -/
def larger (t : Array α) (n maxIdx child : Nat) : Except Fault Nat := do
  if child < n then
    if (← read t child) > (← read t maxIdx) then
      return child
  return maxIdx

def siftDownLoop : Nat → Array α → Nat → Nat → Except Fault (Array α)
  | 0, _, _, _ => throw .noReturn
  | fuel + 1, t, pos, n => do
      let maxIdx ← larger t n pos (2 * pos + 1)
      let maxIdx ← larger t n maxIdx (2 * pos + 2)
      if maxIdx = pos then
        return t
      let t ← swap t pos maxIdx
      siftDownLoop fuel t maxIdx n

/-- The position gets larger in every round and stays below `n`. -/
def siftDown (t : Array α) (pos n : Nat) : Except Fault (Array α) :=
  siftDownLoop (n + 1) t pos n

/-! ### The heap functions -/

/-- The loop of `make_heap`, with `i` still to do. -/
def makeHeapLoop (n : Nat) : Nat → Array α → Except Fault (Array α)
  | 0, t => return t
  | i + 1, t => do
      let t ← siftDown t i n
      makeHeapLoop n i t

def makeHeap (t : Array α) (n : Nat) : Except Fault (Array α) := makeHeapLoop n (n / 2) t

def pushHeap (t : Array α) (n : Nat) : Except Fault (Array α) := siftUp t (pred64 n)

def popHeap (t : Array α) (n : Nat) : Except Fault (Array α) := do
  if n ≤ 1 then
    return t
  let t ← swap t 0 (n - 1)
  siftDown t 0 (n - 1)

/-- The loop of `sort_heap`, with the first `i` elements still a heap. -/
def sortHeapLoop : Nat → Array α → Except Fault (Array α)
  | 0, t => return t
  | i + 1, t => do
      if i + 1 > 1 then
        let t ← swap t 0 i
        let t ← siftDown t 0 i
        sortHeapLoop i t
      else
        return t

def sortHeap (t : Array α) (n : Nat) : Except Fault (Array α) := sortHeapLoop n t

end Ytl.Algorithm
