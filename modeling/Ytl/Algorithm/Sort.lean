/-
Sorting and selecting: `algorithm/include/sort.inl`.

The recursion of `quick_sort` works on a part of the array, which the source passes
as a pointer into it; here it is the whole array with the offset of the part.

The file has a `sift_down` of its own, with an inclusive bound; it is `Sort.siftDown`
here.  An array has fewer than 2^63 elements, so the children of a position inside
one are computed without wrapping; what can wrap are the bounds `m - 1`, `p - 1` and
`right - left + 1`.
-/
import Ytl.Algorithm.Heap

namespace Ytl.Algorithm

variable {α : Type} [LinearOrder α]

/-- The loop of `partition`: `remaining` rounds are left, the next at `j`. -/
def partitionLoop (off : Nat) (pivot : α) :
    Nat → Nat → Nat → Array α → Except Fault (Nat × Array α)
  | 0, _, i, t => return (i, t)
  | remaining + 1, j, i, t => do
      if (← read t (off + j)) ≤ pivot then
        let t ← swap t (off + i) (off + j)
        partitionLoop off pivot remaining (j + 1) (i + 1) t
      else
        partitionLoop off pivot remaining (j + 1) i t

def partition (t : Array α) (off n : Nat) : Except Fault (Nat × Array α) := do
  let pivot ← read t (off + pred64 n)
  let (i, t) ← partitionLoop off pivot (pred64 n) 0 0 t
  let t ← swap t (off + i) (off + pred64 n)
  return (i, t)

/-- The first argument bounds the depth of the recursion. -/
def quickSortLoop : Nat → Array α → Nat → Nat → Except Fault (Array α)
  | 0, _, _, _ => throw .noReturn
  | fuel + 1, t, off, n => do
      if n ≤ 1 then
        return t
      let (p, t) ← partition t off n
      let t ← quickSortLoop fuel t off p
      quickSortLoop fuel t (off + p + 1) (n - p - 1)

/-- Both parts are shorter than the whole. -/
def quickSort (t : Array α) (off n : Nat) : Except Fault (Array α) :=
  quickSortLoop (n + 1) t off n

def sort (t : Array α) (num : Nat) : Except Fault (Array α) := quickSort t 0 num

/-! ### `partial_sort` -/

/-- The test of the second child against the larger of the root and the first. -/
def Sort.rightChild (t : Array α) (last swapIdx child : Nat) : Except Fault Nat := do
  if child + 1 ≤ last then
    if (← read t swapIdx) < (← read t (child + 1)) then
      return child + 1
  return swapIdx

/-- The loop of `sift_down`; `last` is the largest position that belongs to the heap. -/
def Sort.siftDownLoop : Nat → Array α → Nat → Nat → Except Fault (Array α)
  | 0, _, _, _ => throw .noReturn
  | fuel + 1, t, root, last => do
      if root * 2 + 1 ≤ last then
        let child := root * 2 + 1
        let swapIdx := if (← read t root) < (← read t child) then child else root
        let swapIdx ← Sort.rightChild t last swapIdx child
        if swapIdx = root then
          return t
        let t ← swap t root swapIdx
        Sort.siftDownLoop fuel t swapIdx last
      else
        return t

/-- The root gets larger in every round and stays at or below `last`. -/
def Sort.siftDown (t : Array α) (start last : Nat) : Except Fault (Array α) :=
  Sort.siftDownLoop (last + 2) t start last

/-- The first loop of `partial_sort`, with the positions below `i` still to do.  The
source counts down through 0 and stops at the wrapped value. -/
def heapifyLoop (last : Nat) : Nat → Array α → Except Fault (Array α)
  | 0, t => return t
  | i + 1, t => do
      let t ← Sort.siftDown t i last
      heapifyLoop last i t

/-- The second loop: `remaining` rounds are left, the next at `i`. -/
def scanLoop (last : Nat) : Nat → Nat → Array α → Except Fault (Array α)
  | 0, _, t => return t
  | remaining + 1, i, t => do
      if (← read t i) < (← read t 0) then
        let t ← swap t 0 i
        let t ← Sort.siftDown t 0 last
        scanLoop last remaining (i + 1) t
      else
        scanLoop last remaining (i + 1) t

/-- The third loop, at `i`. -/
def unwindLoop : Nat → Array α → Except Fault (Array α)
  | 0, t => return t
  | i + 1, t => do
      let t ← swap t 0 (i + 1)
      let t ← Sort.siftDown t 0 i
      unwindLoop i t

def partialSort (t : Array α) (num m : Nat) : Except Fault (Array α) := do
  if m ≥ num then
    sort t num
  else
    let t ← heapifyLoop (pred64 m) (pred64 m / 2 + 1) t
    let t ← scanLoop (pred64 m) (num - m) m t
    unwindLoop (pred64 m) t

/-! ### `nth_element` -/

/-- `right - left + 1` for `size_t`s. -/
def span64 (left right : Nat) : Nat :=
  if left ≤ right then right - left + 1 else (right + 2 ^ 64 + 1 - left) % 2 ^ 64

/-- The array and the window that is still to be searched. -/
structure Window (α : Type) where
  cells : Array α
  left : Nat
  right : Nat

/-- One round of `nth_element`: the array when the pivot has come to rest at `nth`,
otherwise the next window. -/
def nthStep (nth : Nat) (w : Window α) : Except Fault (Array α ⊕ Window α) := do
  let (p, t) ← partition w.cells w.left (span64 w.left w.right)
  let p := p + w.left
  if p = nth then
    return .inl t
  if p < nth then
    return .inr ⟨t, p + 1, w.right⟩
  else
    return .inr ⟨t, w.left, pred64 p⟩

def nthLoop (nth : Nat) : Nat → Window α → Except Fault (Array α)
  | 0, _ => throw .noReturn
  | fuel + 1, w => do
      match ← nthStep nth w with
      | .inl t => return t
      | .inr w => nthLoop nth fuel w

/-- The window gets smaller in every round. -/
def nthElement (t : Array α) (num nth : Nat) : Except Fault (Array α) :=
  if nth ≥ num then
    return t
  else
    nthLoop nth num ⟨t, 0, pred64 num⟩

end Ytl.Algorithm
