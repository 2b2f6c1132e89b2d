/-
Comparing values and ranges: `algorithm/include/compare.inl`.

The elements are compared with `<` only.
-/
import Ytl.Algorithm.Heap

namespace Ytl.Algorithm

variable {α : Type} [LT α] [DecidableLT α]

protected def min (a b : α) : α := if b < a then b else a

/-- `for (size_t i = 0; i < n; ++i)`, from `i` on, with the rounds that are left. -/
def lexicographicalCompareLoop (t1 : Array α) (n1 : Nat) (t2 : Array α) (n2 : Nat) :
    Nat → Nat → Except Fault Bool
  | 0, _ => return decide (n1 < n2)
  | left + 1, i => do
      if (← read t1 i) < (← read t2 i) then
        return true
      if (← read t2 i) < (← read t1 i) then
        return false
      lexicographicalCompareLoop t1 n1 t2 n2 left (i + 1)

def lexicographicalCompare (t1 : Array α) (n1 : Nat) (t2 : Array α) (n2 : Nat) :
    Except Fault Bool :=
  lexicographicalCompareLoop t1 n1 t2 n2 (Algorithm.min n1 n2) 0

end Ytl.Algorithm
