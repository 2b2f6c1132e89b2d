/-
Sums and differences: `algorithm/include/numeric.inl`.

A pointer is a position in an array, and the two of `adjacent_difference` are positions in one.
-/
import Ytl.Algorithm.Sequence

namespace Ytl.Algorithm

variable {α : Type}

/-- `for (size_t i = 0; i < n; ++i)`, from `i` on, with the rounds that are left. -/
def accumulateLoop [Add α] (t : Array α) (off : Nat) : Nat → Nat → α → Except Fault α
  | 0, _, init => return init
  | left + 1, i, init => do
      let a ← read t (off + i)
      accumulateLoop t off left (i + 1) (init + a)

def accumulate [Add α] (t : Array α) (off n : Nat) (init : α) : Except Fault α :=
  accumulateLoop t off n 0 init

/-- `result[i] = t[i] - t[i - 1]` -/
def differenceCell [Sub α] (off result i : Nat) (t : Array α) : Except Fault (Array α) := do
  let a ← read t (off + i)
  let b ← read t (off + (i - 1))
  write t (result + i) (a - b)

/-- `for (size_t i = 1; i < n; ++i)`, from `i` on. -/
def differenceLoop [Sub α] (off result : Nat) : Nat → Nat → Array α → Except Fault (Array α)
  | 0, _, t => return t
  | left + 1, i, t => do
      let t ← differenceCell off result i t
      differenceLoop off result left (i + 1) t

def adjacentDifference [Sub α] (t : Array α) (off result n : Nat) : Except Fault (Array α) := do
  if n = 0 then
    return t
  let t ← copyCell off result 0 t
  differenceLoop off result (n - 1) 1 t

end Ytl.Algorithm
