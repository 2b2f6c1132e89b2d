/-
Moving values: `algorithm/include/sequence.inl`.

The two pointers of `copy` are positions in one array, and so is a pointer into the range of
`fill` or `reverse` or out of `rotate`.  The loops have the number of rounds that are left as an
argument.
-/
import Ytl.Algorithm.Heap

namespace Ytl.Algorithm

variable {α : Type}

/-- `t[i] = a`. -/
def write (t : Array α) (i : Nat) (a : α) : Except Fault (Array α) :=
  if h : i < t.size then .ok (t.set i a) else .error .outOfBounds

/-- `dest[i] = src[i]` -/
def copyCell (src dest i : Nat) (t : Array α) : Except Fault (Array α) := do
  let a ← read t (src + i)
  write t (dest + i) a

/-- `for (size_t i = n; i > 0; --i)` -/
def copyDown (src dest : Nat) : Nat → Array α → Except Fault (Array α)
  | 0, t => return t
  | i + 1, t => do
      let t ← copyCell src dest i t
      copyDown src dest i t

/-- `for (size_t i = 0; i < n; ++i)`, from `i` on. -/
def copyUp (src dest : Nat) : Nat → Nat → Array α → Except Fault (Array α)
  | 0, _, t => return t
  | left + 1, i, t => do
      let t ← copyCell src dest i t
      copyUp src dest left (i + 1) t

def copy (t : Array α) (src dest n : Nat) : Except Fault (Array α) :=
  if dest > src ∧ dest < src + n then copyDown src dest n t else copyUp src dest n 0 t

/-- `for (size_t i = 0; i < n; ++i)`, from `i` on, with `t` at the position `off`. -/
def fillLoop (off : Nat) (value : α) : Nat → Nat → Array α → Except Fault (Array α)
  | 0, _, t => return t
  | left + 1, i, t => do
      let t ← write t (off + i) value
      fillLoop off value left (i + 1) t

def fill (t : Array α) (off n : Nat) (value : α) : Except Fault (Array α) :=
  fillLoop off value n 0 t

/-- `for (size_t i = 0; i < n / 2; ++i)`, from `i` on, with `t` at the position `off`. -/
def reverseLoop (off n : Nat) : Nat → Nat → Array α → Except Fault (Array α)
  | 0, _, t => return t
  | left + 1, i, t => do
      let t ← swap t (off + i) (off + (n - 1 - i))
      reverseLoop off n left (i + 1) t

def reverse (t : Array α) (off n : Nat) : Except Fault (Array α) :=
  reverseLoop off n (n / 2) 0 t

/-- `n - m` for two `size_t`. -/
def sub64 (n m : Nat) : Nat := if m ≤ n then n - m else n + 2 ^ 64 - m

/-- With the position that is returned. -/
def rotate (t : Array α) (n mid : Nat) : Except Fault (Nat × Array α) := do
  if mid = 0 ∨ mid = n then
    return (mid, t)
  let t ← reverse t 0 mid
  let t ← reverse t mid (sub64 n mid)
  let t ← reverse t 0 n
  return (mid, t)

end Ytl.Algorithm
