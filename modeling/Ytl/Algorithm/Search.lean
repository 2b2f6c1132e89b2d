/-
Searching: `algorithm/include/search.inl`.

The three searches walk down the implicit tree on the positions 1 to `n`, in which the
children of `k` are `2 * k` and `2 * k + 1`.  They differ in the test that sends the
walk to the right, and in what they do with the place it ends at.

`__builtin_ctz` takes an `unsigned int`, so the upper half of its argument is dropped;
for 0 its result is undefined, and `atZero` stands for whatever it is then.
-/
import Ytl.Algorithm.Heap

namespace Ytl.Algorithm

/-- `__builtin_ctz` -/
def ctz (atZero : Nat) (v : BitVec 32) : Nat :=
  ((List.range 32).find? fun i => v.getLsbD i).getD atZero

/-- `k >>= __builtin_ctz(~k)` -/
def strip (atZero k : Nat) : Nat := k >>> ctz atZero ((~~~BitVec.ofNat 64 k).setWidth 32)

/-- `2 * k + (1 & -right)` for a `size_t`. -/
def child64 (k : Nat) (right : Bool) : Nat := (2 * k + right.toNat) % 2 ^ 64

section Walk

variable {α : Type}

def walkLoop (t : Array α) (n : Nat) (right : α → Bool) : Nat → Nat → Except Fault Nat
  | 0, _ => throw .noReturn
  | fuel + 1, k => do
      if k ≤ n / 2 then
        let a ← read t k
        walkLoop t n right fuel (child64 k (right a))
      else
        return k

/-- The loop and the last step after it; the position gets larger in every round. -/
def walk (t : Array α) (n : Nat) (right : α → Bool) : Except Fault Nat := do
  let k ← walkLoop t n right (n + 1) 1
  if k ≤ n then
    let a ← read t k
    return child64 k (right a)
  else
    return child64 k false

end Walk

/-! ### One element after the other -/

section Linear

variable {α : Type} [DecidableEq α]

/-- `for (size_t i = 0; i < n; ++i)`, from `i` on, with the rounds that are left. -/
def findLoop (t : Array α) (value : α) : Nat → Nat → Except Fault Nat
  | 0, i => return i
  | left + 1, i => do
      if (← read t i) = value then
        return i
      findLoop t value left (i + 1)

/-- The position that `&t[i]` points to. -/
def find (t : Array α) (n : Nat) (value : α) : Except Fault Nat := findLoop t value n 0

def countLoop (t : Array α) (value : α) : Nat → Nat → Nat → Except Fault Nat
  | 0, _, count => return count
  | left + 1, i, count => do
      let a ← read t i
      countLoop t value left (i + 1) (count + (decide (a = value)).toNat)

def count (t : Array α) (n : Nat) (value : α) : Except Fault Nat := countLoop t value n 0 0

def equalLoop (first1 first2 : Array α) : Nat → Nat → Except Fault Bool
  | 0, _ => return true
  | left + 1, i => do
      if ¬ (← read first1 i) = (← read first2 i) then
        return false
      equalLoop first1 first2 left (i + 1)

def equal (first1 first2 : Array α) (n : Nat) : Except Fault Bool := equalLoop first1 first2 n 0

end Linear

variable {α : Type} [LinearOrder α]

def lowerBound (atZero : Nat) (t : Array α) (n : Nat) (x : α) : Except Fault α := do
  let k ← walk t n fun a => a < x
  let k := strip atZero k
  read t (if k < n then k else pred64 n)

def upperBound (atZero : Nat) (t : Array α) (n : Nat) (x : α) : Except Fault α := do
  let k ← walk t n fun a => a ≤ x
  read t (strip atZero k)

def binarySearch (atZero : Nat) (t : Array α) (n : Nat) (x : α) : Except Fault Bool := do
  let k ← walk t n fun a => a ≤ x
  let a ← read t (strip atZero k)
  return a = x

end Ytl.Algorithm
