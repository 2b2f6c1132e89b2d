/-
Searching in strings: `string/src/string.cpp`.

`char` is signed.  A pointer that is returned is `none` when it is null.
-/
import Ytl.String.CString

namespace Ytl.CString

open Memory

/-! ### Characters -/

/-- `while (*s && *s != ch)` -/
def strchrLoop (m : Bytes) (ch : Byte) (s : Addr) : Addr ⊕ Addr :=
  if m s ≠ 0 ∧ (m s).toInt ≠ ch.toNat then .inl (s + 1) else .inr s

def strchr (m : Bytes) (s : Addr) (c : Int) : Except Fault (Option Addr) := do
  let ch : Byte := BitVec.ofInt 8 c
  if ch = 0 then
    let s ← loop (toEnd m) allAddrs s
    return some s
  let s ← loop (strchrLoop m ch) allAddrs s
  return if (m s).toInt = ch.toNat then some s else none

/-- The `do` loop, with `last`. -/
def strrchrLoop (m : Bytes) (c : Int) (x : Addr × Option Addr) :
    Addr × Option Addr ⊕ Option Addr :=
  let (s, last) := x
  let last := if (m s).toInt = (BitVec.ofInt 8 c).toInt then some s else last
  if m s = 0 then .inr last else .inl (s + 1, last)

def strrchr (m : Bytes) (s : Addr) (c : Int) : Except Fault (Option Addr) :=
  loop (strrchrLoop m c) allAddrs (s, none)

def strnchr (m : Bytes) (s : Addr) : Nat → Int → Option Addr
  | 0, _ => none
  | count + 1, c =>
      if (m s).toInt = (BitVec.ofInt 8 c).toInt then some s
      else if m s = 0 then none
      else strnchr m (s + 1) count c

/-! ### Strings -/

/-- The pointers are set anew, and what has been loaded through them is kept. -/
def Pair.seek (p : Pair) (p1 p2 : Addr) : Pair :=
  ⟨{ p.r1 with p := p1 }, { p.r2 with p := p2 }⟩

/-- What was loaded in a call is added. -/
def Pair.called (p q : Pair) : Pair :=
  ⟨{ p.r1 with loads := p.r1.loads ++ q.r1.loads },
    { p.r2 with loads := p.r2.loads ++ q.r2.loads }⟩

/-- `while (len >= l2)`, in which `l2` is not 0. -/
def strnstrLoop (m : Bytes) (l2 : Nat) : Nat → Pair → Option Addr × Pair
  | 0, p => (none, p)
  | len + 1, p =>
      if len + 1 ≥ l2 then
        let (v, q) := strncmp m p.r1.p p.r2.p l2
        let q := p.called q
        if v = 0 then (some p.r1.p, q) else strnstrLoop m l2 len (q.seek (p.r1.p + 1) p.r2.p)
      else
        (none, p)

/-- The first pointer goes through `s1`, the second through `s2`. -/
def strnstr (m : Bytes) (s1 s2 : Addr) (len : Nat) : Except Fault (Option Addr × Pair) := do
  let (l2, r2) ← strlen m s2
  let p : Pair := ⟨⟨s1, []⟩, ⟨s2, r2.loads⟩⟩
  if l2 = 0 then
    return (some s1, p)
  return strnstrLoop m l2.toNat len p

/-- `while (*n && *h == *n)`, with `h` and `n` in this order. -/
def matchLoop (m : Bytes) (p : Pair) : Pair ⊕ Pair :=
  let p := p.load2 1
  if m p.r2.p = 0 then
    .inr p
  else
    let p := (p.load1 1).load2 1
    if m p.r1.p = m p.r2.p then .inl (p.next 1) else .inr p

/-- `while (*haystack)`, with `haystack` and `needle` in this order. -/
def strstrLoop (m : Bytes) (first : Byte) (p : Pair) : Except Fault (Pair ⊕ Option Addr × Pair) :=
  let haystack := p.r1.p
  let needle := p.r2.p
  let p := p.load1 1
  if m haystack = 0 then
    return .inr (none, p)
  else
    let p := p.load1 1
    if m haystack = first then do
      let p ← loop (matchLoop m) allAddrs (p.seek (haystack + 1) (needle + 1))
      let p := p.load2 1
      if m p.r2.p = 0 then
        return .inr (some haystack, p)
      return .inl (p.seek (haystack + 1) needle)
    else
      return .inl (p.seek (haystack + 1) needle)

def strstr (m : Bytes) (haystack needle : Addr) : Except Fault (Option Addr × Pair) :=
  let p : Pair := ⟨⟨haystack, []⟩, ⟨needle, []⟩⟩
  let first := m needle
  let p := p.load2 1
  if first = 0 then return (some haystack, p)
  else loopM (strstrLoop m first) allAddrs p

end Ytl.CString
