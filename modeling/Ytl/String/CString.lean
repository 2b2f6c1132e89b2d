/-
Strings that end with a NUL: `string/src/string.cpp`.

What is loaded through a pointer is kept with it, in the order in which the source
evaluates; a word that is loaded has eight bytes, whatever of them is looked at.  `char`s
are compared as bytes, since only equality and the difference of `unsigned char`s matter.

A loop over memory that has not ended after as many rounds as there are addresses is one
that does not end.
-/
import Ytl.Base.Loop
import Ytl.Memory.MemOp

namespace Ytl.CString

open Memory

/-! ### Pointers -/

/-- One load of the processor. -/
structure Load where
  addr : Addr
  size : Nat

/-- A pointer, and what has been loaded through it. -/
structure Reader where
  p : Addr
  loads : List Load

def Reader.load (r : Reader) (size : Nat) : Reader := { r with loads := r.loads ++ [⟨r.p, size⟩] }

def Reader.next (r : Reader) (k : Addr) : Reader := { r with p := r.p + k }

def allAddrs : Nat := 2 ^ 64

/-! ### A zero in a word -/

def ones : BitVec 64 := ~~~0 / 0xFF

def highs : BitVec 64 := ones * 0x80

def hasZero (x : BitVec 64) : Bool := (x - ones) &&& ~~~x &&& highs ≠ 0

/-! ### Length -/

/-- The byte loop up to an aligned address; the `if` around it asks for what the loop asks
for.  A result is what `strlen` returns. -/
def strlenHead (m : Bytes) (s : Addr) (r : Reader) : Reader ⊕ Option Addr × Reader :=
  if r.p &&& 7 ≠ 0 then
    let r := r.load 1
    if m r.p = 0 then .inr (some (r.p - s), r) else .inl (r.next 1)
  else
    .inr (none, r)

/-- `while (!has_zero(*ls)) ls++` -/
def strlenWord (m : Bytes) (r : Reader) : Reader ⊕ Reader :=
  let r := r.load 8
  if hasZero (loadWord m r.p) then .inr r else .inl (r.next 8)

/-- `while (*str) str++` -/
def strlenByte (m : Bytes) (r : Reader) : Reader ⊕ Reader :=
  let r := r.load 1
  if m r.p = 0 then .inr r else .inl (r.next 1)

def strlen (m : Bytes) (s : Addr) : Except Fault (Addr × Reader) := do
  let (result, r) ← loop (strlenHead m s) allAddrs ⟨s, []⟩
  match result with
  | some n => return (n, r)
  | none =>
      let r ← loop (strlenWord m) allAddrs r
      let r ← loop (strlenByte m) allAddrs r
      return (r.p - s, r)

/-- `while (*es && maxlen)` -/
def strnlenLoop (m : Bytes) : Nat → Reader → Reader
  | 0, r => r.load 1
  | maxlen + 1, r => if m r.p = 0 then r.load 1 else strnlenLoop m maxlen ((r.load 1).next 1)

def strnlen (m : Bytes) (s : Addr) (maxlen : Nat) : Addr × Reader :=
  let r := strnlenLoop m maxlen ⟨s, []⟩
  (r.p - s, r)

/-! ### Copying -/

/-- The byte loop of `strcpy` up to an aligned source, with whether `strcpy` returns. -/
def strcpyHead (c : Cursor) : Cursor ⊕ Bool × Cursor :=
  if c.s &&& 7 ≠ 0 then
    if c.mem c.s = 0 then
      .inr (true, { c with mem := storeByte c.mem c.d (c.mem c.s) })
    else
      .inl c.byteUp
  else
    .inr (false, c)

/-- `while (!has_zero(*lsrc)) *ldest++ = *lsrc++` -/
def strcpyWord (c : Cursor) : Cursor ⊕ Cursor :=
  if hasZero (loadWord c.mem c.s) then .inr c else .inl c.wordUp

/-- `while ((*dest++ = *src++) != '\0') {}` -/
def strcpyByte (c : Cursor) : Cursor ⊕ Cursor :=
  if c.mem c.s = 0 then .inr c.byteUp else .inl c.byteUp

/-- The pointer that is returned, and the memory. -/
def strcpy (m : Bytes) (dest src : Addr) : Except Fault (Addr × Bytes) := do
  let (done, c) ← loop strcpyHead allAddrs ⟨m, dest, src⟩
  if done then
    return (dest, c.mem)
  let c ← loop strcpyWord allAddrs c
  let c ← loop strcpyByte allAddrs c
  return (dest, c.mem)

/-- `while (*tmp) tmp++` -/
def toEnd (m : Bytes) (tmp : Addr) : Addr ⊕ Addr := if m tmp = 0 then .inr tmp else .inl (tmp + 1)

def strcat (m : Bytes) (dest src : Addr) : Except Fault (Addr × Bytes) := do
  let tmp ← loop (toEnd m) allAddrs dest
  let c ← loop strcpyByte allAddrs ⟨m, tmp, src⟩
  return (dest, c.mem)

/-! ### Comparing -/

/-- The two pointers of a comparison. -/
structure Pair where
  r1 : Reader
  r2 : Reader

namespace Pair

def load1 (p : Pair) (size : Nat) : Pair := { p with r1 := p.r1.load size }

def load2 (p : Pair) (size : Nat) : Pair := { p with r2 := p.r2.load size }

def next (p : Pair) (k : Addr) : Pair := ⟨p.r1.next k, p.r2.next k⟩

end Pair

/-- The difference of the bytes at the two pointers, which are loaded for it. -/
def difference (m : Bytes) (p : Pair) : Int × Pair :=
  (byteDiff (m p.r1.p) (m p.r2.p), (p.load1 1).load2 1)

/-- The byte loop of `strcmp` up to an aligned `s1`.  A result is what `strcmp` returns. -/
def strcmpHead (m : Bytes) (p : Pair) : Pair ⊕ (Int × Pair) ⊕ Pair :=
  if p.r1.p &&& 7 ≠ 0 then
    let p := (p.load1 1).load2 1
    if m p.r1.p ≠ m p.r2.p then
      .inr (.inl (difference m p))
    else
      let p := p.load1 1
      if m p.r1.p = 0 then .inr (.inl (0, p)) else .inl (p.next 1)
  else
    .inr (.inr p)

/-- `while (!has_zero(*ls1) && *ls1 == *ls2)` -/
def strcmpWord (m : Bytes) (p : Pair) : Pair ⊕ Pair :=
  let p := p.load1 8
  if hasZero (loadWord m p.r1.p) then
    .inr p
  else
    let p := (p.load1 8).load2 8
    if loadWord m p.r1.p = loadWord m p.r2.p then .inl (p.next 8) else .inr p

/-- `while (*s1 && *s1 == *s2)` -/
def strcmpByte (m : Bytes) (p : Pair) : Pair ⊕ Pair :=
  let p := p.load1 1
  if m p.r1.p = 0 then
    .inr p
  else
    let p := (p.load1 1).load2 1
    if m p.r1.p = m p.r2.p then .inl (p.next 1) else .inr p

def strcmp (m : Bytes) (s1 s2 : Addr) : Except Fault (Int × Pair) := do
  match ← loop (strcmpHead m) allAddrs ⟨⟨s1, []⟩, ⟨s2, []⟩⟩ with
  | .inl result => return result
  | .inr p =>
      let p ← loop (strcmpWord m) allAddrs p
      let p ← loop (strcmpByte m) allAddrs p
      return difference m p

/-- `while (count--)` -/
def strncmpLoop (m : Bytes) : Nat → Pair → Int × Pair
  | 0, p => (0, p)
  | count + 1, p =>
      let c1 := m p.r1.p
      let c2 := m p.r2.p
      let p := ((p.load1 1).load2 1).next 1
      if c1 ≠ c2 then
        (byteDiff c1 c2, p)
      else if c1 = 0 then
        (0, p)
      else
        strncmpLoop m count p

def strncmp (m : Bytes) (s1 s2 : Addr) (count : Nat) : Int × Pair :=
  strncmpLoop m count ⟨⟨s1, []⟩, ⟨s2, []⟩⟩

/-- `static_cast<unsigned char>(*s | 0x20)`: only the low byte of the `int` is left. -/
def foldByte (b : Byte) : Byte := b ||| 0x20

def strcasecmpLoop (m : Bytes) (p : Pair) : Pair ⊕ Int × Pair :=
  let c1 := foldByte (m p.r1.p)
  let c2 := foldByte (m p.r2.p)
  let p := ((p.load1 1).load2 1).next 1
  if c1 ≠ c2 ∨ c1 = 0 then .inr (byteDiff c1 c2, p) else .inl p

def strcasecmp (m : Bytes) (s1 s2 : Addr) : Except Fault (Int × Pair) :=
  loop (strcasecmpLoop m) allAddrs ⟨⟨s1, []⟩, ⟨s2, []⟩⟩

/-- The `do` loop, in which `len` is not 0. -/
def strncasecmpLoop (m : Bytes) : Nat → Pair → Int × Pair
  | 0, p => (0, p)
  | len + 1, p =>
      let c1 := foldByte (m p.r1.p)
      let c2 := foldByte (m p.r2.p)
      let p := ((p.load1 1).load2 1).next 1
      if len = 0 ∨ c1 ≠ c2 then (byteDiff c1 c2, p) else strncasecmpLoop m len p

def strncasecmp (m : Bytes) (s1 s2 : Addr) (len : Nat) : Int × Pair :=
  let p : Pair := ⟨⟨s1, []⟩, ⟨s2, []⟩⟩
  if len = 0 then (0, p) else strncasecmpLoop m len p

end Ytl.CString
