/-
Block operations on memory: `memory/src/mem_op.cpp`.

A memory has a byte at each of the 2^64 addresses, and pointers are addresses, so
pointer arithmetic wraps.  A `size_t` is eight bytes, the least significant one first,
and may be read at any address.

A `size_t` counter is a natural number below 2^64 with `sub64` for `-=`; the pairs of
all subtractions are kept, so that one can say that none of them wrapped.  A loop
`while (n--)` makes `n` rounds.
-/
import Mathlib.Algebra.Order.Ring.Int
import Ytl.Base.Fault

namespace Ytl.Memory

abbrev Addr := BitVec 64

abbrev Byte := BitVec 8

abbrev Bytes := Addr → Byte

/-! ### Bytes and words -/

def storeByte (m : Bytes) (a : Addr) (b : Byte) : Bytes := fun x => if x = a then b else m x

def loadBytes (m : Bytes) : (n : Nat) → Addr → BitVec (8 * n)
  | 0, _ => 0
  | n + 1, a => loadBytes m n (a + 1) ++ m a

def loadWord (m : Bytes) (a : Addr) : BitVec 64 := loadBytes m 8 a

def storeWord (m : Bytes) (a : Addr) (v : BitVec 64) : Bytes :=
  fun x => if (x - a).toNat < 8 then v.extractLsb' (8 * (x - a).toNat) 8 else m x

/-- `a - b` for `size_t`s. -/
def sub64 (a b : Nat) : Nat := if b ≤ a then a - b else a + 2 ^ 64 - b

/-! ### Copying -/

/-- The memory and the two pointers of a copy. -/
structure Cursor where
  mem : Bytes
  d : Addr
  s : Addr

namespace Cursor

/-- `*d++ = *s++` -/
def byteUp (c : Cursor) : Cursor := ⟨storeByte c.mem c.d (c.mem c.s), c.d + 1, c.s + 1⟩

/-- `*--d = *--s` -/
def byteDown (c : Cursor) : Cursor :=
  ⟨storeByte c.mem (c.d - 1) (c.mem (c.s - 1)), c.d - 1, c.s - 1⟩

/-- `*dw++ = *sw++` -/
def wordUp (c : Cursor) : Cursor :=
  ⟨storeWord c.mem c.d (loadWord c.mem c.s), c.d + 8, c.s + 8⟩

/-- `*--dw = *--sw` -/
def wordDown (c : Cursor) : Cursor :=
  ⟨storeWord c.mem (c.d - 8) (loadWord c.mem (c.s - 8)), c.d - 8, c.s - 8⟩

/-- `while (n--)` around one byte. -/
def bytes (step : Cursor → Cursor) : Nat → Cursor → Cursor
  | 0, c => c
  | n + 1, c => bytes step n (step c)

end Cursor

/-- A copy with the length that is left. -/
structure Copy where
  cursor : Cursor
  count : Nat
  /-- What has been subtracted from `count`, each with what it was subtracted from. -/
  spent : List (Nat × Nat)

namespace Copy

/-- `count -= k` -/
def spend (c : Copy) (k : Nat) : Copy :=
  { c with count := sub64 c.count k, spent := c.spent ++ [(c.count, k)] }

/-- `while (count >= sizeof(size_t))` around one word. -/
def words (word : Cursor → Cursor) : Nat → Copy → Except Fault Copy
  | 0, _ => throw .noReturn
  | fuel + 1, c =>
      if c.count ≥ 8 then
        words word fuel { c.spend 8 with cursor := word c.cursor }
      else
        return c

/-- `align` bytes, and then words as long as there is one. -/
def alignedWords (byte word : Cursor → Cursor) (align : Nat) (c : Copy) : Except Fault Copy :=
  let c := { c.spend align with cursor := c.cursor.bytes byte align }
  words word (c.count + 1) c

/-- The two branches of `memmove` differ in the direction of the steps and in the end
that is aligned. -/
def run (align : Addr → Addr) (byte word : Cursor → Cursor) (c : Copy) : Except Fault Copy := do
  let c ← if c.count ≥ 8 then alignedWords byte word (align c.cursor.d &&& 7).toNat c else pure c
  return { c with cursor := c.cursor.bytes byte c.count }

def down (c : Copy) : Except Fault Copy := run (fun d => d) Cursor.byteDown Cursor.wordDown c

def up (c : Copy) : Except Fault Copy := run (fun d => -d) Cursor.byteUp Cursor.wordUp c

/-- `memset` and `memcpy` deal with a short length first. -/
def runShort (byte word : Cursor → Cursor) (c : Copy) : Except Fault Copy := do
  if c.count < 8 then
    return { c with cursor := c.cursor.bytes byte c.count }
  let c ← alignedWords byte word (-c.cursor.d &&& 7).toNat c
  return { c with cursor := c.cursor.bytes byte c.count }

end Copy

/-- The pointer that is returned, and the copy that was made. -/
def memmove (m : Bytes) (dest src : Addr) (count : Nat) : Except Fault (Addr × Copy) := do
  if dest = src ∨ count = 0 then
    return (dest, ⟨⟨m, dest, src⟩, count, []⟩)
  if src < dest ∧ dest < src + BitVec.ofNat 64 count then
    let n := BitVec.ofNat 64 count
    let c ← Copy.down ⟨⟨m, dest + n, src + n⟩, count, []⟩
    return (dest, c)
  else
    let c ← Copy.up ⟨⟨m, dest, src⟩, count, []⟩
    return (dest, c)

def memcpy (m : Bytes) (dest src : Addr) (count : Nat) : Except Fault (Addr × Copy) := do
  let c ← Copy.runShort Cursor.byteUp Cursor.wordUp ⟨⟨m, dest, src⟩, count, []⟩
  return (dest, c)

/-! ### Filling

The cursor of a `memset` has one pointer that moves; the other stays where it is. -/

/-- `*xs++ = b` -/
def Cursor.fillByte (b : Byte) (c : Cursor) : Cursor := ⟨storeByte c.mem c.d b, c.d + 1, c.s⟩

/-- `*xw++ = pattern` -/
def Cursor.fillWord (pattern : BitVec 64) (c : Cursor) : Cursor :=
  ⟨storeWord c.mem c.d pattern, c.d + 8, c.s⟩

def fillPattern (b : Byte) : BitVec 64 :=
  let w := b.setWidth 64
  let pattern := w <<< 24 ||| w <<< 16 ||| w <<< 8 ||| w
  pattern <<< 32 ||| pattern

def memset (m : Bytes) (s : Addr) (c : Int) (count : Nat) : Except Fault (Addr × Copy) := do
  let b := BitVec.ofInt 8 c
  let r ← Copy.runShort (Cursor.fillByte b) (Cursor.fillWord (fillPattern b))
    ⟨⟨m, s, s⟩, count, []⟩
  return (s, r)

/-! ### Comparing -/

/-- The difference of two bytes as `int`s. -/
def byteDiff (a b : Byte) : Int := a.toNat - b.toNat

/-- The two pointers of a comparison. -/
structure Compare where
  s1 : Addr
  s2 : Addr

namespace Compare

/-- Both pointers `k` bytes further on. -/
def next (p : Compare) (k : Addr) : Compare := ⟨p.s1 + k, p.s2 + k⟩

/-- `while (n--)` around one byte: the value that is returned, or the pointers behind. -/
def bytes (m : Bytes) : Nat → Compare → Int ⊕ Compare
  | 0, p => .inr p
  | n + 1, p => if m p.s1 ≠ m p.s2 then .inl (byteDiff (m p.s1) (m p.s2)) else bytes m n (p.next 1)

/-- The `for` loop over the bytes of two words. -/
def inWord (m : Bytes) (p : Compare) : Option Int :=
  let differ (i : Nat) : Bool := m (p.s1 + BitVec.ofNat 64 i) ≠ m (p.s2 + BitVec.ofNat 64 i)
  ((List.range 8).find? differ).map fun i =>
    byteDiff (m (p.s1 + BitVec.ofNat 64 i)) (m (p.s2 + BitVec.ofNat 64 i))

/-- `while (count >= sizeof(size_t))` around one word. -/
def words (m : Bytes) : Nat → Nat → Compare → Except Fault (Int ⊕ Nat × Compare)
  | 0, _, _ => throw .noReturn
  | fuel + 1, count, p =>
      if count ≥ 8 then
        if loadWord m p.s1 ≠ loadWord m p.s2 then
          match inWord m p with
          | some v => return .inl v
          | none => words m fuel (sub64 count 8) (p.next 8)
        else
          words m fuel (sub64 count 8) (p.next 8)
      else
        return .inr (count, p)

end Compare

def memcmp (m : Bytes) (cs ct : Addr) (count : Nat) : Except Fault Int := do
  if count < 8 then
    match Compare.bytes m count ⟨cs, ct⟩ with
    | .inl v => return v
    | .inr _ => return 0
  let align := (-cs &&& 7).toNat
  let count := sub64 count align
  match Compare.bytes m align ⟨cs, ct⟩ with
  | .inl v => return v
  | .inr p =>
      match ← Compare.words m (count + 1) count p with
      | .inl v => return v
      | .inr (count, p) =>
          match Compare.bytes m count p with
          | .inl v => return v
          | .inr _ => return 0

end Ytl.Memory
