/-
Writing strings into a bounded destination: `string/src/string.cpp`.

Where bytes are stored is kept with the memory.  The counters are `size_t`s that a loop
condition may take below 0 on the way out; nothing reads them after that, so a loop has
the rounds that are left as an argument and stops at 0.
-/
import Ytl.String.CString

namespace Ytl.CString

open Memory

/-- A pointer that is written through, a pointer that is read through, and the addresses that
have been stored to. -/
structure Writer where
  mem : Bytes
  d : Addr
  s : Addr
  stores : List Addr

namespace Writer

/-- `*d = b` -/
def put (w : Writer) (b : Byte) : Writer :=
  { w with mem := storeByte w.mem w.d b, stores := w.stores ++ [w.d] }

def nextD (w : Writer) : Writer := { w with d := w.d + 1 }

def nextS (w : Writer) : Writer := { w with s := w.s + 1 }

/-- `while (count && (*d = *src) != '\0')`, with what is left of `count`. -/
def copy : Nat → Writer → Nat × Writer
  | 0, w => (0, w)
  | count + 1, w =>
      let b := w.mem w.s
      let w := w.put b
      if b ≠ 0 then copy count w.nextD.nextS else (count + 1, w)

end Writer

/-- `while (count--) *d++ = 0` -/
def strncpyPad : Nat → Writer → Writer
  | 0, w => w
  | count + 1, w => strncpyPad count (w.put 0).nextD

def strncpy (m : Bytes) (dest src : Addr) (count : Nat) : Addr × Writer :=
  let (count, w) := Writer.copy count ⟨m, dest, src, []⟩
  (dest, strncpyPad count w)

/-- The `do` loop, with what is left of `n`: 0 unless it is left by `break`. -/
def strlcpyCopy : Nat → Writer → Nat × Writer
  | 0, w => (0, w)
  | n + 1, w =>
      let b := w.mem w.s
      let w := (w.put b).nextD.nextS
      if b = 0 then (n + 1, w) else strlcpyCopy n w

/-- `while (*s++)` -/
def pastEnd (m : Bytes) (s : Addr) : Addr ⊕ Addr := if m s = 0 then .inr (s + 1) else .inl (s + 1)

def strlcpy (m : Bytes) (dest src : Addr) (size : Nat) : Except Fault (Addr × Writer) := do
  let w : Writer := ⟨m, dest, src, []⟩
  -- `n != 0 && --n != 0`
  let (n, w) := if size ≠ 0 ∧ size - 1 ≠ 0 then strlcpyCopy (size - 1) w else (size - 1, w)
  if n = 0 then
    let w := if size ≠ 0 then w.put 0 else w
    let s ← loop (pastEnd w.mem) allAddrs w.s
    return (s - src - 1, w)
  else
    return (w.s - src - 1, w)

/-- The condition `n-- > 0 && (*tmp = *src) != '\0'` is the one of `strncpy`. -/
def strncat (m : Bytes) (dest src : Addr) (n : Nat) : Except Fault (Addr × Writer) := do
  let tmp ← loop (toEnd m) allAddrs dest
  let (_, w) := Writer.copy n ⟨m, tmp, src, []⟩
  return (dest, w.put 0)

/-- `while (n-- != 0 && *d != '\0')` -/
def strlcatScan (m : Bytes) : Nat → Reader → Reader
  | 0, r => r
  | n + 1, r => if m r.p = 0 then r.load 1 else strlcatScan m n ((r.load 1).next 1)

/-- `while (*s != '\0')` -/
def strlcatCopy (x : Nat × Writer) : (Nat × Writer) ⊕ Writer :=
  let (n, w) := x
  if w.mem w.s = 0 then
    .inr w
  else if n ≠ 1 then
    .inl (n - 1, (w.put (w.mem w.s)).nextD.nextS)
  else
    .inl (n, w.nextS)

/-- What is loaded through `d` is kept too. -/
def strlcat (m : Bytes) (dest src : Addr) (size : Nat) :
    Except Fault (Addr × Reader × Writer) := do
  let r := strlcatScan m size ⟨dest, []⟩
  let dlen := r.p - dest
  let n := sub64 size dlen.toNat
  let w : Writer := ⟨m, r.p, src, []⟩
  if n = 0 then
    let (len, _) ← strlen m src
    return (dlen + len, r, w)
  let w ← loop strlcatCopy allAddrs (n, w)
  return (dlen + (w.s - src), r, w.put 0)

end Ytl.CString
