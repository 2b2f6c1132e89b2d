/-
Blocks of the allocator: `memory/include/memory.h` and `memory/include/allocator.inl`,
with the default template parameters.

In front of every block lies a header, and the header is all `deallocate` knows of it:
the requested size in the low 48 bits of `data`, the size class in the eight bits above
and `MMAP_FLAG` in bit 62.  Here are the thresholds `allocate` decides by, the headers
the three ways to allocate write once they have found room for the block, and what
`deallocate` makes of a header.

The source has `_sc.size_class` in `pool_allocate`, which `size_class` does not have;
it is taken to be the index `alloc_small` has computed.
-/
import Mathlib.Algebra.Order.Ring.Int
import Ytl.Memory.MemOp

namespace Ytl.Memory.Allocator

/-! ### Constants -/

def pageSize : Nat := 4096

def cacheLineSize : Nat := 64

def tinyClasses : Nat := 8

def sizeMask : BitVec 64 := 0x0000FFFFFFFFFFFF

def classMask : BitVec 64 := 0x00FF000000000000

def mmapFlag : BitVec 64 := 1 <<< 62

def headerMagic : BitVec 64 := 0xDEADBEEF12345678

def tinyThreshold : Nat := 64

def smallThreshold : Nat := 256

def largeThreshold : Nat := 1024 * 1024

/-! ### Size classes -/

/-- `__builtin_clz` and `__builtin_clzll` of a positive number, by the width. -/
def clz (width x : Nat) : Nat := width - 1 - Nat.log2 x

/-- `size_class`: the size of a block, and the slots that such blocks lie in. -/
structure SizeClass where
  size : BitVec 16
  slotSize : BitVec 16
  blocks : BitVec 16
  slack : BitVec 16
deriving DecidableEq, Repr

def getAlignmentForSize (size : Nat) : Nat :=
  if size ≤ cacheLineSize then cacheLineSize
  else if size ≥ pageSize then pageSize
  else 1 <<< (64 - clz 64 (size - 1))

/-- Entry `i` of the table; the fields are cut to 16 bits. -/
def sizeClassTable (i : Nat) : SizeClass :=
  let size := 1 <<< (i + 3)
  let alignment := getAlignmentForSize size
  let slot := (BitVec.ofNat 64 (size + alignment - 1) &&& ~~~BitVec.ofNat 64 (alignment - 1)).toNat
  ⟨BitVec.ofNat 16 size, BitVec.ofNat 16 slot, BitVec.ofNat 16 (pageSize / slot),
    BitVec.ofNat 16 (slot - size)⟩

/-- `(size - 1) >> 3`, cut to a `uint8_t`. -/
def tinyClass (size : Nat) : BitVec 8 := BitVec.ofNat 8 ((size - 1) >>> 3)

def smallClass (size : Nat) : Nat := 31 - clz 32 (size - 1)

/-! ### Headers -/

/-- `block_header`: the size and the class are parts of one word. -/
structure BlockHeader where
  data : BitVec 64
  magic : BitVec 64
deriving DecidableEq, Repr

/-- `sizeof(block_header)`, a cache line. -/
def headerSize : Addr := 64

abbrev Headers := Addr → BlockHeader

/-- `new(block) block_header()` with `data` filled in, and the pointer behind it. -/
def placeHeader (h : Headers) (block : Addr) (data : BitVec 64) : Addr × Headers :=
  (block + headerSize, fun a => if a = block then ⟨data, headerMagic⟩ else h a)

/-- The end of `alloc_tiny`, with room found at `block`. -/
def buildTiny (h : Headers) (block : Addr) (size : Nat) : Addr × Headers :=
  placeHeader h block
    ((BitVec.ofNat 64 size &&& sizeMask) ||| ((tinyClass size).setWidth 64 <<< 48))

/-- `pool_allocate` for `alloc_small`, with room found at `block`. -/
def buildSmall (h : Headers) (block : Addr) (size : Nat) : Addr × Headers :=
  let sc := sizeClassTable (smallClass size)
  placeHeader h block
    ((sc.size.setWidth 64 &&& sizeMask) ||| (BitVec.ofNat 64 (smallClass size) <<< 48))

/-- The end of `alloc_large`, with `block` mapped. -/
def buildLarge (h : Headers) (block : Addr) (size : Nat) : Addr × Headers :=
  placeHeader h block
    ((BitVec.ofNat 64 size &&& sizeMask) ||| ((255 : BitVec 64) <<< 48) ||| mmapFlag)

/-- `reinterpret_cast<block_header *>(static_cast<char *>(ptr) - sizeof(block_header))` -/
def headerOf (h : Headers) (ptr : Addr) : BlockHeader := h (ptr - headerSize)

/-- `(data & CLASS_MASK) >> 48`, cut to a `uint8_t`. -/
def classOf (data : BitVec 64) : BitVec 8 := ((data &&& classMask) >>> 48).setWidth 8

/-! ### The two decisions -/

/-- The three pairs of functions that allocate and release. -/
inductive Path where
  | tiny
  | small
  | large
deriving DecidableEq, Repr

/-- The function `allocate` calls, if any. -/
def allocatePath (size : Nat) : Option Path :=
  if size = 0 ∨ size > 1 <<< 47 then none
  else if size ≤ tinyThreshold then some .tiny
  else if size ≤ smallThreshold then some .small
  else if size < largeThreshold then some .small
  else some .large

/-- The function `deallocate` calls for a pointer that is not null. -/
def deallocatePath (h : Headers) (ptr : Addr) : Path :=
  let data := (headerOf h ptr).data
  if (classOf data).toNat < tinyClasses then .tiny
  else if data &&& mmapFlag = 0 then .small
  else .large

namespace Path

def build : Path → Headers → Addr → Nat → Addr × Headers
  | .tiny => buildTiny
  | .small => buildSmall
  | .large => buildLarge

/-- The size class that is put into the header. -/
def sizeClass : Path → Nat → Nat
  | .tiny, size => (tinyClass size).toNat
  | .small, size => smallClass size
  | .large, _ => 255

end Path

end Ytl.Memory.Allocator
