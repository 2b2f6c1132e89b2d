/-
The pools of the allocator: the rest of `memory/include/allocator.inl`.

A pool is a page with a bitmap in front, in which a set bit stands for a slot that may be
taken.  The state is the thread's cache together with the memory it points into: the bitmap
of the pool at each address, and the headers of the blocks.  What `new` and `mmap` return is
given with the call.  `new memory_pool()` may fail, which `alloc_small` catches; the other
two `new` would end the program.  The pages that were mapped and unmapped and the pools that
were deleted are written down, and no branch reads what is written there.

One thread runs alone, so the words are plain and `compare_exchange_weak` succeeds.  Three
calls in the source lack an argument: both calls of `mark_bits_free` are given the size that
the slot was looked for with, and `is_bitmap_empty` the bitmap of the pool it is asked about.
-/
import Mathlib.Logic.Function.Basic
import Ytl.Memory.Large

namespace Ytl.Memory.Allocator

/-! ### Constants -/

def cacheSize : Nat := 32

def sizeClasses : Nat := 32

def maxPools : Nat := 8

def bitsPerWord : Nat := 64

def bitmapWords : Nat := 4

instance : NeZero bitmapWords := ⟨by decide⟩

/-- `sizeof(bitmap)`, a cache line. -/
def bitmapSize : Nat := 64

/-- Why a call has no result. -/
inductive Trap where
  /-- An index past the end of an array. -/
  | outOfBounds
  | divideByZero
deriving DecidableEq, Repr

/-! ### Bitmaps -/

abbrev Bitmap := Fin bitmapWords → BitVec 64

/-- `new tiny_pool()` and `new memory_pool()` set every word to 0. -/
def clearBitmap : Bitmap := fun _ => 0

/-- `__builtin_ctzll` of a word that is not 0. -/
def ctz (word : BitVec 64) : Nat :=
  ((List.range bitsPerWord).find? fun bit => word.getLsbD bit).getD bitsPerWord

/-- Take the lowest bit that is set in word `i`. -/
def takeBit (bmap : Bitmap) (i : Fin bitmapWords) : Option (Nat × Bitmap) :=
  let word := bmap i
  if word ≠ 0 then
    let bit := ctz word
    some (i.val * 64 + bit, Function.update bmap i (word &&& ~~~((1 : BitVec 64) <<< bit)))
  else none

/-- One round of `find_free_bits`: the words `i` and `i + 1`. -/
def findInPair (bmap : Bitmap) (alignMask : Nat) (i i' : Fin bitmapWords) :
    Option (Nat × Bitmap) :=
  if i.val &&& alignMask ≠ 0 then none
  else if bmap i ≠ 0 ∨ bmap i' ≠ 0 then
    (takeBit bmap i).orElse fun _ => takeBit bmap i'
  else none

/-- The index of a free slot, which is taken; none stands for `~0`. -/
def findFreeBits (bmap : Bitmap) (size : Nat) : Option (Nat × Bitmap) :=
  let alignMask := getAlignmentForSize size / bitsPerWord - 1
  (findInPair bmap alignMask 0 1).orElse fun _ => findInPair bmap alignMask 2 3

def wordRef (i : Nat) : Except Trap (Fin bitmapWords) :=
  if h : i < bitmapWords then .ok ⟨i, h⟩ else .error .outOfBounds

/-- From 128 bytes on, two words are written at once, with the mask in both. -/
def markBitsUsed (bmap : Bitmap) (idx size : Nat) : Except Trap Bitmap := do
  let word ← wordRef (idx / bitsPerWord)
  let mask := ~~~((1 : BitVec 64) <<< (idx % bitsPerWord))
  if size ≥ 128 then
    let next ← wordRef (idx / bitsPerWord + 1)
    return Function.update (Function.update bmap word (bmap word &&& mask)) next
      (bmap next &&& mask)
  else
    return Function.update bmap word (bmap word &&& mask)

/-- From 128 bytes on, two words are written at once. -/
def markBitsFree (bmap : Bitmap) (idx size : Nat) : Except Trap Bitmap := do
  let word ← wordRef (idx / bitsPerWord)
  let bits : BitVec 64 := 1 <<< (idx % bitsPerWord)
  if size ≥ 128 then
    let next ← wordRef (idx / bitsPerWord + 1)
    return Function.update (Function.update bmap word (bmap word ||| bits)) next
      (bmap next ||| bits)
  else
    return Function.update bmap word (bmap word ||| bits)

/-- Every slot is free. -/
def isBitmapEmpty (bmap : Bitmap) : Bool :=
  bmap 0 &&& bmap 2 = BitVec.allOnes 64 && bmap 1 &&& bmap 3 = BitVec.allOnes 64

/-! ### The cache of a thread -/

/-- `pool_entry`: a pool, and how many of its slots are taken. -/
structure PoolEntry where
  pool : Addr := 0
  used : Nat := 0
deriving DecidableEq, Repr

/-- `pool_manager`: the pools of each small class. -/
structure PoolManager where
  pools : Fin sizeClasses → Fin maxPools → PoolEntry := fun _ _ => {}
  counts : Fin sizeClasses → Nat := fun _ => 0

/-- `thread_cache_t`, which each thread has for itself. -/
structure ThreadCache where
  tinyPools : Fin tinyClasses → Option Addr := fun _ => none
  poolMgr : Option PoolManager := none
  cachedTiny : Fin tinyClasses → Fin cacheSize → Addr := fun _ _ => 0
  cachedTinyCount : Fin tinyClasses → Nat := fun _ => 0

/-- The cache of a thread, what lies in the memory, and what was given back to the system. -/
structure Arena extends ThreadCache, Mappings where
  bitmaps : Addr → Bitmap
  /-- The pools passed to `delete`, in order. -/
  deleted : List Addr := []

/-- The answers to the calls of one `allocate`. -/
structure MemoryAnswers where
  tinyPool : Addr := 0
  memoryPool : Option Addr := none
  /-- The pages of `mmap`, or none for `MAP_FAILED`. -/
  mapped : Option Addr := none

/-- Where the slots of a pool begin. -/
def poolMem (pool : Addr) : Addr := pool + BitVec.ofNat 64 bitmapSize

/-- The size of a slot of `alloc_tiny`. -/
def tinySlotSize (size : Nat) : Nat :=
  (BitVec.ofNat 64 (size + headerSize.toNat + cacheLineSize - 1) &&&
    ~~~BitVec.ofNat 64 (cacheLineSize - 1)).toNat

def classRef (c : Nat) : Except Trap (Fin sizeClasses) :=
  if h : c < sizeClasses then .ok ⟨c, h⟩ else .error .outOfBounds

def poolRef (i : Nat) : Except Trap (Fin maxPools) :=
  if h : i < maxPools then .ok ⟨i, h⟩ else .error .outOfBounds

def cacheRef (i : Nat) : Except Trap (Fin cacheSize) :=
  if h : i < cacheSize then .ok ⟨i, h⟩ else .error .outOfBounds

namespace Arena

/-- The pool manager; before there is one it is read as a new one. -/
def manager (s : Arena) : PoolManager := s.poolMgr.getD {}

def entry (s : Arena) (c : Fin sizeClasses) (k : Fin maxPools) : PoolEntry := s.manager.pools c k

def setEntry (s : Arena) (c : Fin sizeClasses) (k : Fin maxPools) (e : PoolEntry) : Arena :=
  { s with poolMgr := some { s.manager with
      pools := Function.update s.manager.pools c (Function.update (s.manager.pools c) k e) } }

def setCount (s : Arena) (c : Fin sizeClasses) (count : Nat) : Arena :=
  { s with poolMgr := some { s.manager with counts := Function.update s.manager.counts c count } }

def setBitmap (s : Arena) (pool : Addr) (bmap : Bitmap) : Arena :=
  { s with bitmaps := Function.update s.bitmaps pool bmap }

/-! ### Allocating -/

def poolAllocate (s : Arena) (pool : Addr) (size : Nat) : Option Addr × Arena :=
  let sc := sizeClassTable (smallClass size)
  match findFreeBits (s.bitmaps pool) sc.size.toNat with
  | none => (none, s)
  | some (idx, bmap) =>
      let block := poolMem pool + BitVec.ofNat 64 (idx * sc.slotSize.toNat)
      let (ptr, headers) := buildSmall s.headers block size
      (some ptr, { s.setBitmap pool bmap with headers := headers })

/-- The pool of a tiny class, which is made when it is first asked for. -/
def tinyPool (s : Arena) (i : Fin tinyClasses) (fresh : Addr) : Addr × Arena :=
  match s.tinyPools i with
  | some pool => (pool, s)
  | none =>
      (fresh, { s.setBitmap fresh clearBitmap with
        tinyPools := Function.update s.tinyPools i (some fresh) })

def allocTiny (s : Arena) (size : Nat) (os : MemoryAnswers) : Except Trap (Option Addr × Arena) :=
  if h : (tinyClass size).toNat < tinyClasses then
    let i : Fin tinyClasses := ⟨(tinyClass size).toNat, h⟩
    let count := s.cachedTinyCount i
    if count > 0 then do
      let k ← cacheRef (count - 1)
      return (some (s.cachedTiny i k),
        { s with cachedTinyCount := Function.update s.cachedTinyCount i (count - 1) })
    else
      let (pool, s) := s.tinyPool i os.tinyPool
      match findFreeBits (s.bitmaps pool) size with
      | none => return (none, s)
      | some (idx, bmap) =>
          let block := poolMem pool + BitVec.ofNat 64 (idx * tinySlotSize size)
          let (ptr, headers) := buildTiny s.headers block size
          return (some ptr, { s.setBitmap pool bmap with headers := headers })
  else
    return (none, s)

/-- The loop over the pools of a class: `remaining` rounds are left, the next at `i`. -/
def tryPools (c : Fin sizeClasses) (size : Nat) :
    Nat → Nat → Arena → Except Trap (Option Addr × Arena)
  | 0, _, s => return (none, s)
  | remaining + 1, i, s => do
      let k ← poolRef i
      match s.poolAllocate (s.entry c k).pool size with
      | (some ptr, s) =>
          let e := s.entry c k
          return (some ptr, s.setEntry c k { e with used := (e.used + 1) % 2 ^ 64 })
      | (none, s) => tryPools c size remaining (i + 1) s

def allocSmall (s : Arena) (size : Nat) (os : MemoryAnswers) :
    Except Trap (Option Addr × Arena) := do
  let s := { s with poolMgr := some s.manager }
  let c ← classRef (smallClass size)
  let count := s.manager.counts c
  match ← tryPools c size count 0 s with
  | (some ptr, s) => return (some ptr, s)
  | (none, s) =>
      if count ≥ maxPools then
        return (none, s)
      match os.memoryPool with
      | none => return (none, s)
      | some fresh =>
          let k ← poolRef count
          let s := s.setBitmap fresh clearBitmap
          let s := (s.setEntry c k ⟨fresh, 1⟩).setCount c (count + 1)
          return s.poolAllocate fresh size

def allocLarge (s : Arena) (size : Nat) (os : MemoryAnswers) : Option Addr × Arena :=
  let (ptr, mappings) := s.toMappings.allocLarge pageSize size os.mapped
  (ptr, { s with toMappings := mappings })

def allocate (s : Arena) (size : Nat) (os : MemoryAnswers) : Except Trap (Option Addr × Arena) :=
  match allocatePath size with
  | none => return (none, s)
  | some .tiny => s.allocTiny size os
  | some .small => s.allocSmall size os
  | some .large => return s.allocLarge size os

/-! ### Releasing -/

def poolDeallocate (s : Arena) (pool ptr : Addr) (c : Fin sizeClasses) : Except Trap Arena :=
  let sc := sizeClassTable c
  if sc.slotSize = 0 then throw .divideByZero
  else do
    let idx := (ptr - poolMem pool).toNat / sc.slotSize.toNat
    if idx < (pageSize - bitmapSize) / sc.slotSize.toNat then
      let bmap ← markBitsFree (s.bitmaps pool) idx sc.size.toNat
      return s.setBitmap pool bmap
    else
      return s

def freeTiny (s : Arena) (ptr : Addr) : Except Trap Arena :=
  let c := (classOf (headerOf s.headers ptr).data).toNat
  if h : c < tinyClasses then
    let i : Fin tinyClasses := ⟨c, h⟩
    let count := s.cachedTinyCount i
    if hc : count < cacheSize then
      return { s with
        cachedTiny := Function.update s.cachedTiny i
          (Function.update (s.cachedTiny i) ⟨count, hc⟩ ptr)
        cachedTinyCount := Function.update s.cachedTinyCount i (count + 1) }
    else
      match s.tinyPools i with
      | none => return s
      | some pool => do
          let size := (c + 1) <<< 3
          let idx := (ptr - headerSize - poolMem pool).toNat / tinySlotSize size
          let bmap ← markBitsFree (s.bitmaps pool) idx size
          return s.setBitmap pool bmap
  else
    return s

/-- The call of `is_bitmap_empty` lacks its argument: it is the bitmap of the pool. -/
def isPoolEmpty (s : Arena) (pool : Addr) : Bool := isBitmapEmpty (s.bitmaps pool)

/-- The block lies in the page of the pool. -/
def inPool (pool ptr : Addr) : Bool :=
  decide ((ptr - headerSize).toNat ≥ pool.toNat) &&
    decide ((ptr - headerSize).toNat < (pool + BitVec.ofNat 64 pageSize).toNat)

/-- The loop over the pools of a class: `remaining` rounds are left, the next at `i`. -/
def freeInPools (c : Fin sizeClasses) (ptr : Addr) : Nat → Nat → Arena → Except Trap Arena
  | 0, _, s => return s
  | remaining + 1, i, s => do
      let k ← poolRef i
      let e := s.entry c k
      if inPool e.pool ptr then
        let s ← s.poolDeallocate e.pool ptr c
        let used := (e.used + 2 ^ 64 - 1) % 2 ^ 64
        let s := s.setEntry c k { e with used := used }
        if used = 0 ∧ s.isPoolEmpty e.pool then
          let s := { s with deleted := s.deleted ++ [e.pool] }
          let last ← poolRef (s.manager.counts c - 1)
          return (s.setEntry c k (s.entry c last)).setCount c (s.manager.counts c - 1)
        else
          return s
      else
        freeInPools c ptr remaining (i + 1) s

def freeSmall (s : Arena) (ptr : Addr) : Except Trap Arena :=
  match s.poolMgr with
  | none => return s
  | some mgr => do
      let c ← classRef (classOf (headerOf s.headers ptr).data).toNat
      freeInPools c ptr (mgr.counts c) 0 s

def freeLarge (s : Arena) (ptr : Addr) : Arena :=
  { s with toMappings := s.toMappings.freeLarge pageSize ptr }

def deallocate (s : Arena) (ptr : Addr) : Except Trap Arena :=
  if ptr = 0 then return s
  else
    match deallocatePath s.headers ptr with
    | .tiny => s.freeTiny ptr
    | .small => s.freeSmall ptr
    | .large => return s.freeLarge ptr

end Arena

/-! ### Runs -/

/-- What a program has been given and not given back: each block with its size. -/
structure Heap extends Arena where
  live : List (Addr × Nat) := []

/-- The calls of a thread before its end. -/
inductive MemoryOp where
  | allocate (size : Nat) (os : MemoryAnswers)
  | deallocate (ptr : Addr)

namespace Heap

/-- The heap after `allocate` has returned. -/
def given (s : Heap) (size : Nat) : Option Addr × Arena → Heap
  | (none, t) => ⟨t, s.live⟩
  | (some ptr, t) => ⟨t, s.live ++ [(ptr, size)]⟩

def step (s : Heap) : MemoryOp → Except Trap Heap
  | .allocate size os => s.given size <$> s.toArena.allocate size os
  | .deallocate ptr => (fun t => ⟨t, s.live.eraseP fun b => b.1 = ptr⟩) <$> s.toArena.deallocate ptr

/-- The thread has allocated nothing; the memory is arbitrary. -/
def initial (headers : Headers) (bitmaps : Addr → Bitmap) : Heap where
  headers := headers
  bitmaps := bitmaps

/-- Blocks are given back that were given, or the null pointer. -/
def Released (s : Heap) : MemoryOp → Prop
  | .allocate _ _ => True
  | .deallocate ptr => ptr = 0 ∨ ptr ∈ s.live.map Prod.fst

end Heap

end Ytl.Memory.Allocator
