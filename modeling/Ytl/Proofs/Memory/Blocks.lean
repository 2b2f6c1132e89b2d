/-
The blocks of one pool.

A block is a header and the bytes behind it, at the beginning of a slot.  `alloc_tiny` computes
the size of a slot from the request and `free_tiny` from the class, which comes to the same;
`pool_deallocate` forgets to take off the header before it divides, but the header is smaller
than any slot of `alloc_small`.

That blocks are apart is arithmetic: the slots of a pool follow one another from the end of
the bitmap on, and the last one that can be found ends where the pool does.  What is not
arithmetic is which indices can be found.  A pool has more bits than slots, and the search
goes by its own alignment; the statement is for the indices it can return while only bits of
slots are set.
-/
import Mathlib.Data.Set.Basic
import Ytl.Proofs.Memory.Granting
import Ytl.Proofs.Memory.Heap

namespace Ytl.Memory.Allocator

open Heap

variable {size idx : Nat} {pool : Addr}

/-! ### Slots

The size a slot is looked for with is not the size of the slot, so an index has to be shown to
be one of a slot.
-/

/-- The sizes for which there are slots: the tiny ones, and those whose class has a `slot_size`
other than 0. -/
def FromSlots (size : Nat) : Prop :=
  1 ≤ size ∧ (size ≤ tinyThreshold ∨
    size < largeThreshold ∧ (sizeClassTable (smallClass size)).slotSize ≠ 0)

/-- The size a slot is looked for with. -/
def searchSize (size : Nat) : Nat :=
  if size ≤ tinyThreshold then size else (sizeClassTable (smallClass size)).size.toNat

/-- An index that `find_free_bits` can return, in a pool whose bits are set for slots only. -/
def CanReturn (size idx : Nat) : Prop :=
  ∃ (bmap : Bitmap) (spurious : Spurious) (b : Bitmap),
    (∀ i ∈ freeSlots bmap, i < slotsPerPool size) ∧
      findFreeBitsWeak spurious bmap (searchSize size) = (some idx, b)

theorem CanReturn.lt (h : CanReturn size idx) : idx < slotsPerPool size := by
  obtain ⟨bmap, spurious, b, hslots, hfind⟩ := h
  have hgrants := findFreeBitsWeak_grants spurious bmap (searchSize size)
  rw [hfind] at hgrants
  cases hgrants with
  | taken _ _ hmem _ => exact hslots idx hmem

/-- So is any index that is found when no exchange fails. -/
theorem CanReturn.of_findFreeBits {bmap b : Bitmap}
    (hslots : ∀ i ∈ freeSlots bmap, i < slotsPerPool size)
    (hfind : findFreeBits bmap (searchSize size) = some (idx, b)) : CanReturn size idx := by
  refine ⟨bmap, fun _ => false, b, hslots, ?_⟩
  rw [findFreeBitsWeak_eq, hfind]
  rfl

/-- A slot has room for the header and the request. -/
theorem room_of_fromSlots (h : FromSlots size) : headerSize.toNat + size ≤ slotSizeOf size := by
  obtain ⟨hpos, hrange⟩ := h
  have htiny : tinyThreshold = 64 := rfl
  unfold slotSizeOf
  by_cases hs : size ≤ tinyThreshold
  · rw [if_pos hs, tinySlotSize_eq size (by omega) hpos, show headerSize.toNat = 64 from rfl]
    omega
  · obtain ⟨hhigh, hslot⟩ := hrange.resolve_left hs
    have hlow : 64 < size := by omega
    have hsmall : smallClass size < 13 := by
      by_contra hbig
      have hzero := slotSize_eq (smallClass size) (smallClass_lt hlow hhigh)
        (six_le_smallClass hlow hhigh)
      rw [if_neg hbig] at hzero
      exact hslot (BitVec.eq_of_toNat_eq hzero)
    rw [if_neg hs]
    exact slot_room hlow hhigh hsmall

/-- What lies in a slot lies in the pool. -/
theorem slot_inside (hidx : idx < slotsPerPool size) {k : Nat} (hk : k < slotSizeOf size) :
    idx * slotSizeOf size + k < pageSize - bitmapSize := by
  have hnext : (idx + 1) * slotSizeOf size ≤ pageSize - bitmapSize :=
    (Nat.le_div_iff_mul_le (by omega)).mp hidx
  rw [Nat.succ_mul] at hnext
  omega

theorem slot_index (idx : Nat) {k : Nat} (hk : k < slotSizeOf size) :
    (idx * slotSizeOf size + k) / slotSizeOf size = idx := by
  rw [Nat.mul_comm, Nat.mul_add_div (by omega), Nat.div_eq_of_lt hk, Nat.add_zero]

/-! ### Blocks

A block begins with its slot, with the header first.
-/

/-- Where the header of a block is put. -/
def slotBlock (pool : Addr) (size idx : Nat) : Addr :=
  poolMem pool + BitVec.ofNat 64 (idx * slotSizeOf size)

/-- The block that is built for an index. -/
def buildAt (h : Headers) (pool : Addr) (size idx : Nat) : Addr × Headers :=
  if size ≤ tinyThreshold then buildTiny h (slotBlock pool size idx) size
  else buildSmall h (slotBlock pool size idx) size

/-- From the header to the last byte that was asked for. -/
def blockBytes (pool : Addr) (size idx : Nat) : Set Addr :=
  {a | ∃ k < headerSize.toNat + size, a = slotBlock pool size idx + BitVec.ofNat 64 k}

/-- `pool.mem` -/
def poolBytes (pool : Addr) : Set Addr :=
  {a | ∃ k < pageSize - bitmapSize, a = poolMem pool + BitVec.ofNat 64 k}

/-! ### Serving a request

`alloc_tiny` and `pool_allocate` look for a slot with different sizes and compute its place in
different ways.  Once there is a pool and no block waits in the cache, both come to the same:
the block belongs to the index that was found.
-/

/-- The block of the first slot that is found free, if any. -/
def takeSlot (s : Arena) (pool : Addr) (size : Nat) : Option Addr × Arena :=
  match findFreeBits (s.bitmaps pool) (searchSize size) with
  | none => (none, s)
  | some (idx, b) => (some (buildAt s.headers pool size idx).1,
      { s.setBitmap pool b with headers := (buildAt s.headers pool size idx).2 })

theorem buildAt_tiny (h : Headers) (pool : Addr) (idx : Nat) (hsize : size ≤ tinyThreshold) :
    buildAt h pool size idx =
      buildTiny h (poolMem pool + BitVec.ofNat 64 (idx * tinySlotSize size)) size := by
  unfold buildAt slotBlock slotSizeOf
  rw [if_pos hsize, if_pos hsize]

theorem buildAt_small (h : Headers) (pool : Addr) (idx : Nat) (hsize : ¬ size ≤ tinyThreshold) :
    buildAt h pool size idx = buildSmall h (poolMem pool +
      BitVec.ofNat 64 (idx * (sizeClassTable (smallClass size)).slotSize.toNat)) size := by
  unfold buildAt slotBlock slotSizeOf
  rw [if_neg hsize, if_neg hsize]

theorem allocTiny_eq (s : Arena) (os : MemoryAnswers) (hsize : size ≤ tinyThreshold)
    {i : Fin tinyClasses} (hi : (tinyClass size).toNat = i.val) (hcache : s.cachedTinyCount i = 0)
    (hpool : s.tinyPools i = some pool) : s.allocTiny size os = .ok (takeSlot s pool size) := by
  have hlt : (tinyClass size).toNat < tinyClasses := hi ▸ i.isLt
  have hclass : (⟨(tinyClass size).toNat, hlt⟩ : Fin tinyClasses) = i := Fin.ext hi
  have hnew : s.tinyPool i os.tinyPool = (pool, s) := by
    unfold Arena.tinyPool
    rw [hpool]
  unfold Arena.allocTiny takeSlot searchSize
  rw [dif_pos hlt, hclass, if_pos hsize]
  dsimp only
  rw [hcache, if_neg (Nat.lt_irrefl 0), hnew]
  dsimp only
  cases findFreeBits (s.bitmaps pool) size with
  | none => rfl
  | some found =>
      dsimp only
      rw [buildAt_tiny s.headers pool found.1 hsize]
      rfl

theorem poolAllocate_eq (s : Arena) (pool : Addr) (hsize : ¬ size ≤ tinyThreshold) :
    s.poolAllocate pool size = takeSlot s pool size := by
  unfold Arena.poolAllocate takeSlot searchSize
  rw [if_neg hsize]
  dsimp only
  cases findFreeBits (s.bitmaps pool) (sizeClassTable (smallClass size)).size.toNat with
  | none => rfl
  | some found =>
      dsimp only
      rw [buildAt_small s.headers pool found.1 hsize]

/-- The request is served from the pool, with the pointer `ptr`: by `alloc_tiny` if it is tiny,
with the cache of its class empty, and by `pool_allocate` if not. -/
def ServedFrom (s : Arena) (pool : Addr) (size : Nat) (ptr : Addr) (t : Arena) : Prop :=
  if size ≤ tinyThreshold then
    ∃ (i : Fin tinyClasses) (os : MemoryAnswers), (tinyClass size).toNat = i.val ∧
      s.cachedTinyCount i = 0 ∧ s.tinyPools i = some pool ∧
      s.allocTiny size os = .ok (some ptr, t)
  else s.poolAllocate pool size = (some ptr, t)

theorem takeSlot_of_servedFrom {s t : Arena} {ptr : Addr} (h : ServedFrom s pool size ptr t) :
    takeSlot s pool size = (some ptr, t) := by
  unfold ServedFrom at h
  split at h
  · rename_i hsize
    obtain ⟨i, os, hi, hcache, hpool, hptr⟩ := h
    rw [allocTiny_eq s os hsize hi hcache hpool] at hptr
    exact Except.ok.inj hptr
  · rename_i hsize
    rw [← poolAllocate_eq s pool hsize]
    exact h

/-- The pointer is that of the block of an index that can be returned, and its header is
written. -/
theorem ServedFrom.built {s t : Arena} {ptr : Addr} (h : ServedFrom s pool size ptr t)
    (hslots : ∀ k ∈ freeSlots (s.bitmaps pool), k < slotsPerPool size) :
    ∃ idx, CanReturn size idx ∧ (ptr, t.headers) = buildAt s.headers pool size idx := by
  have htake := takeSlot_of_servedFrom h
  unfold takeSlot at htake
  split at htake
  · cases htake
  · rename_i idx b hfind
    cases htake
    exact ⟨idx, CanReturn.of_findFreeBits hslots hfind, rfl⟩

theorem buildAt_fst (h : Headers) (pool : Addr) (size idx : Nat) :
    (buildAt h pool size idx).1 = slotBlock pool size idx + headerSize := by
  unfold buildAt
  split <;> rfl

theorem slotBlock_add (pool : Addr) (size idx k : Nat) :
    slotBlock pool size idx + BitVec.ofNat 64 k =
      poolMem pool + BitVec.ofNat 64 (idx * slotSizeOf size + k) := by
  unfold slotBlock
  rw [BitVec.add_assoc, ← BitVec.ofNat_add]

/-- The distance to the beginning of the pool. -/
theorem offset_eq (pool : Addr) {k : Nat} (hk : k < pageSize) :
    (poolMem pool + BitVec.ofNat 64 k - poolMem pool).toNat = k := by
  have hpage : pageSize = 4096 := rfl
  rw [BitVec.add_comm, BitVec.add_sub_cancel, BitVec.toNat_ofNat, Nat.mod_eq_of_lt (by omega)]

theorem blockBytes_subset (h : FromSlots size) (hidx : idx < slotsPerPool size) :
    blockBytes pool size idx ⊆ poolBytes pool := by
  rintro a ⟨k, hk, rfl⟩
  exact ⟨_, slot_inside hidx (hk.trans_le (room_of_fromSlots h)), slotBlock_add pool size idx k⟩

/-- A byte of a block tells the slot. -/
theorem blockBytes_apart (h : FromSlots size) {i j : Nat} (hi : i < slotsPerPool size)
    (hj : j < slotsPerPool size) (hne : i ≠ j) :
    ∀ a ∈ blockBytes pool size i, a ∉ blockBytes pool size j := by
  have hroom := room_of_fromSlots h
  have hpage : pageSize - bitmapSize ≤ pageSize := Nat.sub_le _ _
  rintro a ⟨k, hk, rfl⟩ ⟨l, hl, heq⟩
  rw [slotBlock_add, slotBlock_add] at heq
  have hsame : i * slotSizeOf size + k = j * slotSizeOf size + l := by
    rw [← offset_eq pool ((slot_inside hi (hk.trans_le hroom)).trans_le hpage), heq,
      offset_eq pool ((slot_inside hj (hl.trans_le hroom)).trans_le hpage)]
  apply hne
  rw [← slot_index i (hk.trans_le hroom), hsame, slot_index j (hl.trans_le hroom)]

/-! ### Releasing

The distance of the block from the pool is divided by the size of a slot.  What is divided is
off by the header in one of the two functions, and the quotient is not.
-/

/-- A tiny block that is not kept in the cache, or a small one, is released by setting the bit of
its slot, with the header as it was written. -/
def Recovers (h : Headers) (pool : Addr) (size idx : Nat) : Prop :=
  let ptr := (buildAt h pool size idx).1
  if size ≤ tinyThreshold then
    ∀ (s : Arena) (i : Fin tinyClasses), (tinyClass size).toNat = i.val →
      headerOf s.headers ptr = headerOf (buildAt h pool size idx).2 ptr →
      s.tinyPools i = some pool → cacheSize ≤ s.cachedTinyCount i →
      s.freeTiny ptr =
        s.setBitmap pool <$> markBitsFree (s.bitmaps pool) idx ((i.val + 1) <<< 3)
  else
    ∀ (s : Arena) (c : Fin sizeClasses), smallClass size = c.val →
      s.poolDeallocate pool ptr c =
        s.setBitmap pool <$> markBitsFree (s.bitmaps pool) idx (sizeClassTable c).size.toNat

theorem freeTiny_recovers (h : Headers) (hpos : 1 ≤ size) (hsize : size ≤ tinyThreshold)
    (hidx : idx < slotsPerPool size) : Recovers h pool size idx := by
  unfold Recovers
  rw [if_pos hsize]
  intro s i hi hheader hpool hcache
  have htiny : tinyThreshold = 64 := rfl
  have hslot : slotSizeOf size = 128 := by
    unfold slotSizeOf
    rw [if_pos hsize, tinySlotSize_eq size (by omega) hpos]
  have hclass : (classOf (headerOf s.headers (buildAt h pool size idx).1).data).toNat = i.val := by
    rw [hheader, ← hi]
    unfold buildAt
    rw [if_pos hsize]
    exact (tiny_released h _ hpos hsize).2
  have hlt : i.val < 8 := i.isLt
  have hround : tinySlotSize ((i.val + 1) <<< 3) = 128 := by
    rw [Nat.shiftLeft_eq]
    exact tinySlotSize_eq _ (by omega) (by omega)
  have hindex : ((buildAt h pool size idx).1 - headerSize - poolMem pool).toNat /
      tinySlotSize ((i.val + 1) <<< 3) = idx := by
    have hinside : idx * slotSizeOf size < pageSize - bitmapSize :=
      slot_inside hidx (show 0 < slotSizeOf size by omega)
    rw [buildAt_fst, BitVec.add_sub_cancel, slotBlock,
      offset_eq pool (hinside.trans_le (Nat.sub_le _ _)), hround, hslot]
    exact Nat.mul_div_cancel idx (by decide)
  unfold Arena.freeTiny
  simp only [hclass]
  rw [dif_pos i.isLt, dif_neg (Nat.not_lt_of_le hcache), hpool]
  dsimp only
  rw [hindex]
  rfl

theorem poolDeallocate_recovers (h : Headers) (hsize : FromSlots size)
    (hbig : ¬ size ≤ tinyThreshold) (hidx : idx < slotsPerPool size) :
    Recovers h pool size idx := by
  unfold Recovers
  rw [if_neg hbig]
  intro s c hc
  have hroom := room_of_fromSlots hsize
  have hslot : slotSizeOf size = (sizeClassTable c).slotSize.toNat := by
    unfold slotSizeOf
    rw [if_neg hbig, hc]
  have hheader : headerSize.toNat < slotSizeOf size := by
    have hpos := hsize.1
    omega
  have hzero : (sizeClassTable c).slotSize ≠ 0 := by
    intro hzero
    rw [hslot, hzero] at hheader
    exact absurd hheader (Nat.not_lt_zero _)
  -- the header is still in the distance, and is lost in the division
  have hindex : ((buildAt h pool size idx).1 - poolMem pool).toNat /
      (sizeClassTable c).slotSize.toNat = idx := by
    have hinside := slot_inside hidx hheader
    rw [buildAt_fst, show headerSize = BitVec.ofNat 64 headerSize.toNat from rfl, slotBlock_add,
      offset_eq pool (hinside.trans_le (Nat.sub_le _ _)), ← hslot, slot_index idx hheader]
  have hcount : idx < (pageSize - bitmapSize) / (sizeClassTable c).slotSize.toNat := by
    rw [← hslot]
    exact hidx
  unfold Arena.poolDeallocate
  dsimp only
  rw [if_neg hzero, hindex, if_pos hcount]
  rfl

/--
**The blocks of a pool are apart and inside it.**  For every size that has slots, every pool,
and all indices that `find_free_bits` can return for it while only bits of slots are set: from
the header to the last requested byte a block lies in `pool.mem`, blocks with different indices
have no byte in common, and the index is found again, by `free_tiny` in a tiny pool and by
`pool_deallocate` in any other.  The pointers that `alloc_tiny` and `pool_allocate` return from
the pool are those of such blocks.
-/
theorem pool_blocks_apart (size : Nat) (hsize : FromSlots size) (pool : Addr) (h : Headers)
    (i j : Nat) (hi : CanReturn size i) (hj : CanReturn size j) :
    blockBytes pool size i ⊆ poolBytes pool ∧
      (i ≠ j → ∀ a ∈ blockBytes pool size i, a ∉ blockBytes pool size j) ∧
      Recovers h pool size i ∧
      ∀ (s t : Arena) (ptr : Addr), (∀ k ∈ freeSlots (s.bitmaps pool), k < slotsPerPool size) →
        ServedFrom s pool size ptr t →
        ∃ idx, CanReturn size idx ∧ (ptr, t.headers) = buildAt s.headers pool size idx := by
  refine ⟨blockBytes_subset hsize hi.lt, blockBytes_apart hsize hi.lt hj.lt, ?_,
    fun s t ptr hslots hserved => hserved.built hslots⟩
  by_cases htiny : size ≤ tinyThreshold
  · exact freeTiny_recovers h hsize.1 htiny hi.lt
  · exact poolDeallocate_recovers h hsize htiny hi.lt

/-- A pool with one free slot. -/
def oneSlot (k : Fin bitmapWords) (bit : Nat) : Bitmap :=
  fun i => if i = k then (1 : BitVec 64) <<< bit else 0

theorem canReturn_oneSlot :
    CanReturn 64 30 ∧ CanReturn 64 2 ∧ CanReturn 100 2 ∧ CanReturn 100 3 := by
  have hreturns : ∀ {size idx : Nat} (bit : Nat),
      (∀ i ∈ freeSlots (oneSlot 0 bit), i < slotsPerPool size) →
      (findFreeBitsWeak (fun _ => false) (oneSlot 0 bit) (searchSize size)).1 = some idx →
      CanReturn size idx :=
    fun bit hslots hfind => ⟨oneSlot 0 bit, _, _, hslots, Prod.ext hfind rfl⟩
  refine ⟨hreturns 30 ?_ ?_, hreturns 2 ?_ ?_, hreturns 2 ?_ ?_, hreturns 3 ?_ ?_⟩ <;>
    decide +kernel

/-- The last slot of a tiny pool and one of a small pool. -/
theorem pool_blocks_apart_two :
    blockBytes 4096 64 30 ⊆ poolBytes 4096 ∧
      ∀ a ∈ blockBytes 8192 100 2, a ∉ blockBytes 8192 100 3 := by
  obtain ⟨hlast, htiny, htwo, hthree⟩ := canReturn_oneSlot
  exact ⟨(pool_blocks_apart 64 ⟨by decide, by decide⟩ 4096 (fun _ => ⟨0, 0⟩) 30 2 hlast htiny).1,
    (pool_blocks_apart 100 ⟨by decide, Or.inr ⟨by decide, by decide +kernel⟩⟩ 8192
      (fun _ => ⟨0, 0⟩) 2 3 htwo hthree).2.1 (by decide)⟩

end Ytl.Memory.Allocator
