/-
What a program gets from the allocator.

Whatever it asks for and gives back, all it ever holds are mapped pages (`HeapOK`): a request
below `LARGE_THRESHOLD` returns the null pointer while all slots are free.  Larger than 512
bytes that is no contradiction, for the slots of those classes do not fit into a pool, and
there are none.  A small request that fails leaves the pools of its class alone only if there
are eight of them already.

The heap is the arena with the list of blocks that the program holds.  The list is not in the
allocator; it is there to say what a program may give back, and what lies in a slot.
-/
import Ytl.Proofs.Memory.Pool

namespace Ytl.Memory.Allocator

open Arena

variable {size : Nat} {os : MemoryAnswers}

/-! ### One call

What a call can come to is little, because no pool has anything to give: the null pointer,
perhaps with a new pool, or mapped pages.
-/

/-- The arena after `alloc_large` has been given `pages`. -/
def Arena.mapLarge (s : Arena) (pages : Addr) (size : Nat) : Arena :=
  { s with
    headers := (buildLarge s.headers pages size).2
    mapped := s.mapped ++ [(pages, allocSize pageSize (BitVec.ofNat 64 size))] }

/-- What a call of `allocate` comes to while no pool has anything to give. -/
inductive Allocation (s : Arena) (size : Nat) (os : MemoryAnswers) : Option Addr × Arena → Prop
  | nothing (t : Arena) (hpath : allocatePath size ≠ some .small) (hbarren : Barren t)
      (hrecord : SameRecord s t) (hmanager : t.manager = s.manager) :
      Allocation s size os (none, t)
  | small (c : Fin sizeClasses) (t : Arena) (hpath : allocatePath size = some .small)
      (hc : smallClass size = c.val) (hbarren : Barren t) (hrecord : SameRecord s t)
      (hfails : Fails s.managed c os t) : Allocation s size os (none, t)
  | mapped (pages : Addr) (hpath : allocatePath size = some .large)
      (hpages : os.mapped = some pages) :
      Allocation s size os (some (pages + headerSize), s.mapLarge pages size)

theorem smallClass_lt_sizeClasses (h : allocatePath size = some .small) :
    smallClass size < sizeClasses := by
  obtain ⟨hlow, hhigh⟩ := allocatePath_some h
  exact (smallClass_lt hlow hhigh).trans (by decide)

/-- **One call of `allocate`** returns, with a block only if that is made of mapped pages. -/
theorem Arena.Barren.allocate {s : Arena} (h : Barren s) (size : Nat) (os : MemoryAnswers) :
    ∃ r, s.allocate size os = .ok r ∧ Allocation s size os r := by
  unfold Arena.allocate
  cases hpath : allocatePath size with
  | none =>
      exact ⟨_, rfl, .nothing s (by rw [hpath]; exact nofun) h (SameRecord.refl s) rfl⟩
  | some path =>
      cases path with
      | tiny =>
          obtain ⟨t, ht, hb, hh, hm⟩ := h.allocTiny size os
          exact ⟨_, ht, .nothing t (by rw [hpath]; exact nofun) hb hh hm⟩
      | small =>
          obtain ⟨t, ht, hb, hh, hf⟩ :=
            h.allocSmall (c := ⟨_, smallClass_lt_sizeClasses hpath⟩) rfl os
          exact ⟨_, ht, .small _ t hpath rfl hb hh hf⟩
      | large =>
          unfold allocLarge Mappings.allocLarge
          cases hpages : os.mapped with
          | none =>
              exact ⟨_, rfl, .nothing s (by rw [hpath]; exact nofun) h (SameRecord.refl s) rfl⟩
          | some pages => exact ⟨_, rfl, .mapped pages hpath hpages⟩

/-- No pool is deleted. -/
theorem Allocation.deleted {s : Arena} {r : Option Addr × Arena} (h : Allocation s size os r) :
    r.2.deleted = s.deleted := by
  cases h with
  | nothing t _ _ hrecord _ => exact hrecord.deleted
  | small c t _ _ _ hrecord _ => exact hrecord.deleted
  | mapped pages _ _ => rfl

/-- A block that is released by `munmap` still is after other pages have been mapped, and so is
the new one. -/
theorem deallocatePath_buildLarge {h : Headers} {pages ptr : Addr}
    (hptr : deallocatePath h ptr = .large ∨ ptr = (buildLarge h pages size).1) :
    deallocatePath (buildLarge h pages size).2 ptr = .large := by
  by_cases hp : ptr = (buildLarge h pages size).1
  · rw [hp]
    exact (large_released h pages size).1
  · have hne : ptr - headerSize ≠ pages := by
      intro hc
      apply hp
      show ptr = pages + headerSize
      rw [← hc, BitVec.sub_add_cancel]
    have hsame : headerOf (buildLarge h pages size).2 ptr = headerOf h ptr := if_neg hne
    unfold deallocatePath
    rw [hsame]
    exact hptr.resolve_right hp

/-- Mapped pages go back to the system. -/
theorem Arena.Barren.deallocate {s : Arena} (h : Barren s) {ptr : Addr}
    (hptr : ptr = 0 ∨ deallocatePath s.headers ptr = .large) :
    ∃ t, s.deallocate ptr = .ok t ∧ Barren t ∧ t.headers = s.headers ∧
      t.toThreadCache = s.toThreadCache ∧ t.deleted = s.deleted := by
  unfold Arena.deallocate
  by_cases hnull : ptr = 0
  · rw [if_pos hnull]
    exact ⟨s, rfl, h, rfl, rfl, rfl⟩
  · rw [if_neg hnull, hptr.resolve_left hnull]
    have hheaders : (s.freeLarge ptr).headers = s.headers := by
      unfold freeLarge Mappings.freeLarge
      dsimp only
      split <;> rfl
    exact ⟨s.freeLarge ptr, rfl, ⟨h.tiny, h.small, h.counts, h.cached⟩, hheaders, rfl, rfl⟩

namespace Heap

variable {s t : Heap}

/-! ### Runs

A program gives back what it was given and has not given back since.
-/

/-- No pool has anything to give, and what is held are mapped pages. -/
structure HeapOK (s : Heap) : Prop where
  barren : Barren s.toArena
  live : ∀ b ∈ s.live, largeThreshold ≤ b.2 ∧ deallocatePath s.headers b.1 = .large

theorem HeapOK.of_initial (headers : Headers) (bitmaps : Addr → Bitmap) :
    HeapOK (initial headers bitmaps) := by
  refine ⟨⟨fun i pool hi => ?_, fun c k hk => ?_, fun c => ?_, fun i => rfl⟩, fun b hb => ?_⟩
  · cases hi
  · exact absurd hk (Nat.not_lt_zero _)
  · exact Nat.zero_le _
  · exact absurd hb List.not_mem_nil

theorem HeapOK.given (h : HeapOK s) {r : Option Addr × Arena}
    (hr : Allocation s.toArena size os r) : HeapOK (s.given size r) := by
  cases hr with
  | nothing t _ hbarren hrecord _ =>
      refine ⟨hbarren, fun b hb => ?_⟩
      show _ ∧ deallocatePath t.headers b.1 = .large
      rw [hrecord.headers]
      exact h.live b hb
  | small c t _ _ hbarren hrecord _ =>
      refine ⟨hbarren, fun b hb => ?_⟩
      show _ ∧ deallocatePath t.headers b.1 = .large
      rw [hrecord.headers]
      exact h.live b hb
  | mapped pages hpath _ =>
      refine ⟨⟨h.barren.tiny, h.barren.small, h.barren.counts, h.barren.cached⟩, fun b hb => ?_⟩
      rcases List.mem_append.mp hb with hold | hnew
      · exact ⟨(h.live b hold).1, deallocatePath_buildLarge (Or.inl (h.live b hold).2)⟩
      · rw [List.mem_singleton.mp hnew]
        exact ⟨allocatePath_some hpath, deallocatePath_buildLarge (Or.inr rfl)⟩

/-- What is given back are mapped pages, or nothing. -/
theorem HeapOK.deallocate (h : HeapOK s) {ptr : Addr} (hptr : s.Released (.deallocate ptr)) :
    ∃ t, s.step (.deallocate ptr) = .ok t ∧ HeapOK t ∧ t.toThreadCache = s.toThreadCache ∧
      t.deleted = s.deleted := by
  have hlarge : ptr = 0 ∨ deallocatePath s.headers ptr = .large := by
    refine hptr.imp id fun hmem => ?_
    obtain ⟨b, hb, rfl⟩ := List.mem_map.mp hmem
    exact (h.live b hb).2
  obtain ⟨t, ht, hbarren, hheaders, hcache⟩ := h.barren.deallocate hlarge
  refine ⟨_, map_returns.mpr ⟨t, ht, rfl⟩, ⟨hbarren, fun b hb => ?_⟩, hcache⟩
  show _ ∧ deallocatePath t.headers b.1 = .large
  rw [hheaders]
  exact h.live b (List.mem_of_mem_eraseP hb)

/-- The runs of a program that gives back only what it was given. -/
def machine : Machine Heap MemoryOp Trap where
  start s := ∃ headers bitmaps, s = initial headers bitmaps
  admits := Released
  step := step

theorem HeapOK.allocate (h : HeapOK s) (size : Nat) (os : MemoryAnswers) :
    ∃ r, s.toArena.allocate size os = .ok r ∧ Allocation s.toArena size os r ∧
      s.step (.allocate size os) = .ok (s.given size r) ∧ HeapOK (s.given size r) := by
  obtain ⟨r, hr, halloc⟩ := h.barren.allocate size os
  exact ⟨r, hr, halloc, map_returns.mpr ⟨r, hr, rfl⟩, h.given halloc⟩

theorem HeapOK.step (h : HeapOK s) {op : MemoryOp} (hop : s.Released op)
    (hs : s.step op = .ok t) : HeapOK t := by
  cases op with
  | allocate size os =>
      obtain ⟨r, -, -, ht, hok⟩ := h.allocate size os
      rw [Except.ok.inj (hs.symm.trans ht)]
      exact hok
  | deallocate ptr =>
      obtain ⟨u, hu, hok, -⟩ := h.deallocate hop
      rw [Except.ok.inj (hs.symm.trans hu)]
      exact hok

theorem heapOK_of_reachable (h : machine.Reachable s) : HeapOK s := by
  refine h.invariant (I := HeapOK) ?_ fun s op t hok hop hs => hok.step hop hs
  rintro s ⟨headers, bitmaps, rfl⟩
  exact HeapOK.of_initial headers bitmaps

/-! ### Slots that remain

A slot is occupied by a live block that lies in it.  Since live blocks are mapped pages, and
pages are not part of a pool, none is.
-/

/-- The size of the slots a request is served from. -/
def slotSizeOf (size : Nat) : Nat :=
  if size ≤ tinyThreshold then tinySlotSize size
  else (sizeClassTable (smallClass size)).slotSize.toNat

/-- How many slots a pool has, as `pool_deallocate` counts them.  Above 8192 bytes `slot_size`
is 0, having been cut to 16 bits: the division has no result in the source, and is 0 here. -/
def slotsPerPool (size : Nat) : Nat := (pageSize - bitmapSize) / slotSizeOf size

/-- How many pools a class may have. -/
def poolsPerClass (size : Nat) : Nat := if size ≤ tinyThreshold then 1 else maxPools

/-- Pool `i` of those a request is served from. -/
def poolAt (s : Heap) (size i : Nat) : Option Addr :=
  if size ≤ tinyThreshold then
    if h : (tinyClass size).toNat < tinyClasses then s.tinyPools ⟨_, h⟩ else none
  else if h : smallClass size < sizeClasses ∧ i < maxPools then
    if i < s.manager.counts ⟨_, h.1⟩ then some (s.entry ⟨_, h.1⟩ ⟨i, h.2⟩).pool else none
  else none

/-- Slot `idx` of pool `i` is taken by a live block that is served in the same way. -/
def Occupied (s : Heap) (size i idx : Nat) : Prop :=
  ∃ pool, s.poolAt size i = some pool ∧ ∃ b ∈ s.live, allocatePath b.2 = allocatePath size ∧
    b.1 = poolMem pool + BitVec.ofNat 64 (idx * slotSizeOf size) + headerSize

/-- With `slots` slots in a pool: if `allocate` returns the null pointer, all of them are taken
in all the pools the class may have. -/
def NullOnlyWhenFull (s : Heap) (size slots : Nat) : Prop :=
  ∀ os t, os.memoryPool ≠ none → s.toArena.allocate size os = .ok (none, t) →
    ∀ i < poolsPerClass size, ∀ idx < slots, s.Occupied size i idx

/-- Every request below the threshold returns the null pointer. -/
theorem HeapOK.allocate_none (h : HeapOK s) (hsize : size < largeThreshold) (os : MemoryAnswers) :
    ∃ t, s.toArena.allocate size os = .ok (none, t) := by
  obtain ⟨r, hr, halloc, -⟩ := h.allocate size os
  cases halloc with
  | nothing t _ _ _ _ => exact ⟨t, hr⟩
  | small c t _ _ _ _ _ => exact ⟨t, hr⟩
  | mapped pages hpath _ => exact absurd hsize (Nat.not_lt_of_le (allocatePath_some hpath))

/-- Live blocks are mapped pages, so none of them is in a slot. -/
theorem HeapOK.not_occupied (h : HeapOK s) (hpos : 1 ≤ size) (hsize : size < largeThreshold)
    (i idx : Nat) : ¬ s.Occupied size i idx := by
  rintro ⟨pool, -, b, hb, hpath, -⟩
  have hlarge := (h.live b hb).1
  rw [allocatePath_below hpos hsize] at hpath
  by_cases hs : size ≤ tinyThreshold
  · rw [if_pos hs] at hpath
    have htiny := (allocatePath_some hpath).2
    have hthreshold : largeThreshold = 1048576 := rfl
    omega
  · rw [if_neg hs] at hpath
    exact absurd (allocatePath_some hpath).2 (Nat.not_lt_of_le hlarge)

theorem HeapOK.nullOnlyWhenFull_iff (h : HeapOK s) (hpos : 1 ≤ size)
    (hsize : size < largeThreshold) (slots : Nat) : s.NullOnlyWhenFull size slots ↔ slots = 0 := by
  constructor
  · intro hfull
    by_contra hne
    obtain ⟨t, ht⟩ := h.allocate_none hsize { memoryPool := some 0 }
    have hpools : 0 < poolsPerClass size := by
      unfold poolsPerClass
      split <;> decide
    exact h.not_occupied hpos hsize 0 0
      (hfull _ t (Option.some_ne_none _) ht 0 hpools 0 (Nat.pos_of_ne_zero hne))
  · rintro rfl os t - - i - idx hidx
    exact absurd hidx (Nat.not_lt_zero idx)

theorem tinySlotSize_eq : ∀ size < 65, 1 ≤ size → tinySlotSize size = 128 := by
  decide +kernel

/-- The slots of the classes from 9 on are as large as a page, or of size 0. -/
theorem slots_eq_zero_iff : ∀ c < 20, 6 ≤ c →
    ((pageSize - bitmapSize) / (sizeClassTable c).slotSize.toNat = 0 ↔ 9 ≤ c) := by
  decide +kernel

/-- A pool has slots for the requests up to 512 bytes. -/
theorem slotsPerPool_eq_zero (hpos : 1 ≤ size) (hsize : size < largeThreshold) :
    slotsPerPool size = 0 ↔ 512 < size := by
  have htiny : tinyThreshold = 64 := rfl
  unfold slotsPerPool slotSizeOf
  by_cases hs : size ≤ tinyThreshold
  · rw [if_pos hs, tinySlotSize_eq size (by omega) hpos]
    exact ⟨fun hc => absurd hc (by decide), fun hbig => by omega⟩
  · have hlow : 64 < size := by omega
    have hclass : 9 ≤ smallClass size ↔ 512 < size := by
      rw [smallClass_eq hlow hsize, Nat.le_log2 (by omega)]
      omega
    rw [if_neg hs, slots_eq_zero_iff _ (smallClass_lt hlow hsize) (six_le_smallClass hlow hsize),
      hclass]

/--
**Small requests find nothing, whatever is free.**  In every state that a program reaches by
`allocate` and `deallocate`, a request below `LARGE_THRESHOLD` returns the null pointer, and no
slot of any pool is taken.  So with the number of slots that `pool_deallocate` counts in a pool,
it does so only when all of them are taken if and only if there are none, which is the case for
more than 512 bytes; with any other number, if and only if that is 0.
-/
theorem allocate_null_only_when_full_iff (s : Heap) (h : machine.Reachable s) (size : Nat)
    (hpos : 1 ≤ size) (hsize : size < largeThreshold) :
    (s.NullOnlyWhenFull size (slotsPerPool size) ↔ 512 < size) ∧
      ∀ slots, s.NullOnlyWhenFull size slots ↔ slots = 0 := by
  have hok := heapOK_of_reachable h
  refine ⟨?_, hok.nullOnlyWhenFull_iff hpos hsize⟩
  rw [hok.nullOnlyWhenFull_iff hpos hsize, slotsPerPool_eq_zero hpos hsize]

instance (s : Heap) (op : MemoryOp) : Decidable (machine.admits s op) :=
  match op with
  | .allocate _ _ => inferInstanceAs (Decidable True)
  | .deallocate ptr => inferInstanceAs (Decidable (ptr = 0 ∨ ptr ∈ s.live.map Prod.fst))

theorem initial_reachable :
    machine.Reachable (initial (fun _ => ⟨0, 0⟩) fun _ => clearBitmap) := .start ⟨_, _, rfl⟩

/-- There are a tiny pool, a pool for 65 to 128 bytes and a block of mapped pages.  A block of 600
bytes is refused, but would not have fitted; a block of 100 bytes would have. -/
theorem allocate_null_only_when_full_pools :
    ∃ s, machine.Reachable s ∧ s.live.length = 1 ∧ s.manager.counts ⟨6, by decide⟩ = 1 ∧
      s.NullOnlyWhenFull 600 (slotsPerPool 600) ∧
      ¬ s.NullOnlyWhenFull 100 (slotsPerPool 100) := by
  obtain ⟨s, hs, hP⟩ := Machine.exists_reachable (m := machine)
    (s := initial (fun _ => ⟨0, 0⟩) fun _ => clearBitmap) ⟨_, _, rfl⟩
    [.allocate 8 { tinyPool := 4096 }, .allocate 100 { memoryPool := some 8192 },
      .allocate 2000000 { mapped := some 65536 }, .allocate 3000000 { mapped := some 4194304 },
      .deallocate 65600]
    (fun s => decide (s.live.length = 1 ∧ s.manager.counts ⟨6, by decide⟩ = 1)) (by decide +kernel)
  obtain ⟨hlive, hcount⟩ := of_decide_eq_true hP
  refine ⟨s, hs, hlive, hcount, ?_, fun hfull => ?_⟩
  · exact (allocate_null_only_when_full_iff s hs 600 (by decide) (by decide)).1.mpr (by decide)
  · have hbig := (allocate_null_only_when_full_iff s hs 100 (by decide) (by decide)).1.mp hfull
    exact absurd hbig (by decide)

/-- The first request for a byte is refused by a pool of 31 free slots. -/
theorem allocate_null_while_free :
    ¬ ∀ (s : Heap), machine.Reachable s → ∀ size, 1 ≤ size → size < largeThreshold →
      s.NullOnlyWhenFull size (slotsPerPool size) := by
  intro hall
  have hfull := hall _ initial_reachable 1 (by decide) (by decide)
  have hzero := ((HeapOK.of_initial _ _).nullOnlyWhenFull_iff (by decide) (by decide) _).mp hfull
  have hslots : slotsPerPool 1 = 31 := by decide +kernel
  rw [hslots] at hzero
  cases hzero

/-! ### Requests that fail

A request may fail and leave the allocator as it was, and that is what is expected of it.
What is left behind here is a pool with a block counted in it that does not exist.
-/

/-- The pools of a class and their counters are the same in both states. -/
structure PoolsKept (s t : Arena) (c : Fin sizeClasses) : Prop where
  count : t.manager.counts c = s.manager.counts c
  entries : ∀ k : Fin maxPools, k.val < s.manager.counts c → t.entry c k = s.entry c k

/-- If the request returns the null pointer, its class has the pools it had. -/
def FailsCleanly (s : Heap) (size : Nat) (os : MemoryAnswers) : Prop :=
  ∀ (c : Fin sizeClasses) (t : Arena), smallClass size = c.val →
    s.toArena.allocate size os = .ok (none, t) → PoolsKept s.toArena t c

/-- How many live blocks of `alloc_small` lie in a pool. -/
def liveIn (s : Heap) (pool : Addr) : Nat :=
  (s.live.filter fun b => decide (allocatePath b.2 = some .small) && inPool pool b.1).length

/-- Each entry counts the live blocks in its pool. -/
def UsedExact (s : Heap) : Prop :=
  ∀ (c : Fin sizeClasses) (k : Fin maxPools), k.val < s.manager.counts c →
    (s.entry c k).used = s.liveIn (s.entry c k).pool

/-- A small request that fails changes nothing, and the counters are exact afterwards. -/
def CleanStep (s : Heap) (op : MemoryOp) (t : Heap) : Prop :=
  (match op with
    | .allocate size os => allocatePath size = some .small → s.FailsCleanly size os
    | .deallocate _ => True) ∧ t.UsedExact

/-- No small request gets memory for a pool. -/
def AddsNoPool : MemoryOp → Prop
  | .allocate size os => allocatePath size = some .small → os.memoryPool = none
  | .deallocate _ => True

instance (op : MemoryOp) : Decidable (AddsNoPool op) :=
  match op with
  | .allocate size os =>
      inferInstanceAs (Decidable (allocatePath size = some .small → os.memoryPool = none))
  | .deallocate _ => inferInstanceAs (Decidable True)

theorem PoolsKept.of_manager {s t : Arena} (h : t.manager = s.manager) (c : Fin sizeClasses) :
    PoolsKept s t c := by
  refine ⟨by rw [h], fun k _ => ?_⟩
  unfold entry
  rw [h]

/-- **One small request**: it fails without a trace exactly when no pool can be added. -/
theorem HeapOK.failsCleanly_iff (h : HeapOK s) (hpath : allocatePath size = some .small)
    {c : Fin sizeClasses} (hc : smallClass size = c.val) (os : MemoryAnswers) :
    s.FailsCleanly size os ↔ s.manager.counts c = maxPools ∨ os.memoryPool = none := by
  obtain ⟨r, hr, halloc, -⟩ := h.allocate size os
  cases halloc with
  | nothing t hno _ _ _ => exact absurd hpath hno
  | mapped pages hlarge _ =>
      rw [hlarge] at hpath
      cases hpath
  | small c' t _ hc' hbarren _ hfails =>
      obtain rfl : c' = c := Fin.ext (hc'.symm.trans hc)
      cases hfails with
      | kept hkept =>
          refine ⟨fun _ => hkept, fun _ c t hct ht => ?_⟩
          cases hr.symm.trans ht
          exact PoolsKept.of_manager (s := s.toArena) (t := s.managed) rfl c
      | grown k fresh hk hfresh =>
          have hgrown : (s.managed.grow c' k fresh).manager.counts c' = k.val + 1 :=
            Function.update_self ..
          have hkept : s.manager.counts c' = k.val := hk.symm
          have hne := k.isLt
          rw [hfresh]
          constructor
          · intro hclean
            have hcount := (hclean c' _ hc' hr).count
            rw [hgrown, hkept] at hcount
            omega
          · rintro (hfull | hnone)
            · omega
            · cases hnone

/-- While no class has a pool, a step is clean exactly when it adds none. -/
structure NoPools (s : Heap) : Prop where
  ok : HeapOK s
  counts : ∀ c, s.manager.counts c = 0

theorem NoPools.usedExact (h : NoPools s) : s.UsedExact := by
  intro c k hk
  rw [h.counts c] at hk
  exact absurd hk (Nat.not_lt_zero _)

theorem NoPools.clean_of_addsNoPool (h : NoPools s) {op : MemoryOp} (hop : s.Released op)
    (hno : AddsNoPool op) : ∃ t, s.step op = .ok t ∧ CleanStep s op t ∧ NoPools t := by
  cases op with
  | deallocate ptr =>
      obtain ⟨t, ht, hok, hcache, -⟩ := h.ok.deallocate hop
      have hmanager : t.manager = s.manager := by
        unfold manager
        rw [hcache]
      have hno : NoPools t := ⟨hok, by rw [hmanager]; exact h.counts⟩
      exact ⟨t, ht, ⟨trivial, hno.usedExact⟩, hno⟩
  | allocate size os =>
      obtain ⟨r, hr, halloc, ht, hok⟩ := h.ok.allocate size os
      have hcounts : ∀ c, (s.given size r).manager.counts c = 0 := by
        cases halloc with
        | nothing t _ _ _ hmanager =>
            show ∀ c, t.manager.counts c = 0
            rw [hmanager]
            exact h.counts
        | mapped pages _ _ => exact h.counts
        | small c t hpath _ _ _ hfails =>
            cases hfails with
            | kept _ => exact h.counts
            | grown k fresh _ hfresh =>
                rw [hno hpath] at hfresh
                cases hfresh
      have hnext : NoPools (s.given size r) := ⟨hok, hcounts⟩
      refine ⟨_, ht, ⟨fun hpath => ?_, hnext.usedExact⟩, hnext⟩
      exact (h.ok.failsCleanly_iff hpath (c := ⟨_, smallClass_lt_sizeClasses hpath⟩) rfl os).mpr
        (Or.inr (hno hpath))

theorem NoPools.addsNoPool_of_clean (h : NoPools s) {op : MemoryOp} (hclean : CleanStep s op t) :
    AddsNoPool op := by
  cases op with
  | deallocate ptr => exact trivial
  | allocate size os =>
      intro hpath
      have hiff := h.ok.failsCleanly_iff hpath (c := ⟨_, smallClass_lt_sizeClasses hpath⟩) rfl os
      refine (hiff.mp (hclean.1 hpath)).resolve_left fun hfull => ?_
      rw [h.counts] at hfull
      cases hfull

/--
**Small requests that fail leave a pool behind.**  In a run of `allocate` and `deallocate`,
every small request that fails changes nothing and every entry counts the live blocks in its
pool, all the way, if and only if no small request of the run gets memory for a new pool.  In
every state of any run, a small request that fails leaves the pools of its class as they were
if and only if there are eight of them, or there is no memory for another.
-/
theorem failed_small_clean_iff (headers : Headers) (bitmaps : Addr → Bitmap)
    (ops : List MemoryOp) (hadm : machine.Admitted (initial headers bitmaps) ops) :
    (machine.Always CleanStep (initial headers bitmaps) ops ↔
      machine.Meets (fun _ op => AddsNoPool op) (initial headers bitmaps) ops) ∧
    ∀ (s : Heap) (size : Nat) (os : MemoryAnswers) (c : Fin sizeClasses), machine.Reachable s →
      allocatePath size = some .small → smallClass size = c.val →
      (s.FailsCleanly size os ↔ s.manager.counts c = maxPools ∨ os.memoryPool = none) := by
  refine ⟨?_, fun s size os c hs hpath hc =>
    (heapOK_of_reachable hs).failsCleanly_iff hpath hc os⟩
  have hstart : NoPools (initial headers bitmaps) := ⟨HeapOK.of_initial _ _, fun _ => rfl⟩
  refine Machine.always_iff_meets (m := machine) (I := NoPools) ?_ ?_ ops _ hstart hadm
  · intro s op h hop hno
    exact h.clean_of_addsNoPool hop hno
  · intro s op t h _ _ hclean
    exact h.addsNoPool_of_clean hclean

/-- A tiny block is refused, a small one finds no memory for a pool, and a large one is mapped
and released. -/
theorem failed_small_clean_mapped :
    machine.Always CleanStep (initial (fun _ => ⟨0, 0⟩) fun _ => clearBitmap)
      [.allocate 1 { tinyPool := 4096 }, .allocate 100 {},
        .allocate 2000000 { mapped := some 8192 }, .deallocate 8256] := by
  obtain ⟨hadm, hmeets⟩ := Machine.meets_of_check (m := machine) (C := fun _ op => AddsNoPool op)
    [.allocate 1 { tinyPool := 4096 }, .allocate 100 {},
      .allocate 2000000 { mapped := some 8192 }, .deallocate 8256]
    (initial (fun _ => ⟨0, 0⟩) fun _ => clearBitmap) (by decide +kernel)
  exact (failed_small_clean_iff _ _ _ hadm).1.mpr hmeets

/-- A pool is made for a block of 100 bytes, and the block is refused. -/
theorem failed_small_not_clean :
    ¬ ∀ (headers : Headers) (bitmaps : Addr → Bitmap) (ops : List MemoryOp),
      machine.Admitted (initial headers bitmaps) ops →
      machine.Always CleanStep (initial headers bitmaps) ops := by
  intro hall
  obtain ⟨t, -, hclean, -⟩ := hall (fun _ => ⟨0, 0⟩) (fun _ => clearBitmap)
    [.allocate 100 { memoryPool := some 4096 }] ⟨trivial, fun _ _ => trivial⟩
  have hstart : NoPools (initial (fun _ => ⟨0, 0⟩) fun _ => clearBitmap) :=
    ⟨HeapOK.of_initial _ _, fun _ => rfl⟩
  cases hstart.addsNoPool_of_clean hclean (by decide)

end Heap

end Ytl.Memory.Allocator
