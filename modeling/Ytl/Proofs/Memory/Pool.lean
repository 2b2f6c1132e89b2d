/-
Nothing comes out of a pool.

In a bitmap a set bit stands for a slot that may be taken, but a new pool begins with a bitmap
of zeros, and bits are set only for blocks that are given back.  So no pool ever has a slot to
give, `allocate` has nothing for any size below `LARGE_THRESHOLD`, and what a program holds
are mapped pages, which go back to the system and not to a pool (`Barren`, `HeapOK`).

Each small request that fails makes a new pool all the same, as long as its class has fewer
than eight, and counts one block in it that nobody has.
-/
import Ytl.Base.Machine
import Ytl.Memory.Pool
import Ytl.Proofs.Memory.SizeClass

namespace Ytl.Memory.Allocator

variable {size : Nat}

/-! ### The two thresholds

Sizes up to 64 are tiny, those below `LARGE_THRESHOLD` small, and the others large; the size 0
and sizes above 2^47 are refused at once.
-/

/-- The sizes that are handled by each of the three functions. -/
theorem allocatePath_some {path : Path} (h : allocatePath size = some path) :
    match path with
    | .tiny => 1 ≤ size ∧ size ≤ 64
    | .small => 64 < size ∧ size < largeThreshold
    | .large => largeThreshold ≤ size := by
  have hrange : 1 ≤ size ∧ size ≤ 2 ^ 47 := by
    by_contra hout
    have hbad : size = 0 ∨ size > 1 <<< 47 := by
      rw [show 1 <<< 47 = 2 ^ 47 from rfl]
      omega
    unfold allocatePath at h
    rw [if_pos hbad] at h
    cases h
  rcases allocatePath_cases hrange.1 hrange.2 with ⟨hs, hp⟩ | ⟨hl, hh, hp⟩ | ⟨hs, hp⟩
  · rw [hp] at h
    cases h
    exact ⟨hrange.1, hs⟩
  · rw [hp] at h
    cases h
    exact ⟨hl, hh⟩
  · rw [hp] at h
    cases h
    exact hs

theorem allocatePath_below (hpos : 1 ≤ size) (hsize : size < largeThreshold) :
    allocatePath size = some (if size ≤ tinyThreshold then .tiny else .small) := by
  have hlarge : largeThreshold = 1048576 := rfl
  have htiny : tinyThreshold = 64 := rfl
  rcases allocatePath_cases hpos (by omega) with ⟨hs, hp⟩ | ⟨hl, -, hp⟩ | ⟨hs, -⟩
  · rw [hp, if_pos (by omega)]
  · rw [hp, if_neg (by omega)]
  · omega

/-! ### Bitmaps without a bit

The search looks at words that are not 0, and there is none.
-/

/-- **A bitmap of zeros has no free slot.** -/
theorem findFreeBits_clear (size : Nat) : findFreeBits clearBitmap size = none := by
  have hpair : ∀ mask i i', findInPair clearBitmap mask i i' = none := by
    intro mask i i'
    unfold findInPair clearBitmap
    simp
  unfold findFreeBits
  dsimp only
  rw [hpair, hpair]
  rfl

namespace Arena

variable {s t : Arena} {c : Fin sizeClasses} {k : Fin maxPools}

/-! ### Fields

An update of one field of the arena leaves the others, which is what these equations say.
-/

@[simp] theorem setBitmap_manager (s : Arena) (pool : Addr) (bmap : Bitmap) :
    (s.setBitmap pool bmap).manager = s.manager := rfl

@[simp] theorem setEntry_counts (s : Arena) (c : Fin sizeClasses) (k : Fin maxPools)
    (e : PoolEntry) : (s.setEntry c k e).manager.counts = s.manager.counts := rfl

@[simp] theorem setCount_pools (s : Arena) (c : Fin sizeClasses) (count : Nat) :
    (s.setCount c count).manager.pools = s.manager.pools := rfl

@[simp] theorem setCount_counts (s : Arena) (c : Fin sizeClasses) (count : Nat) :
    (s.setCount c count).manager.counts = Function.update s.manager.counts c count := rfl

theorem setEntry_self (s : Arena) (c : Fin sizeClasses) (k : Fin maxPools) (e : PoolEntry) :
    (s.setEntry c k e).entry c k = e := by
  simp [entry, setEntry, manager]

theorem setEntry_of_ne (s : Arena) {c c' : Fin sizeClasses} {k k' : Fin maxPools} (e : PoolEntry)
    (h : (c', k') ≠ (c, k)) : (s.setEntry c k e).entry c' k' = s.entry c' k' := by
  by_cases hc : c' = c
  · have hk : k' ≠ k := fun hk => h (by rw [hc, hk])
    simp [entry, setEntry, manager, hc, hk]
  · simp [entry, setEntry, manager, hc]

/-! ### Pools that have nothing to give

`Barren` is kept by every call, since the bitmap of a new pool is zeros and no call sets a
bit: for that a block would have to come back to a pool, and none has come out of one.
-/

/-- The bitmaps of all pools are zeros, and no block waits in a cache. -/
structure Barren (s : Arena) : Prop where
  tiny : ∀ i pool, s.tinyPools i = some pool → s.bitmaps pool = clearBitmap
  small : ∀ c k, k.val < s.manager.counts c → s.bitmaps (s.entry c k).pool = clearBitmap
  counts : ∀ c, s.manager.counts c ≤ maxPools
  cached : ∀ i, s.cachedTinyCount i = 0

theorem Barren.of_new (h : Barren s) (fresh : Addr) : Barren (s.setBitmap fresh clearBitmap) := by
  have hset : ∀ pool, s.bitmaps pool = clearBitmap →
      (s.setBitmap fresh clearBitmap).bitmaps pool = clearBitmap := by
    intro pool hpool
    by_cases hp : pool = fresh
    · rw [hp]
      exact Function.update_self ..
    · exact (Function.update_of_ne hp _ _).trans hpool
  exact ⟨fun i pool hi => hset pool (h.tiny i pool hi), fun c k hk => hset _ (h.small c k hk),
    h.counts, h.cached⟩

theorem Barren.poolAllocate (h : Barren s) (hk : k.val < s.manager.counts c) (size : Nat) :
    s.poolAllocate (s.entry c k).pool size = (none, s) := by
  unfold Arena.poolAllocate
  dsimp only
  rw [h.small c k hk, findFreeBits_clear]

/-- The headers are what they were, and nothing was mapped, unmapped or deleted. -/
structure SameRecord (s t : Arena) : Prop where
  mappings : t.toMappings = s.toMappings
  deleted : t.deleted = s.deleted

theorem SameRecord.refl (s : Arena) : SameRecord s s := ⟨rfl, rfl⟩

theorem SameRecord.headers (h : SameRecord s t) : t.headers = s.headers :=
  congrArg Mappings.headers h.mappings

/-- The pool of a tiny class, old or new, has a bitmap of zeros. -/
theorem Barren.tinyPool (h : Barren s) (i : Fin tinyClasses) (fresh : Addr) :
    ∃ pool t, s.tinyPool i fresh = (pool, t) ∧ t.bitmaps pool = clearBitmap ∧ Barren t ∧
      SameRecord s t ∧ t.manager = s.manager := by
  unfold Arena.tinyPool
  split
  · rename_i pool hpool
    exact ⟨pool, s, rfl, h.tiny i pool hpool, h, SameRecord.refl s, rfl⟩
  · have hnew := h.of_new fresh
    have hbits : (s.setBitmap fresh clearBitmap).bitmaps fresh = clearBitmap :=
      Function.update_self ..
    refine ⟨_, _, rfl, hbits, ⟨fun j pool hj => ?_, hnew.small, hnew.counts, hnew.cached⟩,
      ⟨rfl, rfl⟩, rfl⟩
    have hpool : Function.update s.tinyPools i (some fresh) j = some pool := hj
    by_cases hji : j = i
    · rw [hji, Function.update_self] at hpool
      rw [← Option.some.inj hpool]
      exact hbits
    · rw [Function.update_of_ne hji] at hpool
      exact hnew.tiny j pool hpool

/-- A tiny request finds nothing in the cache, and nothing in its pool. -/
theorem Barren.allocTiny (h : Barren s) (size : Nat) (os : MemoryAnswers) :
    ∃ t, s.allocTiny size os = .ok (none, t) ∧ Barren t ∧ SameRecord s t ∧
      t.manager = s.manager := by
  unfold Arena.allocTiny
  by_cases hc : (tinyClass size).toNat < tinyClasses
  · obtain ⟨pool, t, ht, hbits, hrest⟩ := h.tinyPool ⟨_, hc⟩ os.tinyPool
    rw [dif_pos hc]
    dsimp only
    rw [h.cached, if_neg (Nat.lt_irrefl 0), ht]
    dsimp only
    rw [hbits, findFreeBits_clear]
    exact ⟨t, rfl, hrest⟩
  · rw [dif_neg hc]
    exact ⟨s, rfl, h, SameRecord.refl s, rfl⟩

/-- The loop over the pools of a class goes through all of them in vain. -/
theorem Barren.tryPools (h : Barren s) (size : Nat) :
    ∀ remaining i, i + remaining ≤ s.manager.counts c →
      tryPools c size remaining i s = .ok (none, s) := by
  intro remaining
  induction remaining with
  | zero =>
      intro i _
      rfl
  | succ remaining ih =>
      intro i hi
      have hlt : i < maxPools := by
        have := h.counts c
        omega
      unfold Arena.tryPools poolRef
      rw [dif_pos hlt, bind_of_ok, h.poolAllocate (k := ⟨i, hlt⟩) (show i < _ by omega)]
      exact ih (i + 1) (by omega)

/-- A pool is added to a class, with one block counted in it. -/
def grow (s : Arena) (c : Fin sizeClasses) (k : Fin maxPools) (fresh : Addr) : Arena :=
  ((s.setBitmap fresh clearBitmap).setEntry c k ⟨fresh, 1⟩).setCount c (k.val + 1)

/-- How a small request fails: the class has all its pools or there is no memory for one, or a
pool is added in which nothing is found. -/
inductive Fails (s : Arena) (c : Fin sizeClasses) (os : MemoryAnswers) : Arena → Prop
  | kept (h : s.manager.counts c = maxPools ∨ os.memoryPool = none) : Fails s c os s
  | grown (k : Fin maxPools) (fresh : Addr) (hk : k.val = s.manager.counts c)
      (hfresh : os.memoryPool = some fresh) : Fails s c os (s.grow c k fresh)

theorem Barren.grow (h : Barren s) (hk : k.val = s.manager.counts c) (fresh : Addr) :
    Barren (s.grow c k fresh) := by
  have hnew := h.of_new fresh
  have hbits : (s.grow c k fresh).bitmaps fresh = clearBitmap := Function.update_self ..
  refine ⟨hnew.tiny, fun c' k' hk' => ?_, fun c' => ?_, hnew.cached⟩
  · by_cases hself : (c', k') = (c, k)
    · cases hself
      have hentry : (s.grow c k fresh).entry c k = ⟨fresh, 1⟩ := setEntry_self _ c k _
      rw [hentry]
      exact hbits
    · have hentry : (s.grow c k fresh).entry c' k' = s.entry c' k' := setEntry_of_ne _ _ hself
      rw [hentry]
      refine hnew.small c' k' ?_
      have hcount : k'.val < Function.update s.manager.counts c (k.val + 1) c' := hk'
      by_cases hc : c' = c
      · subst hc
        rw [Function.update_self] at hcount
        have hne : k'.val ≠ k.val := fun hkk => hself (by rw [Fin.ext hkk])
        show k'.val < s.manager.counts c'
        omega
      · rw [Function.update_of_ne hc] at hcount
        exact hcount
  · show Function.update s.manager.counts c (k.val + 1) c' ≤ maxPools
    by_cases hc : c' = c
    · rw [hc, Function.update_self]
      exact k.isLt
    · rw [Function.update_of_ne hc]
      exact h.counts c'

/-- The arena when the pool manager has been made. -/
def managed (s : Arena) : Arena := { s with poolMgr := some s.manager }

theorem Barren.managed (h : Barren s) : Barren s.managed := ⟨h.tiny, h.small, h.counts, h.cached⟩

/-- **A small request always fails.** -/
theorem Barren.allocSmall (h : Barren s) (hc : smallClass size = c.val) (os : MemoryAnswers) :
    ∃ t, s.allocSmall size os = .ok (none, t) ∧ Barren t ∧ SameRecord s t ∧
      Fails s.managed c os t := by
  have hm := h.managed
  have href : classRef (smallClass size) = .ok c := by
    rw [hc]
    exact dif_pos c.isLt
  have hloop := hm.tryPools (c := c) size (s.managed.manager.counts c) 0 (by omega)
  unfold Arena.allocSmall
  rw [href]
  simp only [bind_of_ok]
  rw [show ({ s with poolMgr := some s.manager } : Arena) = s.managed from rfl, hloop, bind_of_ok]
  dsimp only
  by_cases hfull : s.managed.manager.counts c ≥ maxPools
  · rw [if_pos hfull]
    exact ⟨_, rfl, hm, ⟨rfl, rfl⟩, .kept (Or.inl (Nat.le_antisymm (hm.counts c) hfull))⟩
  · rw [if_neg hfull]
    cases hnew : os.memoryPool with
    | none => exact ⟨_, rfl, hm, ⟨rfl, rfl⟩, .kept (Or.inr hnew)⟩
    | some fresh =>
        have hlt : s.managed.manager.counts c < maxPools := Nat.lt_of_not_le hfull
        have hgrow := hm.grow (k := ⟨_, hlt⟩) rfl fresh
        unfold poolRef
        rw [dif_pos hlt]
        simp only [pure_is_ok, bind_of_ok]
        have hcount : s.managed.manager.counts c <
            Function.update s.managed.manager.counts c (s.managed.manager.counts c + 1) c := by
          rw [Function.update_self]
          exact Nat.lt_succ_self _
        have hnone := hgrow.poolAllocate (c := c) (k := ⟨_, hlt⟩) hcount size
        have hentry : (s.managed.grow c ⟨_, hlt⟩ fresh).entry c ⟨_, hlt⟩ = ⟨fresh, 1⟩ :=
          setEntry_self _ c _ _
        rw [hentry] at hnone
        exact ⟨_, congrArg Except.ok hnone, hgrow, ⟨rfl, rfl⟩, .grown _ fresh rfl hnew⟩

end Arena

end Ytl.Memory.Allocator
