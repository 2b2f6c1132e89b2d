/-
What `cleanup` leaves.

It deletes the pools of the thread, each once, and none is left.  The pointers in the caches are
not erased; since the counts are 0 they are never read, and the thread goes on as a new one.

The proof has two parts.  The first is about a thread that goes on after `cleanup`: its arena
differs from a new one in pointers only that no count covers, and every function of the
allocator does the same on two arenas that differ in this way, or fails on both.  The second
is about the pools: which ones there are is read off the cache, and the loops of `cleanup` go
through just these.
-/
import Mathlib.Data.List.FinRange
import Ytl.Base.Simulation
import Ytl.Memory.Cleanup
import Ytl.Proofs.Memory.Heap

namespace Ytl.Memory.Allocator

namespace Arena

variable {s t : Arena}

/-! ### Pointers that are not read

A pointer of a cache is read where a count says that there is one.  Two arenas are alike if
they agree on the counts and on what the counts cover.
-/

/-- The arenas differ in pointers of the caches only that are not counted. -/
structure Alike (s t : Arena) : Prop where
  tinyPools : t.tinyPools = s.tinyPools
  poolMgr : t.poolMgr = s.poolMgr
  counts : t.cachedTinyCount = s.cachedTinyCount
  cached : ∀ i (k : Fin cacheSize), k.val < s.cachedTinyCount i →
    t.cachedTiny i k = s.cachedTiny i k
  mappings : t.toMappings = s.toMappings
  bitmaps : t.bitmaps = s.bitmaps
  deleted : t.deleted = s.deleted

/-- The same result, and arenas that are alike. -/
def Both {α : Type} (r q : α × Arena) : Prop := q.1 = r.1 ∧ Alike r.2 q.2

namespace Alike

theorem headers (h : Alike s t) : t.headers = s.headers := congrArg Mappings.headers h.mappings

theorem manager (h : Alike s t) : t.manager = s.manager := by
  unfold Arena.manager
  rw [h.poolMgr]

theorem entry (h : Alike s t) (c : Fin sizeClasses) (k : Fin maxPools) :
    t.entry c k = s.entry c k := by
  unfold Arena.entry
  rw [h.manager]

theorem isPoolEmpty (h : Alike s t) (pool : Addr) : t.isPoolEmpty pool = s.isPoolEmpty pool := by
  unfold Arena.isPoolEmpty
  rw [h.bitmaps]

theorem setBitmap (h : Alike s t) (pool : Addr) (bmap : Bitmap) :
    Alike (s.setBitmap pool bmap) (t.setBitmap pool bmap) := by
  refine ⟨h.tinyPools, h.poolMgr, h.counts, h.cached, h.mappings, ?_, h.deleted⟩
  unfold Arena.setBitmap
  rw [h.bitmaps]

theorem setEntry (h : Alike s t) (c : Fin sizeClasses) (k : Fin maxPools) (e : PoolEntry) :
    Alike (s.setEntry c k e) (t.setEntry c k e) := by
  refine ⟨h.tinyPools, ?_, h.counts, h.cached, h.mappings, h.bitmaps, h.deleted⟩
  unfold Arena.setEntry
  rw [h.manager]

theorem setCount (h : Alike s t) (c : Fin sizeClasses) (count : Nat) :
    Alike (s.setCount c count) (t.setCount c count) := by
  refine ⟨h.tinyPools, ?_, h.counts, h.cached, h.mappings, h.bitmaps, h.deleted⟩
  unfold Arena.setCount
  rw [h.manager]

theorem withMappings (h : Alike s t) {m n : Mappings} (hmn : n = m) :
    Alike { s with toMappings := m } { t with toMappings := n } :=
  ⟨h.tinyPools, h.poolMgr, h.counts, h.cached, hmn, h.bitmaps, h.deleted⟩

theorem withHeaders (h : Alike s t) (headers : Headers) :
    Alike { s with headers := headers } { t with headers := headers } :=
  h.withMappings (by rw [h.mappings])

theorem delete (h : Alike s t) (pool : Addr) :
    Alike { s with deleted := s.deleted ++ [pool] } { t with deleted := t.deleted ++ [pool] } :=
  ⟨h.tinyPools, h.poolMgr, h.counts, h.cached, h.mappings, h.bitmaps, by rw [h.deleted]⟩

/-! ### Allocating

Function by function: on arenas that are alike, the results are the same and what is left is
alike.
-/

theorem poolAllocate (h : Alike s t) (pool : Addr) (size : Nat) :
    Both (s.poolAllocate pool size) (t.poolAllocate pool size) := by
  unfold Arena.poolAllocate
  dsimp only
  rw [h.bitmaps, h.headers]
  cases findFreeBits (s.bitmaps pool) (sizeClassTable (smallClass size)).size.toNat with
  | none => exact ⟨rfl, h⟩
  | some found => exact ⟨rfl, (h.setBitmap pool found.2).withHeaders _⟩

theorem tinyPool (h : Alike s t) (i : Fin tinyClasses) (fresh : Addr) :
    Both (s.tinyPool i fresh) (t.tinyPool i fresh) := by
  unfold Arena.tinyPool
  rw [h.tinyPools]
  cases s.tinyPools i with
  | some pool => exact ⟨rfl, h⟩
  | none =>
      have hnew := h.setBitmap fresh clearBitmap
      exact ⟨rfl, rfl, hnew.poolMgr, hnew.counts, hnew.cached, hnew.mappings, hnew.bitmaps,
        hnew.deleted⟩

theorem allocTiny (h : Alike s t) (size : Nat) (os : MemoryAnswers) :
    Same Both (s.allocTiny size os) (t.allocTiny size os) := by
  unfold Arena.allocTiny
  split
  case isFalse => exact Same.ok ⟨rfl, h⟩
  rename_i hclass
  dsimp only
  rw [h.counts]
  split
  · rename_i hcount
    refine Same.bind_left fun k hk => ?_
    have hlast : k.val = s.cachedTinyCount ⟨_, hclass⟩ - 1 := by
      unfold cacheRef at hk
      split at hk
      · rw [← Except.ok.inj hk]
      · cases hk
    refine Same.ok ⟨?_, h.tinyPools, h.poolMgr, ?_, fun i k' hk' => ?_, h.mappings, h.bitmaps,
      h.deleted⟩
    · rw [h.cached _ k (by omega)]
    · rfl
    · refine h.cached i k' (Nat.lt_of_lt_of_le hk' ?_)
      show Function.update s.cachedTinyCount _ _ i ≤ _
      by_cases hi : i = ⟨_, hclass⟩
      · rw [hi, Function.update_self]
        exact Nat.sub_le _ _
      · rw [Function.update_of_ne hi]
  · obtain ⟨hpool, hnew⟩ := h.tinyPool ⟨_, hclass⟩ os.tinyPool
    rw [hpool, hnew.bitmaps, hnew.headers]
    cases findFreeBits _ size with
    | none => exact Same.ok ⟨rfl, hnew⟩
    | some found => exact Same.ok ⟨rfl, (hnew.setBitmap _ found.2).withHeaders _⟩

theorem tryPools (c : Fin sizeClasses) (size : Nat) :
    ∀ (remaining i : Nat) {s t : Arena}, Alike s t →
      Same Both (tryPools c size remaining i s) (tryPools c size remaining i t) := by
  intro remaining
  induction remaining with
  | zero =>
      intro i s t h
      exact Same.ok ⟨rfl, h⟩
  | succ remaining ih =>
      intro i s t h
      rw [Arena.tryPools, Arena.tryPools]
      refine Same.bind_left fun k _ => ?_
      rw [h.entry]
      obtain ⟨hfst, hsnd⟩ := h.poolAllocate (s.entry c k).pool size
      revert hfst hsnd
      generalize s.poolAllocate (s.entry c k).pool size = r
      generalize t.poolAllocate (s.entry c k).pool size = q
      obtain ⟨found, s'⟩ := r
      obtain ⟨found', t'⟩ := q
      intro hfst hsnd
      obtain rfl : found' = found := hfst
      cases found' with
      | none => exact ih (i + 1) hsnd
      | some ptr =>
          dsimp only
          rw [hsnd.entry]
          exact Same.ok ⟨rfl, hsnd.setEntry c k _⟩

theorem allocSmall (h : Alike s t) (size : Nat) (os : MemoryAnswers) :
    Same Both (s.allocSmall size os) (t.allocSmall size os) := by
  have hmanaged : Alike { s with poolMgr := some s.manager } { t with poolMgr := some t.manager } :=
    ⟨h.tinyPools, by rw [h.manager], h.counts, h.cached, h.mappings, h.bitmaps, h.deleted⟩
  unfold Arena.allocSmall
  refine Same.bind_left fun c _ => ?_
  dsimp only
  rw [hmanaged.manager]
  refine (tryPools c size _ 0 hmanaged).bind ?_
  rintro ⟨found, s'⟩ ⟨found', t'⟩ ⟨hfst, hsnd⟩
  obtain rfl : found' = found := hfst
  cases found' with
  | some ptr => exact Same.ok ⟨rfl, hsnd⟩
  | none =>
      dsimp only
      split
      · exact Same.ok ⟨rfl, hsnd⟩
      · cases os.memoryPool with
        | none => exact Same.ok ⟨rfl, hsnd⟩
        | some fresh =>
            refine Same.bind_left fun k _ => Same.ok ?_
            exact (((hsnd.setBitmap fresh clearBitmap).setEntry c k _).setCount c _).poolAllocate
              fresh size

theorem allocate (h : Alike s t) (size : Nat) (os : MemoryAnswers) :
    Same Both (s.allocate size os) (t.allocate size os) := by
  unfold Arena.allocate
  cases allocatePath size with
  | none => exact Same.ok ⟨rfl, h⟩
  | some path =>
      cases path with
      | tiny => exact h.allocTiny size os
      | small => exact h.allocSmall size os
      | large =>
          refine Same.ok ?_
          unfold Arena.allocLarge
          rw [h.mappings]
          exact ⟨rfl, h.withMappings rfl⟩

/-! ### Releasing

Releasing may fail, by an index that is out of range.  On arenas that are alike it fails on
both.
-/

theorem poolDeallocate (h : Alike s t) (pool ptr : Addr) (c : Fin sizeClasses) :
    Same Alike (s.poolDeallocate pool ptr c) (t.poolDeallocate pool ptr c) := by
  unfold Arena.poolDeallocate
  dsimp only
  rw [h.bitmaps]
  split
  · exact Same.error _
  · split
    · exact Same.bind_left fun bmap _ => Same.ok (h.setBitmap pool bmap)
    · exact Same.ok h

theorem freeTiny (h : Alike s t) (ptr : Addr) : Same Alike (s.freeTiny ptr) (t.freeTiny ptr) := by
  unfold Arena.freeTiny
  dsimp only
  rw [h.headers, h.counts, h.tinyPools, h.bitmaps]
  split
  case isFalse => exact Same.ok h
  rename_i hclass
  split
  · rename_i hroom
    refine Same.ok ⟨rfl, h.poolMgr, rfl, fun i k hk => ?_, h.mappings, rfl, h.deleted⟩
    dsimp only at hk ⊢
    by_cases hi : i = ⟨_, hclass⟩
    · subst hi
      rw [Function.update_self, Function.update_self]
      by_cases hlast : k = ⟨_, hroom⟩
      · rw [hlast, Function.update_self, Function.update_self]
      · rw [Function.update_of_ne hlast, Function.update_of_ne hlast]
        refine h.cached _ k ?_
        have hne : k.val ≠ s.cachedTinyCount ⟨_, hclass⟩ := fun hc => hlast (Fin.ext hc)
        rw [Function.update_self] at hk
        omega
    · rw [Function.update_of_ne hi, Function.update_of_ne hi]
      rw [Function.update_of_ne hi] at hk
      exact h.cached i k hk
  · split
    · exact Same.ok h
    · exact Same.bind_left fun bmap _ => Same.ok (h.setBitmap _ bmap)

theorem freeInPools (c : Fin sizeClasses) (ptr : Addr) :
    ∀ (remaining i : Nat) {s t : Arena}, Alike s t →
      Same Alike (freeInPools c ptr remaining i s) (freeInPools c ptr remaining i t) := by
  intro remaining
  induction remaining with
  | zero =>
      intro i s t h
      exact Same.ok h
  | succ remaining ih =>
      intro i s t h
      rw [Arena.freeInPools, Arena.freeInPools]
      refine Same.bind_left fun k _ => ?_
      dsimp only
      rw [h.entry]
      split
      · refine (h.poolDeallocate _ ptr c).bind fun s' t' h' => ?_
        have hset :=
          h'.setEntry c k ⟨(s.entry c k).pool, ((s.entry c k).used + 2 ^ 64 - 1) % 2 ^ 64⟩
        have hgone := hset.delete (s.entry c k).pool
        rw [hset.isPoolEmpty]
        split
        · rw [hgone.manager]
          refine Same.bind_left fun last _ => ?_
          rw [hgone.entry]
          exact Same.ok ((hgone.setEntry c k _).setCount c _)
        · exact Same.ok hset
      · exact ih (i + 1) h

theorem freeSmall (h : Alike s t) (ptr : Addr) :
    Same Alike (s.freeSmall ptr) (t.freeSmall ptr) := by
  unfold Arena.freeSmall
  rw [h.poolMgr, h.headers]
  cases s.poolMgr with
  | none => exact Same.ok h
  | some mgr => exact Same.bind_left fun c _ => freeInPools c ptr _ 0 h

theorem freeLarge (h : Alike s t) (ptr : Addr) : Alike (s.freeLarge ptr) (t.freeLarge ptr) :=
  h.withMappings (by rw [h.mappings])

theorem deallocate (h : Alike s t) (ptr : Addr) :
    Same Alike (s.deallocate ptr) (t.deallocate ptr) := by
  unfold Arena.deallocate
  rw [h.headers]
  split
  · exact Same.ok h
  · split
    · exact h.freeTiny ptr
    · exact h.freeSmall ptr
    · exact Same.ok (h.freeLarge ptr)

end Alike

/-- A thread that has not allocated anything, with the same memory and after the same deletions. -/
def restarted (s : Arena) (deleted : List Addr) : Arena where
  toMappings := s.toMappings
  bitmaps := s.bitmaps
  deleted := deleted

theorem cleanup_alike (h : s.cleanup = .ok t) : Alike (s.restarted t.deleted) t := by
  unfold cleanup at h
  obtain ⟨small, -, h⟩ := bind_returns.mp h
  cases h
  exact ⟨rfl, rfl, rfl, fun i k hk => absurd hk (Nat.not_lt_zero _), rfl, rfl, rfl⟩

end Arena

/-! ### What comes after -/

namespace Heap

/-- All that a run gets to see is the same, and all that it has asked of the system. -/
def Agree (u v : Heap) : Prop :=
  v.live = u.live ∧ v.toMappings = u.toMappings ∧ v.bitmaps = u.bitmaps ∧ v.deleted = u.deleted

/-- The heaps differ in pointers that are not read. -/
structure Alike (u v : Heap) : Prop where
  arena : Arena.Alike u.toArena v.toArena
  live : v.live = u.live

theorem Alike.step {u v : Heap} (h : Alike u v) (op : MemoryOp) :
    Same Alike (u.step op) (v.step op) := by
  cases op with
  | allocate size os =>
      refine (h.arena.allocate size os).map ?_
      rintro ⟨ptr, s⟩ ⟨ptr', t⟩ ⟨hfst, hsnd⟩
      obtain rfl : ptr' = ptr := hfst
      unfold given
      rw [h.live]
      cases ptr' with
      | none => exact ⟨hsnd, rfl⟩
      | some ptr => exact ⟨hsnd, rfl⟩
  | deallocate ptr =>
      refine (h.arena.deallocate ptr).map fun s t hst => ⟨hst, ?_⟩
      rw [h.live]

/--
**After `cleanup` a thread goes on as a new one.**  Whatever is allocated and released
afterwards, it comes to the same, the pointers that are returned, the memory and the calls of the
system included, as if the thread had not allocated anything before; and where one run fails, so
does the other.
-/
theorem cleanup_restarts (s t : Arena) (h : s.cleanup = .ok t) (live : List (Addr × Nat))
    (ops : List MemoryOp) :
    Same Agree (ops.foldlM step ⟨s.restarted t.deleted, live⟩) (ops.foldlM step ⟨t, live⟩) := by
  have hsame : Same Alike (ops.foldlM step ⟨s.restarted t.deleted, live⟩)
      (ops.foldlM step ⟨t, live⟩) :=
    Same.foldlM (fun _ _ op hst => hst.step op) ops _ _ ⟨Arena.cleanup_alike h, rfl⟩
  exact hsame.mono fun u v hst =>
    ⟨hst.live, hst.arena.mappings, hst.arena.bitmaps, hst.arena.deleted⟩

/-- A block waits in a cache and there is a pool; what the pointer was is still there. -/
theorem cleanup_restarts_cached :
    ∃ (s t : Arena), s.cleanup = .ok t ∧ t.deleted = [4096] ∧ (∀ i k, t.cachedTiny i k = 4224) ∧
      Same Agree
        ([.allocate 8 { tinyPool := 8192 }].foldlM step ⟨s.restarted [4096], []⟩)
        ([.allocate 8 { tinyPool := 8192 }].foldlM step ⟨t, []⟩) := by
  let s : Arena :=
    { tinyPools := fun i => if i.val = 0 then some 4096 else none
      cachedTiny := fun _ _ => 4224
      cachedTinyCount := fun i => if i.val = 0 then 1 else 0
      headers := fun _ => ⟨0, 0⟩
      bitmaps := fun _ => clearBitmap }
  have hclean : s.cleanup = .ok { s with
      tinyPools := fun _ => none
      poolMgr := none
      cachedTinyCount := fun _ => 0
      deleted := [4096] } := rfl
  exact ⟨s, _, hclean, rfl, fun _ _ => rfl, cleanup_restarts s _ hclean [] _⟩

end Heap

/-! ### The pools of a thread

A pool is in a tiny slot of the cache, or counted in a class of the manager.  The list of all
of them is in the order in which `cleanup` comes to them.
-/

/-- Where the cache keeps a pointer to a pool. -/
inductive PoolSlot where
  | tiny (i : Fin tinyClasses)
  | small (c : Fin sizeClasses) (k : Fin maxPools)
deriving DecidableEq

namespace PoolSlot

/-- The slots in the order of the loops in `cleanup`. -/
def all : List PoolSlot :=
  (List.finRange tinyClasses).map .tiny ++
    ((List.finRange sizeClasses).flatMap fun c => (List.finRange maxPools).map (.small c))

theorem mem_all (x : PoolSlot) : x ∈ all := by
  unfold all
  cases x with
  | tiny i => simp
  | small c k => simp

theorem nodup_all : all.Nodup := by
  refine List.nodup_append.mpr ⟨?_, ?_, ?_⟩
  · exact (List.nodup_finRange _).map fun i j h => PoolSlot.tiny.inj h
  · refine List.nodup_flatMap.mpr ⟨fun c _ => ?_, ?_⟩
    · exact (List.nodup_finRange _).map fun k k' h => (PoolSlot.small.inj h).2
    · refine (List.nodup_finRange sizeClasses).imp fun {c c'} hne x hx hx' => ?_
      obtain ⟨k, -, rfl⟩ := List.mem_map.mp hx
      obtain ⟨k', -, hk'⟩ := List.mem_map.mp hx'
      exact hne (PoolSlot.small.inj hk').1.symm
  · intro x hx y hy hxy
    obtain ⟨i, -, rfl⟩ := List.mem_map.mp hx
    obtain ⟨c, -, hy⟩ := List.mem_flatMap.mp hy
    obtain ⟨k, -, rfl⟩ := List.mem_map.mp hy
    cases hxy

/-- One more slot has something. -/
theorem filterMap_update (f : PoolSlot → Option Addr) {x : PoolSlot} (hx : f x = none)
    (b : Addr) : (all.filterMap (Function.update f x (some b))).Perm (all.filterMap f ++ [b]) := by
  obtain ⟨l₁, l₂, hall⟩ := List.append_of_mem (mem_all x)
  have hnodup := nodup_all
  rw [hall] at hnodup ⊢
  obtain ⟨-, hcons, hcross⟩ := List.nodup_append.mp hnodup
  have hsame : ∀ {l : List PoolSlot}, x ∉ l →
      l.filterMap (Function.update f x (some b)) = l.filterMap f := by
    intro l hl
    refine List.filterMap_congr fun y hy => Function.update_of_ne ?_ _ _
    rintro rfl
    exact hl hy
  have h₁ : x ∉ l₁ := fun hc => hcross x hc x (List.mem_cons_self ..) rfl
  have h₂ : x ∉ l₂ := (List.nodup_cons.mp hcons).1
  rw [List.filterMap_append, List.filterMap_append, List.filterMap_cons, List.filterMap_cons,
    Function.update_self, hx, hsame h₁, hsame h₂]
  dsimp only
  rw [List.append_assoc]
  exact List.Perm.append_left _ (List.perm_append_singleton b _).symm

end PoolSlot

namespace Arena

variable {s t : Arena}

/-- The pool a slot points to. -/
def poolOf (s : Arena) : PoolSlot → Option Addr
  | .tiny i => s.tinyPools i
  | .small c k => if k.val < s.manager.counts c then some (s.entry c k).pool else none

theorem poolOf_tiny (s : Arena) (i : Fin tinyClasses) : s.poolOf (.tiny i) = s.tinyPools i := rfl

theorem poolOf_small (s : Arena) (c : Fin sizeClasses) (k : Fin maxPools) :
    s.poolOf (.small c k) =
      if k.val < s.manager.counts c then some (s.entry c k).pool else none := rfl

/-- The pools that the cache points to. -/
def owned (s : Arena) : List Addr := PoolSlot.all.filterMap s.poolOf

/-- A cache that points to nothing. -/
theorem owned_nil (htiny : ∀ i, s.tinyPools i = none) (hmgr : s.poolMgr = none) :
    s.owned = [] := by
  refine List.filterMap_eq_nil_iff.mpr fun x _ => ?_
  cases x with
  | tiny i => exact htiny i
  | small c k =>
      rw [poolOf_small, manager, hmgr]
      exact if_neg (Nat.not_lt_zero k.val)

theorem deletePools_eq (mgr : PoolManager) (c : Fin sizeClasses) :
    ∀ n i, i + n ≤ maxPools → deletePools mgr c n i =
      .ok ((((List.finRange maxPools).drop i).take n).map fun k => (mgr.pools c k).pool) := by
  intro n
  induction n with
  | zero =>
      intro i _
      rfl
  | succ n ih =>
      intro i hi
      have hlt : i < maxPools := by omega
      have href : poolRef i = .ok ⟨i, hlt⟩ := dif_pos hlt
      have hdrop : (List.finRange maxPools).drop i =
          ⟨i, hlt⟩ :: (List.finRange maxPools).drop (i + 1) := by
        rw [List.drop_eq_getElem_cons (by rw [List.length_finRange]; exact hlt),
          List.getElem_finRange]
        rfl
      rw [deletePools, href, bind_of_ok, ih (i + 1) (by omega), hdrop, List.take_succ_cons]
      rfl

/-- The pools of a class that are counted. -/
theorem filterMap_finRange {m : Nat} (n : Nat) (f : Fin m → Addr) :
    (List.finRange m).filterMap (fun k => if k.val < n then some (f k) else none) =
      ((List.finRange m).take n).map f := by
  have hlow : ∀ k ∈ (List.finRange m).take n, k.val < n := by
    intro k hk
    obtain ⟨i, hi, rfl⟩ := List.mem_take_iff_getElem.mp hk
    rw [List.getElem_finRange]
    exact (Nat.lt_min.mp hi).1
  have hhigh : ∀ k ∈ (List.finRange m).drop n, ¬ k.val < n := by
    intro k hk
    obtain ⟨i, hi, rfl⟩ := List.mem_drop_iff_getElem.mp hk
    rw [List.getElem_finRange]
    exact Nat.not_lt.mpr (Nat.le_add_right _ _)
  calc (List.finRange m).filterMap (fun k => if k.val < n then some (f k) else none)
      = ((List.finRange m).take n ++ (List.finRange m).drop n).filterMap
          (fun k => if k.val < n then some (f k) else none) := by rw [List.take_append_drop]
    _ = ((List.finRange m).take n).map f ++ [] := by
        rw [List.filterMap_append]
        congr 1
        · rw [← List.filterMap_eq_map]
          exact List.filterMap_congr fun k hk => if_pos (hlow k hk)
        · exact List.filterMap_eq_nil_iff.mpr fun k hk => if_neg (hhigh k hk)
    _ = ((List.finRange m).take n).map f := List.append_nil _

theorem deleteManager_eq (s : Arena) (hcounts : ∀ c, s.manager.counts c ≤ maxPools) :
    s.deleteManager = .ok ((List.finRange sizeClasses).flatMap fun c =>
      ((List.finRange maxPools).take (s.manager.counts c)).map fun k => (s.entry c k).pool) := by
  unfold deleteManager
  cases hmgr : s.poolMgr with
  | none =>
      have hzero : ∀ c, s.manager.counts c = 0 := by
        intro c
        unfold manager
        rw [hmgr]
        rfl
      have hnone : ((List.finRange sizeClasses).flatMap fun c =>
          ((List.finRange maxPools).take (s.manager.counts c)).map fun k =>
            (s.entry c k).pool) = [] :=
        List.flatMap_eq_nil_iff.mpr fun c _ => by rw [hzero]; rfl
      rw [hnone]
      rfl
  | some mgr =>
      have hmanager : s.manager = mgr := by
        unfold manager
        rw [hmgr]
        rfl
      unfold entry
      rw [hmanager] at hcounts ⊢
      have hclass : (fun c => deletePools mgr c (mgr.counts c) 0) = fun c => pure
          (((List.finRange maxPools).take (mgr.counts c)).map fun k => (mgr.pools c k).pool) :=
        funext fun c => deletePools_eq mgr c (mgr.counts c) 0
          (by rw [Nat.zero_add]; exact hcounts c)
      dsimp only
      rw [hclass, List.mapM_pure, pure_is_ok, bind_of_ok, List.flatMap_def]
      rfl

/-- `cleanup` deletes what the cache has. -/
theorem cleanup_owned (s : Arena) (hcounts : ∀ c, s.manager.counts c ≤ maxPools) :
    s.cleanup = .ok { s with
      tinyPools := fun _ => none
      poolMgr := none
      cachedTinyCount := fun _ => 0
      deleted := s.deleted ++ s.owned } := by
  have howned : s.owned = (List.finRange tinyClasses).filterMap s.tinyPools ++
      (List.finRange sizeClasses).flatMap fun c =>
        ((List.finRange maxPools).take (s.manager.counts c)).map fun k => (s.entry c k).pool := by
    unfold owned PoolSlot.all
    rw [List.filterMap_append, List.filterMap_map, List.filterMap_flatMap]
    congr 2
    funext c
    rw [List.filterMap_map, ← filterMap_finRange]
    rfl
  unfold cleanup
  dsimp only
  rw [deleteManager_eq s hcounts, bind_of_ok, howned]
  rfl

/-! ### How the pools of a cache change

A call of `allocate` may make one pool, and puts it into a slot that had none.
-/

/-- The same pools. -/
theorem owned_congr (htiny : t.tinyPools = s.tinyPools) (hmanager : t.manager = s.manager) :
    t.owned = s.owned := by
  have hpool : t.poolOf = s.poolOf := by
    funext x
    cases x with
    | tiny i => exact congrFun htiny i
    | small c k =>
        rw [poolOf_small, poolOf_small, entry, entry, hmanager]
  unfold owned
  rw [hpool]

theorem owned_tiny {i : Fin tinyClasses} (hi : s.tinyPools i = none) (fresh : Addr)
    (htiny : t.tinyPools = Function.update s.tinyPools i (some fresh))
    (hmanager : t.manager = s.manager) : t.owned.Perm (s.owned ++ [fresh]) := by
  have hpool : t.poolOf = Function.update s.poolOf (.tiny i) (some fresh) := by
    funext x
    cases x with
    | tiny j =>
        rw [poolOf_tiny, htiny]
        by_cases hj : j = i
        · rw [hj, Function.update_self, Function.update_self]
        · rw [Function.update_of_ne hj, Function.update_of_ne fun h => hj (PoolSlot.tiny.inj h),
            poolOf_tiny]
    | small c k =>
        rw [Function.update_of_ne fun h => PoolSlot.noConfusion h, poolOf_small, poolOf_small,
          entry, entry, hmanager]
  unfold owned
  rw [hpool]
  exact PoolSlot.filterMap_update _ hi fresh

theorem owned_grow {c : Fin sizeClasses} {k : Fin maxPools} (hk : k.val = s.manager.counts c)
    (fresh : Addr) : (s.grow c k fresh).owned.Perm (s.owned ++ [fresh]) := by
  have hpool : (s.grow c k fresh).poolOf =
      Function.update s.poolOf (.small c k) (some fresh) := by
    have hcounts : (s.grow c k fresh).manager.counts =
        Function.update s.manager.counts c (k.val + 1) := rfl
    funext x
    cases x with
    | tiny i =>
        rw [Function.update_of_ne fun h => PoolSlot.noConfusion h]
        rfl
    | small c' k' =>
        by_cases hself : (c', k') = (c, k)
        · cases hself
          have hentry : (s.grow c k fresh).entry c k = ⟨fresh, 1⟩ := setEntry_self _ c k _
          rw [Function.update_self, poolOf_small, hcounts, Function.update_self, hentry,
            if_pos (Nat.lt_succ_self _)]
        · have hentry : (s.grow c k fresh).entry c' k' = s.entry c' k' := setEntry_of_ne _ _ hself
          rw [Function.update_of_ne fun h => hself (by cases h; rfl), poolOf_small, poolOf_small,
            hentry, hcounts]
          by_cases hc : c' = c
          · subst hc
            rw [Function.update_self]
            have hne : k'.val ≠ k.val := fun h => hself (by rw [Fin.ext h])
            have hiff : k'.val < k.val + 1 ↔ k'.val < s.manager.counts c' := by omega
            simp only [hiff]
          · rw [Function.update_of_ne hc]
  unfold owned
  rw [hpool]
  refine PoolSlot.filterMap_update _ ?_ fresh
  rw [poolOf_small, hk, if_neg (Nat.lt_irrefl _)]

/-- A pool that `new` returns, if any, is added to what the cache has. -/
def Gains (s : Arena) (os : MemoryAnswers) (t : Arena) : Prop :=
  t.owned = s.owned ∨ ∃ fresh, (fresh = os.tinyPool ∨ os.memoryPool = some fresh) ∧
    t.owned.Perm (s.owned ++ [fresh])

theorem tinyPool_gains (s : Arena) (i : Fin tinyClasses) (os : MemoryAnswers) :
    Gains s os (s.tinyPool i os.tinyPool).2 := by
  unfold tinyPool
  cases hi : s.tinyPools i with
  | some pool => exact Or.inl rfl
  | none => exact Or.inr ⟨os.tinyPool, Or.inl rfl, owned_tiny hi os.tinyPool rfl rfl⟩

theorem allocTiny_gains {size : Nat} {os : MemoryAnswers} {r : Option Addr}
    (h : s.allocTiny size os = .ok (r, t)) : Gains s os t := by
  unfold allocTiny at h
  split at h
  case isFalse =>
    cases h
    exact Or.inl rfl
  rename_i hclass
  dsimp only at h
  split at h
  · obtain ⟨k, -, h⟩ := bind_returns.mp h
    cases h
    exact Or.inl rfl
  · have hgains := tinyPool_gains s ⟨_, hclass⟩ os
    split at h
    · cases h
      exact hgains
    · cases h
      exact hgains

theorem allocate_gains (h : Barren s) {size : Nat} {os : MemoryAnswers} {r : Option Addr}
    (ht : s.allocate size os = .ok (r, t)) : Gains s os t := by
  unfold Arena.allocate at ht
  cases hpath : allocatePath size with
  | none =>
      rw [hpath] at ht
      cases ht
      exact Or.inl rfl
  | some path =>
      rw [hpath] at ht
      cases path with
      | tiny => exact allocTiny_gains ht
      | small =>
          obtain ⟨u, hu, -, -, hfails⟩ :=
            h.allocSmall (c := ⟨_, smallClass_lt_sizeClasses hpath⟩) rfl os
          cases hu.symm.trans ht
          have hmanaged : s.managed.owned = s.owned := owned_congr rfl rfl
          cases hfails with
          | kept _ => exact Or.inl hmanaged
          | grown k fresh hk hfresh =>
              refine Or.inr ⟨fresh, Or.inr hfresh, ?_⟩
              rw [← hmanaged]
              exact owned_grow hk fresh
      | large =>
          cases Except.ok.inj ht
          exact Or.inl rfl

end Arena

/-! ### Threads that clean up

A call of `cleanup` may come anywhere in a run, any number of times, and the thread goes on after
it.
-/

/-- A call of `allocate`, of `deallocate` or of `cleanup`. -/
inductive ThreadOp where
  | call (op : MemoryOp)
  | cleanup

namespace Heap

variable {s t : Heap}

/-- A call is a step of the heap, and `cleanup` leaves the blocks that the program holds. -/
def threadStep (s : Heap) : ThreadOp → Except Trap Heap
  | .call op => s.step op
  | .cleanup => (fun t => ⟨t, s.live⟩) <$> s.toArena.cleanup

/-- What is given back was given, and `new` returns no pool that there is already. -/
def ThreadPromised (s : Heap) : ThreadOp → Prop
  | .call (.allocate _ os) => os.tinyPool ∉ s.owned ∧ ∀ fresh, os.memoryPool = some fresh →
      fresh ∉ s.owned
  | .call (.deallocate ptr) => s.Released (.deallocate ptr)
  | .cleanup => True

/-- Runs in which `new` returns no pool that there is already. -/
def thread : Machine Heap ThreadOp Trap where
  start s := ∃ headers bitmaps, s = initial headers bitmaps
  admits := ThreadPromised
  step := threadStep

/-- What a call may do to the pools: it deletes none, and may add one. -/
def KeepsPools (s t : Heap) : Prop :=
  t.deleted = s.deleted ∧
    (t.owned = s.owned ∨ ∃ fresh, fresh ∉ s.owned ∧ t.owned.Perm (s.owned ++ [fresh]))

theorem HeapOK.call_keepsPools (h : HeapOK s) {op : MemoryOp} (hop : s.ThreadPromised (.call op))
    (hs : s.step op = .ok t) : KeepsPools s t := by
  cases op with
  | allocate size os =>
      obtain ⟨r, hr, halloc, ht, -⟩ := h.allocate size os
      have hgiven : t.toArena = r.2 := by
        rw [Except.ok.inj (hs.symm.trans ht)]
        obtain ⟨ptr, u⟩ := r
        cases ptr <;> rfl
      unfold KeepsPools
      rw [hgiven]
      refine ⟨halloc.deleted, ?_⟩
      rcases Arena.allocate_gains h.barren hr with hsame | ⟨fresh, hfresh, hperm⟩
      · exact Or.inl hsame
      · exact Or.inr ⟨fresh, hfresh.elim (fun hf => hf ▸ hop.1) (hop.2 fresh), hperm⟩
  | deallocate ptr =>
      obtain ⟨u, hu, -, hcache, hdeleted⟩ := h.deallocate hop
      rw [Except.ok.inj (hs.symm.trans hu)]
      refine ⟨hdeleted, Or.inl (Arena.owned_congr ?_ ?_)⟩
      · rw [hcache]
      · unfold Arena.manager
        rw [hcache]

theorem ThreadPromised.released {op : MemoryOp} (h : s.ThreadPromised (.call op)) :
    s.Released op := by
  cases op with
  | allocate size os => trivial
  | deallocate ptr => exact h

/-- `cleanup` takes all pools. -/
theorem HeapOK.cleaned (h : HeapOK s) :
    ∃ u, s.toArena.cleanup = .ok u ∧ HeapOK ⟨u, s.live⟩ ∧ u.deleted = s.deleted ++ s.owned ∧
      u.owned = [] := by
  refine ⟨_, Arena.cleanup_owned s.toArena h.barren.counts, ⟨⟨fun i pool hi => ?_,
    fun c k hk => ?_, fun c => ?_, fun i => rfl⟩, h.live⟩, rfl, ?_⟩
  · cases hi
  · exact absurd hk (Nat.not_lt_zero _)
  · exact Nat.zero_le _
  · exact Arena.owned_nil (fun _ => rfl) rfl

theorem pools_of_reachable (h : thread.Reachable s) : HeapOK s ∧ s.owned.Nodup := by
  refine h.invariant (I := fun s => HeapOK s ∧ s.owned.Nodup) ?_ ?_
  · rintro s ⟨headers, bitmaps, rfl⟩
    have hnone : (initial headers bitmaps).owned = [] := Arena.owned_nil (fun _ => rfl) rfl
    exact ⟨HeapOK.of_initial headers bitmaps, by rw [hnone]; exact List.nodup_nil⟩
  · rintro s op t ⟨hok, hnodup⟩ hop hs
    cases op with
    | call op =>
        refine ⟨hok.step (ThreadPromised.released hop) hs, ?_⟩
        rcases (hok.call_keepsPools hop hs).2 with hsame | ⟨fresh, hfresh, hperm⟩
        · rw [hsame]
          exact hnodup
        · refine hperm.nodup_iff.mpr (List.nodup_append.mpr
            ⟨hnodup, List.pairwise_singleton _ _, fun x hx y hy hxy => ?_⟩)
          rw [hxy, List.mem_singleton.mp hy] at hx
          exact hfresh hx
    | cleanup =>
        obtain ⟨u, hu, hok', -, hnone⟩ := hok.cleaned
        obtain ⟨r, hr, rfl⟩ := map_returns.mp hs
        cases hu.symm.trans hr
        refine ⟨hok', ?_⟩
        show u.owned.Nodup
        rw [hnone]
        exact List.nodup_nil

/--
**Each pool is deleted once.**  However a thread allocates, releases and cleans up, the pools it
has made and not deleted are all different, and none gets lost: a call of `allocate` or
`deallocate` deletes none of them and forgets none, and `cleanup` deletes them all, each once, so
that none is left for the next one.
-/
theorem cleanup_deletes_once (s : Heap) (h : thread.Reachable s) :
    s.owned.Nodup ∧
      (∀ op t, s.ThreadPromised (.call op) → s.step op = .ok t → KeepsPools s t) ∧
      ∃ u v, s.toArena.cleanup = .ok u ∧ u.deleted = s.deleted ++ s.owned ∧ u.owned = [] ∧
        u.cleanup = .ok v ∧ v.deleted = u.deleted := by
  obtain ⟨hok, hnodup⟩ := pools_of_reachable h
  obtain ⟨u, hu, hoku, hdeleted, hnone⟩ := hok.cleaned
  obtain ⟨v, hv, -, hlast, -⟩ := hoku.cleaned
  refine ⟨hnodup, fun op t hop hs => hok.call_keepsPools hop hs, u, v, hu, hdeleted, hnone, hv, ?_⟩
  have hrest : v.deleted = u.deleted ++ u.owned := hlast
  rw [hrest, hnone, List.append_nil]

instance instDecidableThreadPromised (s : Heap) (op : ThreadOp) :
    Decidable (thread.admits s op) :=
  match op with
  | .call (.allocate _ os) => @instDecidableAnd _ _ (Machine.decidableFresh s.owned os.tinyPool)
      (@Option.decidableForallMem _ _ (Machine.decidableFresh s.owned) os.memoryPool)
  | .call (.deallocate ptr) => inferInstanceAs (Decidable (machine.admits s (.deallocate ptr)))
  | .cleanup => isTrue trivial

/-- Two pools are made before a first `cleanup`, and one after it. -/
theorem cleanup_deletes_once_again :
    ∃ s, thread.Reachable s ∧ s.owned = [4096] ∧ s.owned.Nodup ∧
      ∃ u v, s.toArena.cleanup = .ok u ∧ u.deleted = [4096, 8192, 4096] ∧ u.owned = [] ∧
        u.cleanup = .ok v ∧ v.deleted = u.deleted := by
  obtain ⟨s, hs, hP⟩ := Machine.exists_reachable (m := thread)
    (s := initial (fun _ => ⟨0, 0⟩) fun _ => clearBitmap) ⟨_, _, rfl⟩
    [.call (.allocate 8 { tinyPool := 4096 }), .call (.allocate 100 { memoryPool := some 8192 }),
      .cleanup, .call (.allocate 9 { tinyPool := 4096 })]
    (fun s => decide (s.owned = [4096] ∧ s.deleted = [4096, 8192])) (by decide +kernel)
  obtain ⟨howned, hdeleted⟩ := of_decide_eq_true hP
  obtain ⟨hnodup, -, u, v, hu, hgone, hnone, hv, hlast⟩ := cleanup_deletes_once s hs
  rw [howned, hdeleted] at hgone
  exact ⟨s, hs, howned, hnodup, u, v, hu, hgone, hnone, hv, hlast⟩

end Heap

end Ytl.Memory.Allocator
