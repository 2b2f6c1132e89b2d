/-
Every mapping is given back once, as it was made.

For one block all depends on its header.  Over a run it has to be known besides that no header
is overwritten while its block is out, which is so as long as `mmap` does not return pages
that are in use.

That is promised of the system, and that what it returns is the address of a page.  The program is
promised to give back only what it was given and has not given back since.  The record of calls to
`mmap` and `munmap` is kept with the arena, and the two are compared through the blocks that are
out, each of which stands for a mapping that is still to be undone.
-/
import Ytl.Proofs.Memory.Heap
import Ytl.Proofs.Memory.Large

namespace Ytl.Memory.Allocator

namespace Pages

open Heap

/-- What a block was mapped as. -/
def mapping (b : Addr × Nat) : Addr × BitVec 64 :=
  (b.1 - headerSize, allocSize pageSize (BitVec.ofNat 64 b.2))

/-- The program gives back what it was given; the system maps whole pages, at an address where
no block is out. -/
def Promised (s : Heap) : MemoryOp → Prop
  | .allocate _ os => ∀ pages ∈ os.mapped, pages.toNat % pageSize = 0 ∧
      pages + headerSize ∉ s.live.map Prod.fst
  | .deallocate ptr => s.Released (.deallocate ptr)

/-- The runs of a program for which pages are mapped as `mmap` maps them. -/
def machine : Machine Heap MemoryOp Trap where
  start s := ∃ headers bitmaps, s = initial headers bitmaps
  admits := Promised
  step := Heap.step

variable {s t : Heap} {size : Nat} {os : MemoryAnswers} {ptr : Addr}

theorem Promised.released {op : MemoryOp} (h : Promised s op) : s.Released op := by
  cases op with
  | allocate size os => trivial
  | deallocate ptr => exact h

/-! ### The invariant

A block that is out has the header it was given, whatever has been done since.
-/

/-- The header of a block is as `alloc_large` has written it. -/
structure Headed (headers : Headers) (b : Addr × Nat) : Prop where
  ne_null : b.1 ≠ 0
  size : b.2 < 2 ^ 48
  data : (headerOf headers b.1).data = largeData b.2

/-- What is mapped and not unmapped are the blocks that are out, each with its header. -/
structure Balanced (s : Heap) : Prop where
  ok : HeapOK s
  nodup : (s.live.map Prod.fst).Nodup
  headed : ∀ b ∈ s.live, Headed s.headers b
  perm : s.mapped.Perm (s.unmapped ++ s.live.map mapping)

theorem headed_new (h : Headers) {pages : Addr} (hpages : pages.toNat % pageSize = 0)
    (hsize : size < 2 ^ 48) : Headed (buildLarge h pages size).2 (pages + headerSize, size) := by
  refine ⟨fun hnull => ?_, hsize, headerOf_placeHeader h pages _⟩
  have hsum : (pages.toNat + 64) % 2 ^ 64 = 0 := congrArg BitVec.toNat hnull
  have hlt := pages.isLt
  unfold pageSize at hpages
  omega

/-- Writing the header of another block. -/
theorem Headed.of_new {headers : Headers} {b : Addr × Nat} (hb : Headed headers b) {pages : Addr}
    (hne : b.1 ≠ pages + headerSize) : Headed (buildLarge headers pages size).2 b := by
  have hblock : b.1 - headerSize ≠ pages := by
    intro hc
    apply hne
    rw [← hc, BitVec.sub_add_cancel]
  have hsame : headerOf (buildLarge headers pages size).2 b.1 = headerOf headers b.1 :=
    if_neg hblock
  exact ⟨hb.ne_null, hb.size, by rw [hsame]; exact hb.data⟩

theorem freeLarge_headed {a : Arena} (h : Headed a.headers (ptr, size)) :
    a.freeLarge ptr = { a with
      unmapped := a.unmapped ++ [mapping (ptr, size)] } := by
  unfold Arena.freeLarge
  rw [Mappings.freeLarge_of_data pageSize h.size h.data]
  rfl

/-! ### The two calls

A block that is new lies in pages of its own, so its header is not the header of any other
block.
-/

theorem le_of_allocatePath {path : Path} (h : allocatePath size = some path) :
    size ≤ 2 ^ 47 := by
  unfold allocatePath at h
  by_contra hlt
  rw [if_pos (Or.inr (by rw [Nat.one_shiftLeft]; omega))] at h
  cases h

/-- Nothing has been mapped, and the headers are what they were. -/
theorem Balanced.of_record (h : Balanced s) {u : Arena} (hrecord : Arena.SameRecord s.toArena u)
    (hok : HeapOK ⟨u, s.live⟩) : Balanced ⟨u, s.live⟩ := by
  refine ⟨hok, h.nodup, fun x hx => ?_, ?_⟩
  · show Headed u.headers x
    rw [hrecord.headers]
    exact h.headed x hx
  · show u.mapped.Perm (u.unmapped ++ s.live.map mapping)
    rw [hrecord.mappings]
    exact h.perm

theorem Balanced.allocate (h : Balanced s) (hpromise : Promised s (.allocate size os))
    (hs : s.step (.allocate size os) = .ok t) : Balanced t := by
  obtain ⟨r, -, halloc, ht, hok⟩ := h.ok.allocate size os
  obtain rfl : t = s.given size r := Except.ok.inj (hs.symm.trans ht)
  cases halloc with
  | nothing u _ _ hrecord _ => exact h.of_record hrecord hok
  | small c u _ _ _ hrecord _ => exact h.of_record hrecord hok
  | mapped pages hpath hpages =>
      obtain ⟨haligned, hfree⟩ := hpromise pages hpages
      refine ⟨hok, ?_, fun x hx => ?_, ?_⟩
      · show ((s.live ++ [(pages + headerSize, size)]).map Prod.fst).Nodup
        rw [List.map_append]
        refine List.nodup_append.mpr
          ⟨h.nodup, List.pairwise_singleton _ _, fun x hx y hy hxy => ?_⟩
        rw [hxy, List.mem_singleton.mp hy] at hx
        exact hfree hx
      · rcases List.mem_append.mp hx with hx | hx
        · refine (h.headed x hx).of_new fun hc => hfree ?_
          rw [← hc]
          exact List.mem_map_of_mem hx
        · rw [List.mem_singleton.mp hx]
          have hsize := le_of_allocatePath hpath
          exact headed_new s.headers haligned (by omega)
      · have hnew : (pages, allocSize pageSize (BitVec.ofNat 64 size)) =
            mapping (pages + headerSize, size) := by
          unfold mapping
          rw [BitVec.add_sub_cancel]
        show (s.mapped ++ [(pages, allocSize pageSize (BitVec.ofNat 64 size))]).Perm
          (s.unmapped ++ (s.live ++ [(pages + headerSize, size)]).map mapping)
        rw [hnew, List.map_append, ← List.append_assoc]
        exact h.perm.append_right _

theorem Balanced.deallocate (h : Balanced s) (hptr : s.Released (.deallocate ptr))
    (hs : s.step (.deallocate ptr) = .ok t) : Balanced t := by
  have hok : HeapOK t := h.ok.step hptr hs
  obtain ⟨b, hb, hgiven⟩ := map_returns.mp hs
  rcases hptr with rfl | hmem
  · -- the null pointer is no block
    obtain rfl : b = s.toArena := (Except.ok.inj hb).symm
    have hlive : s.live.eraseP (fun b => b.1 = 0) = s.live := by
      refine List.eraseP_of_forall_not fun x hx => ?_
      simpa using (h.headed x hx).ne_null
    rw [hlive] at hgiven
    obtain rfl : t = s := hgiven.symm
    exact h
  · obtain ⟨x, hx, hxptr⟩ := List.mem_map.mp hmem
    obtain ⟨⟨y, size⟩, l₁, l₂, -, hy, hsplit, herase⟩ :=
      List.exists_of_eraseP hx (p := fun b => decide (b.1 = ptr)) (decide_eq_true hxptr)
    obtain rfl : y = ptr := of_decide_eq_true hy
    have hlive : (y, size) ∈ s.live := by rw [hsplit]; simp
    have hhead := h.headed _ hlive
    unfold Arena.deallocate at hb
    rw [if_neg hhead.ne_null, (h.ok.live _ hlive).2] at hb
    obtain rfl : b = s.freeLarge y := (Except.ok.inj hb).symm
    rw [freeLarge_headed hhead, herase] at hgiven
    obtain rfl := hgiven.symm
    have hnodup := h.nodup
    have hperm := h.perm
    rw [hsplit] at hnodup hperm
    refine ⟨hok, ?_, fun x hx => h.headed x ?_, ?_⟩
    · refine hnodup.sublist (List.Sublist.map Prod.fst ?_)
      exact List.Sublist.append_left (List.sublist_cons_self _ _) l₁
    · rw [hsplit]
      rcases List.mem_append.mp hx with hx | hx
      · exact List.mem_append_left _ hx
      · exact List.mem_append_right _ (List.mem_cons_of_mem _ hx)
    · refine hperm.trans ?_
      show (s.unmapped ++ (l₁ ++ (y, size) :: l₂).map mapping).Perm
        (s.unmapped ++ [mapping (y, size)] ++ (l₁ ++ l₂).map mapping)
      rw [List.append_assoc]
      refine List.Perm.append_left _ ?_
      rw [List.map_append, List.map_cons, List.map_append]
      exact List.perm_middle

theorem Balanced.step (h : Balanced s) {op : MemoryOp} (hpromise : Promised s op)
    (hs : s.step op = .ok t) : Balanced t := by
  cases op with
  | allocate size os => exact h.allocate hpromise hs
  | deallocate ptr => exact h.deallocate hpromise hs

theorem balanced_of_reachable (h : machine.Reachable s) : Balanced s := by
  refine h.invariant (I := Balanced) ?_ fun s op t hI hpromise hs => hI.step hpromise hs
  rintro s ⟨headers, bitmaps, rfl⟩
  exact ⟨HeapOK.of_initial headers bitmaps, List.nodup_nil,
    fun b hb => absurd hb List.not_mem_nil, List.Perm.refl _⟩

/--
**Pages are mapped and unmapped in balance.**  However a program allocates and releases blocks,
what was mapped for it is what `munmap` was called with and what its blocks lie in, each mapping
once, with the address and the length that `mmap` was called with; and no two of its blocks have
the same address.
-/
theorem pages_balanced (s : Heap) (h : machine.Reachable s) :
    s.mapped.Perm (s.unmapped ++ s.live.map mapping) ∧ (s.live.map Prod.fst).Nodup :=
  ⟨(balanced_of_reachable h).perm, (balanced_of_reachable h).nodup⟩

instance instDecidablePromised (s : Heap) (op : MemoryOp) : Decidable (machine.admits s op) :=
  match op with
  | .allocate _ os => @Option.decidableForallMem Addr _ (fun pages => @instDecidableAnd _ _
      (Nat.decEq (pages.toNat % pageSize) 0)
      (Machine.decidableFresh (s.live.map Prod.fst) (pages + headerSize))) os.mapped
  | .deallocate ptr => inferInstanceAs (Decidable (Heap.machine.admits s (.deallocate ptr)))

/-- Two blocks; the first is released, and its pages are mapped again. -/
theorem pages_balanced_reused :
    ∃ s, machine.Reachable s ∧ s.live.length = 2 ∧
      s.unmapped = [(65536, 1052672)] ∧ s.mapped.Perm (s.unmapped ++ s.live.map mapping) := by
  obtain ⟨s, hs, hP⟩ := Machine.exists_reachable (m := machine)
    (s := initial (fun _ => ⟨0, 0⟩) fun _ => clearBitmap) ⟨_, _, rfl⟩
    [.allocate (2 ^ 20) { mapped := some 65536 }, .allocate (2 ^ 21) { mapped := some 4194304 },
      .allocate 64 {}, .deallocate 65600, .allocate (2 ^ 20 + 1) { mapped := some 65536 }]
    (fun s => decide (s.live.length = 2 ∧ s.unmapped = [(65536, 1052672)])) (by decide +kernel)
  obtain ⟨hlive, hunmapped⟩ := of_decide_eq_true hP
  exact ⟨s, hs, hlive, hunmapped, (pages_balanced s hs).1⟩

end Pages

end Ytl.Memory.Allocator
