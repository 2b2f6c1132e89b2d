/-
What the destructor frees.

The destructor visits the slots in order.  A slot whose state is not `FREE` when
its turn comes has its descriptor closed — again by the pool's own `close`, so
every slot on the walk behind it is released — and then its own buffer freed; but
the slot itself is not reset.  A later slot whose walk leads back to it therefore
releases it a second time.

`Below h j` says that the walk from `h` comes to `j`.  When the destructor has
returned, the buffer of a slot `j` in use has been freed once if some walk comes
to `j`, and once more if no walk from an earlier slot does (`destroy_spec`).
-/
import Ytl.Proofs.Udp.Slots

namespace Ytl.Udp.Process

/-- The walk from `h` comes to `j` after `h`. -/
def Below (s : Process) (h j : Fin maxConnections) : Prop :=
  ∃ l, s.Walk h (h :: l) ∧ j ∈ l

theorem Below.iff_mem {s : Process} {h j : Fin maxConnections} {l : List (Fin maxConnections)}
    (hw : s.Walk h (h :: l)) : s.Below h j ↔ j ∈ l := by
  constructor
  · rintro ⟨l', hw', hj⟩
    have heq := hw.unique hw'
    rw [List.cons.injEq] at heq
    rw [heq.2]
    exact hj
  · intro hj
    exact ⟨l, hw, hj⟩

theorem Below.not_free {s : Process} {h j : Fin maxConnections} (hb : s.Below h j) :
    ¬ s.IsFree h ∧ ¬ s.IsFree j := by
  obtain ⟨l, hw, hj⟩ := hb
  exact ⟨hw.not_stop h (by simp), hw.not_stop j (by simp [hj])⟩

/-- A slot below another has a walk, and everything on it is below that other slot. -/
theorem Below.walk {s : Process} {h j : Fin maxConnections} (hb : s.Below h j) :
    ∃ l, s.Walk j l ∧ ∀ k ∈ l, s.Below h k := by
  obtain ⟨l, hw, hj⟩ := hb
  cases hw with
  | step hbusy hn hw' =>
      obtain ⟨l', hl', hsuf⟩ := hw'.suffix_of_mem hj
      exact ⟨l', hl', fun k hk => ⟨l, Trail.step hbusy hn hw', hsuf.subset hk⟩⟩

theorem Below.trans {s : Process} {h k j : Fin maxConnections} (hb : s.Below h k)
    (hb' : s.Below k j) : s.Below h j := by
  obtain ⟨l, hw, hall⟩ := hb.walk
  obtain ⟨l', hw', hj⟩ := hb'
  rw [hw.unique hw'] at hall
  exact hall j (by simp [hj])

/-- Some slot of the list has `j` below it. -/
def Touched (s : Process) (pre : List (Fin maxConnections)) (j : Fin maxConnections) : Prop :=
  ∃ h ∈ pre, s.Below h j

/-- Some earlier slot has `j` below it. -/
def TouchedBefore (s : Process) (j : Fin maxConnections) : Prop := ∃ h, h < j ∧ s.Below h j

theorem touched_concat {s : Process} {pre : List (Fin maxConnections)}
    {k j : Fin maxConnections} :
    s.Touched (pre ++ [k]) j ↔ s.Touched pre j ∨ s.Below k j := by
  unfold Touched
  constructor
  · rintro ⟨h, hmem, hb⟩
    rcases List.mem_append.mp hmem with hpre | hk
    · exact Or.inl ⟨h, hpre, hb⟩
    · rw [List.mem_singleton.mp hk] at hb
      exact Or.inr hb
  · rintro (⟨h, hmem, hb⟩ | hb)
    · exact ⟨h, by simp [hmem], hb⟩
    · exact ⟨k, by simp, hb⟩

/-- What has been visited before `k` is what lies before it in the order. -/
theorem mem_pre_iff {pre post : List (Fin maxConnections)} {k : Fin maxConnections}
    (h : List.finRange maxConnections = pre ++ k :: post) (j : Fin maxConnections) :
    j ∈ pre ↔ j < k := by
  have hsorted : (pre ++ k :: post).Pairwise (· < ·) := by
    rw [← h]
    exact List.pairwise_lt_finRange maxConnections
  obtain ⟨-, hpost, hcross⟩ := List.pairwise_append.mp hsorted
  constructor
  · intro hj
    exact hcross j hj k (by simp)
  · intro hlt
    have hmem : j ∈ pre ++ k :: post := by
      rw [← h]
      exact List.mem_finRange j
    rcases List.mem_append.mp hmem with hj | hj
    · exact hj
    · exfalso
      rcases List.mem_cons.mp hj with heq | hj
      · exact absurd hlt (by rw [heq]; exact lt_irrefl k)
      · exact absurd hlt (not_lt.mpr (le_of_lt ((List.pairwise_cons.mp hpost).1 j hj)))

/-! ### The loop

When the slots in `pre` had their turn, the slots below them have been reset and no others.
So what the walk behind the next slot still meets is the walk it had at the start, cut off at
the first slot that has been reset, and a slot may be freed in the turn of another one and
again in its own.
-/

open Classical in
/-- How often a slot's buffer has been freed when the slots in `pre` had their turn. -/
noncomputable def timesFreed (s : Process) (pre : List (Fin maxConnections))
    (j : Fin maxConnections) : Nat :=
  (if s.Touched pre j then 1 else 0) +
    if j ∈ pre ∧ ¬ s.IsFree j ∧ ¬ s.TouchedBefore j then 1 else 0

/-- The state of the loop when the slots in `pre` had their turn: the slots below
them have been reset, the others are as at the start. -/
structure Destroying (s : Process) (pre : List (Fin maxConnections)) (t : Process) : Prop where
  reset : ∀ j, s.Touched pre j → t.conns j = {}
  kept : ∀ j, ¬ s.Touched pre j → t.conns j = s.conns j
  walks : ∀ j ∈ pre, ¬ s.IsFree j → ∃ l, s.Walk j l
  blocks : t.blocks = s.blocks
  freed : ∃ F : List (Fin maxConnections), t.freed = s.freed ++ F.flatMap s.bufferIds ∧
    ∀ j, F.count j = s.timesFreed pre j

namespace Destroying

variable {s t t' : Process} {pre post : List (Fin maxConnections)} {j k : Fin maxConnections}

theorem init (s : Process) : Destroying s [] s := by
  have hno : ∀ j, ¬ s.Touched [] j := by
    rintro j ⟨h, hmem, -⟩
    simp at hmem
  refine ⟨fun j hj => absurd hj (hno j), fun _ _ => rfl, ?_, rfl, [], by simp, ?_⟩
  · intro j hj
    simp at hj
  · intro j
    simp [timesFreed, hno j]

theorem isFree_iff (h : Destroying s pre t) : t.IsFree j ↔ s.IsFree j ∨ s.Touched pre j := by
  by_cases hj : s.Touched pre j
  · simp [IsFree, h.reset j hj, hj]
  · simp [IsFree, h.kept j hj, hj]

/-- A slot that is still in use was in use from the start and is below no slot that
had its turn. -/
theorem busy (h : Destroying s pre t) (hj : ¬ t.IsFree j) :
    ¬ s.IsFree j ∧ ¬ s.Touched pre j := by
  rw [h.isFree_iff] at hj
  exact not_or.mp hj

theorem next_eq (h : Destroying s pre t) (hj : ¬ t.IsFree j) : t.next j = s.next j := by
  unfold next
  simp only [h.kept j (h.busy hj).2]

theorem bufferIds_eq (h : Destroying s pre t) (hj : ¬ t.IsFree j) :
    t.bufferIds j = s.bufferIds j := by
  unfold bufferIds
  rw [h.kept j (h.busy hj).2]

/-- A walk of the loop's state is the start of a walk of the first state. -/
theorem walk_extend (h : Destroying s pre t) {l : List (Fin maxConnections)}
    (hw : t.Walk j l) :
    ∃ rest, s.Walk j (l ++ rest) ∧ ∀ i ∈ rest, s.Touched pre i := by
  refine Trail.extend (R := s.Touched pre) (fun x hx => h.isFree_iff.mp hx) ?_
    (fun x hx => h.next_eq hx) ?_ hw
  · intro x hx hfree
    exact hx (h.isFree_iff.mpr (Or.inl hfree))
  · rintro x ⟨i, hi, hb⟩
    obtain ⟨l, hl, hall⟩ := hb.walk
    exact ⟨l, hl, fun y hy => ⟨i, hi, hall y hy⟩⟩

theorem walk_cut (h : Destroying s pre t) {l : List (Fin maxConnections)}
    (hw : s.Walk j l) : ∃ l', t.Walk j l' :=
  hw.cut (fun _ hx => h.isFree_iff.mpr (Or.inl hx)) (fun _ hx => h.next_eq hx)

theorem walks_concat (h : Destroying s pre t) (hk : ¬ s.IsFree k → ∃ l, s.Walk k l) :
    ∀ j ∈ pre ++ [k], ¬ s.IsFree j → ∃ l, s.Walk j l := by
  intro j hj hbusy
  rcases List.mem_append.mp hj with hpre | hlast
  · exact h.walks j hpre hbusy
  · rw [List.mem_singleton.mp hlast] at hbusy ⊢
    exact hk hbusy

/-! #### A slot that is not in use, or has already been released -/

section Free

variable (hord : List.finRange maxConnections = pre ++ k :: post) (hfree : t.IsFree k)

include hfree

/-- What is below `k` has been touched along with `k`. -/
theorem touched_free (h : Destroying s pre t) (j : Fin maxConnections) :
    s.Touched (pre ++ [k]) j ↔ s.Touched pre j := by
  rw [touched_concat]
  refine ⟨fun hor => hor.elim id fun hb => ?_, Or.inl⟩
  rcases h.isFree_iff.mp hfree with hk | ⟨i, hi, hb'⟩
  · exact absurd hk hb.not_free.1
  · exact ⟨i, hi, hb'.trans hb⟩

include hord

theorem timesFreed_of_free (h : Destroying s pre t) (j : Fin maxConnections) :
    s.timesFreed (pre ++ [k]) j = s.timesFreed pre j := by
  have hmem : (j ∈ pre ++ [k] ∧ ¬ s.IsFree j ∧ ¬ s.TouchedBefore j) ↔
      (j ∈ pre ∧ ¬ s.IsFree j ∧ ¬ s.TouchedBefore j) := by
    refine ⟨fun ⟨hj, hbusy, hnot⟩ => ⟨?_, hbusy, hnot⟩, fun ⟨hj, hr⟩ => ⟨by simp [hj], hr⟩⟩
    rcases List.mem_append.mp hj with hpre | hk
    · exact hpre
    · exfalso
      rw [List.mem_singleton.mp hk] at hbusy hnot
      obtain ⟨i, hi, hb⟩ := (h.isFree_iff.mp hfree).resolve_left hbusy
      exact hnot ⟨i, (mem_pre_iff hord i).mp hi, hb⟩
  classical
  unfold timesFreed
  simp only [h.touched_free hfree, hmem]

theorem step_free (h : Destroying s pre t) : Destroying s (pre ++ [k]) t := by
  have htouch := h.touched_free hfree
  refine ⟨fun j hj => h.reset j ((htouch j).mp hj), fun j hj => h.kept j fun hc => hj
    ((htouch j).mpr hc), h.walks_concat fun hbusy => ?_, h.blocks, ?_⟩
  · obtain ⟨i, -, hb⟩ := (h.isFree_iff.mp hfree).resolve_left hbusy
    obtain ⟨l, hl, -⟩ := hb.walk
    exact ⟨l, hl⟩
  · obtain ⟨F, hF, hcount⟩ := h.freed
    refine ⟨F, hF, fun j => ?_⟩
    rw [hcount j, h.timesFreed_of_free hord hfree]

end Free

/-! #### A slot in use -/

section Busy

variable (hord : List.finRange maxConnections = pre ++ k :: post) {l : List (Fin maxConnections)}
  (hw : t.Walk k (k :: l))

include hw

/-- The turn of `k` touches what the walk behind it still meets. -/
theorem touched_busy (h : Destroying s pre t) (j : Fin maxConnections) :
    s.Touched (pre ++ [k]) j ↔ s.Touched pre j ∨ j ∈ l := by
  obtain ⟨rest, hws, hrest⟩ := h.walk_extend hw
  rw [touched_concat, Below.iff_mem (l := l ++ rest) hws, List.mem_append]
  refine ⟨?_, fun hor => hor.imp id Or.inl⟩
  rintro (hj | hj | hj)
  · exact Or.inl hj
  · exact Or.inr hj
  · exact Or.inl (hrest j hj)

/-- The blocks that go are those of the slots of the walk. -/
theorem freed_busy (h : Destroying s pre t) :
    ((t.releaseAll l).free ((t.releaseAll l).conns k).recvBuffer).freed =
      t.freed ++ (l.reverse ++ [k]).flatMap s.bufferIds := by
  obtain ⟨hk, hnodup⟩ := List.nodup_cons.mp hw.nodup
  have hown : (((t.releaseAll l).conns k).recvBuffer.map Block.id).toList = s.bufferIds k := by
    rw [releaseAll_conns, if_neg hk]
    exact h.bufferIds_eq (hw.not_stop k (by simp))
  have hwalk : l.reverse.flatMap t.bufferIds = l.reverse.flatMap s.bufferIds := by
    refine List.flatMap_congr fun j hj => h.bufferIds_eq ?_
    exact hw.not_stop j (List.mem_cons_of_mem k (List.mem_reverse.mp hj))
  rw [free_freed, releaseAll_freed t hnodup, hown, hwalk]
  simp

include hord

/-- The buffers of the walk behind `k` are freed, and the buffer of `k` itself. -/
theorem timesFreed_of_busy (h : Destroying s pre t) (j : Fin maxConnections) :
    s.timesFreed (pre ++ [k]) j =
      s.timesFreed pre j + (if j ∈ l then 1 else 0) + if j = k then 1 else 0 := by
  obtain ⟨hbusy, huntouched⟩ := h.busy (hw.not_stop k (by simp))
  have hself : ¬ s.TouchedBefore k := by
    rintro ⟨i, hi, hb⟩
    exact huntouched ⟨i, (mem_pre_iff hord i).mpr hi, hb⟩
  have hnotpre : k ∉ pre := fun hc => absurd ((mem_pre_iff hord k).mp hc) (lt_irrefl k)
  have hk : k ∉ l := (List.nodup_cons.mp hw.nodup).1
  have hl : ∀ j ∈ l, ¬ s.Touched pre j :=
    fun j hj => (h.busy (hw.not_stop j (List.mem_cons_of_mem k hj))).2
  have hsecond : (j ∈ pre ++ [k] ∧ ¬ s.IsFree j ∧ ¬ s.TouchedBefore j) ↔
      (j ∈ pre ∧ ¬ s.IsFree j ∧ ¬ s.TouchedBefore j) ∨ j = k := by
    rw [List.mem_append, List.mem_singleton]
    constructor
    · rintro ⟨hj | hj, hr⟩
      · exact Or.inl ⟨hj, hr⟩
      · exact Or.inr hj
    · rintro (⟨hj, hr⟩ | rfl)
      · exact ⟨Or.inl hj, hr⟩
      · exact ⟨Or.inr rfl, hbusy, hself⟩
  classical
  unfold timesFreed
  simp only [h.touched_busy hw, hsecond]
  by_cases hjk : j = k
  · subst hjk
    simp [huntouched, hk, hnotpre]
  · by_cases hj : s.Touched pre j
    · have hjl : j ∉ l := fun hc => hl j hc hj
      simp only [hj, hjl, hjk, or_false, if_true, if_false]
      omega
    · simp only [hj, hjk, false_or, or_false, if_false]
      omega

theorem step_busy (h : Destroying s pre t) :
    Destroying s (pre ++ [k]) ((t.releaseAll l).free ((t.releaseAll l).conns k).recvBuffer) := by
  have htouch := h.touched_busy hw
  have hnodup := (List.nodup_cons.mp hw.nodup).2
  refine ⟨fun j hj => ?_, fun j hj => ?_, h.walks_concat fun _ => ?_, ?_, ?_⟩
  · rw [free_conns, releaseAll_conns]
    split
    · rfl
    · rename_i hnot
      exact h.reset j (((htouch j).mp hj).resolve_right hnot)
  · rw [htouch j, not_or] at hj
    rw [free_conns, releaseAll_conns, if_neg hj.2]
    exact h.kept j hj.1
  · obtain ⟨rest, hws, -⟩ := h.walk_extend hw
    exact ⟨_, hws⟩
  · rw [free_blocks, releaseAll_blocks]
    exact h.blocks
  · obtain ⟨F, hF, hcount⟩ := h.freed
    refine ⟨F ++ (l.reverse ++ [k]), ?_, fun j => ?_⟩
    · rw [h.freed_busy hw, hF, List.append_assoc, ← List.flatMap_append]
    · have hlast : [k].count j = if j = k then 1 else 0 := by
        rw [List.count_singleton]
        by_cases hjk : j = k
        · simp [hjk]
        · simp [hjk, Ne.symm hjk]
      rw [List.count_append, List.count_append, List.count_reverse, hcount j, hnodup.count,
        hlast, h.timesFreed_of_busy hord hw, Nat.add_assoc]

end Busy

theorem step (h : Destroying s pre t)
    (hord : List.finRange maxConnections = pre ++ k :: post) (hs : t.destroyOne k = .ok t') :
    Destroying s (pre ++ [k]) t' := by
  unfold destroyOne at hs
  by_cases hfree : (t.conns k).state = .free
  · rw [if_neg (not_not.mpr hfree)] at hs
    rw [← Except.ok.inj hs]
    exact h.step_free hord hfree
  · rw [if_pos hfree] at hs
    obtain ⟨u, hu, hs⟩ := bind_returns.mp hs
    obtain ⟨m, l, hm, hw, rfl⟩ := close_walk hu
    rw [← Except.ok.inj hs]
    exact h.step_busy hord (Trail.step hfree (next_eq_some.mpr hm.symm) hw)

theorem returns (h : Destroying s pre t) (hall : ∀ j, ¬ s.IsFree j → ∃ l, s.Walk j l)
    (k : Fin maxConnections) : ∃ t', t.destroyOne k = .ok t' := by
  unfold destroyOne
  by_cases hfree : (t.conns k).state = .free
  · exact ⟨t, if_neg (not_not.mpr hfree)⟩
  · rw [if_pos hfree]
    have hbusy : ¬ s.IsFree k := fun hc => hfree (h.isFree_iff.mpr (Or.inl hc))
    obtain ⟨l, hl⟩ := hall k hbusy
    obtain ⟨l', hl'⟩ := h.walk_cut hl
    cases hl' with
    | done hc => exact absurd hc hfree
    | @step _ m rest _ hn hw =>
        rw [next_eq_some.mp hn, (close_eq_ok t _ m).mpr ⟨rest, hw, rfl⟩]
        exact ⟨_, rfl⟩

end Destroying

theorem destroy_destroying {s s' : Process} (hs : s.destroy = .ok s') :
    Destroying s (List.finRange maxConnections) s' :=
  foldlM_invariant (I := Destroying s) _
    (fun _ _ _ _ _ hl hI hstep => hI.step hl hstep) _ [] s s' rfl (Destroying.init s) hs

/-- The destructor returns exactly when every slot in use has a walk that ends. -/
theorem destroy_returns_iff (s : Process) :
    (∃ s', s.destroy = .ok s') ↔ ∀ j, ¬ s.IsFree j → ∃ l, s.Walk j l := by
  constructor
  · rintro ⟨s', hs⟩ j hj
    exact (destroy_destroying hs).walks j (List.mem_finRange j) hj
  · intro hall
    refine foldlM_returns (I := Destroying s) _ ?_ _ [] s rfl (Destroying.init s)
    intro pre k post t hl hI
    obtain ⟨t', ht'⟩ := hI.returns hall k
    exact ⟨t', ht', hI.step hl ht'⟩

/-- **What the destructor frees.** -/
theorem destroy_spec {s s' : Process} (hs : s.destroy = .ok s') :
    s'.blocks = s.blocks ∧ ∃ F : List (Fin maxConnections),
      s'.freed = s.freed ++ F.flatMap s.bufferIds ∧
      ∀ j, F.count j = s.timesFreed (List.finRange maxConnections) j :=
  ⟨(destroy_destroying hs).blocks, (destroy_destroying hs).freed⟩

/-- A slot that is not in use has nothing to free. -/
theorem timesFreed_free {s : Process} {j : Fin maxConnections} (hj : s.IsFree j)
    (pre : List (Fin maxConnections)) : s.timesFreed pre j = 0 := by
  have hnot : ¬ s.Touched pre j := by
    rintro ⟨h, -, hb⟩
    exact hb.not_free.2 hj
  classical
  unfold timesFreed
  simp [hnot, hj]

/-- A slot in use has its buffer freed. -/
theorem timesFreed_pos {s : Process} {j : Fin maxConnections} (hj : ¬ s.IsFree j) :
    0 < s.timesFreed (List.finRange maxConnections) j := by
  classical
  unfold timesFreed
  by_cases htouched : s.Touched (List.finRange maxConnections) j
  · rw [if_pos htouched]
    omega
  · have hbefore : ¬ s.TouchedBefore j := by
      rintro ⟨h, -, hb⟩
      exact htouched ⟨h, List.mem_finRange h, hb⟩
    rw [if_neg htouched, if_pos ⟨List.mem_finRange j, hj, hbefore⟩]
    omega

/-- A destructor that returns has freed the block of every connection in use. -/
theorem destroy_frees {s t : Process} (hd : s.destroy = .ok t) {j : Fin maxConnections}
    (hj : ¬ s.IsFree j) {id : Nat} (hid : id ∈ s.bufferIds j) :
    s.freed.count id < t.freed.count id := by
  obtain ⟨-, F, hfreed, hcount⟩ := destroy_spec hd
  have hmem : j ∈ F := by
    refine List.count_pos_iff.mp ?_
    rw [hcount j]
    exact timesFreed_pos hj
  have hpos : 0 < (F.flatMap s.bufferIds).count id :=
    List.count_pos_iff.mpr (List.mem_flatMap.mpr ⟨j, hmem, hid⟩)
  rw [hfreed, List.count_append]
  omega

/-- Without such blocks it frees nothing. -/
theorem destroy_frees_nothing {s t : Process} (hd : s.destroy = .ok t)
    (h : ∀ j, ¬ s.IsFree j → s.bufferIds j = []) : t.freed = s.freed := by
  obtain ⟨-, F, hfreed, hcount⟩ := destroy_spec hd
  have hnone : F.flatMap s.bufferIds = [] := by
    refine List.flatMap_eq_nil_iff.mpr fun j hj => h j fun hfree => ?_
    have hpos := List.count_pos_iff.mpr hj
    rw [hcount j, timesFreed_free hfree] at hpos
    exact absurd hpos (Nat.lt_irrefl 0)
  rw [hfreed, hnone, List.append_nil]

/-- A slot in use has its buffer freed once exactly when it is below no slot or
below an earlier one. -/
theorem timesFreed_eq_one_iff {s : Process} {j : Fin maxConnections} (hj : ¬ s.IsFree j) :
    s.timesFreed (List.finRange maxConnections) j = 1 ↔
      ((∃ h, s.Below h j) → ∃ h, h < j ∧ s.Below h j) := by
  have htouch : s.Touched (List.finRange maxConnections) j ↔ ∃ h, s.Below h j := by
    constructor
    · rintro ⟨h, -, hb⟩
      exact ⟨h, hb⟩
    · rintro ⟨h, hb⟩
      exact ⟨h, List.mem_finRange h, hb⟩
  classical
  unfold timesFreed
  simp only [htouch, List.mem_finRange, hj, true_and, not_false_eq_true]
  by_cases hbelow : ∃ h, s.Below h j
  · by_cases hearly : s.TouchedBefore j
    · simp only [hbelow, hearly, if_true, not_true_eq_false, if_false]
      exact ⟨fun _ _ => hearly, fun _ => trivial⟩
    · simp only [hbelow, hearly, if_true, not_false_eq_true]
      exact ⟨fun hc => absurd hc (by omega), fun hc => absurd (hc trivial) hearly⟩
  · have hearly : ¬ s.TouchedBefore j := fun ⟨h, _, hb⟩ => hbelow ⟨h, hb⟩
    simp only [hbelow, hearly, if_false, not_false_eq_true, if_true]
    exact ⟨fun _ hc => hc.elim, fun _ => trivial⟩

end Ytl.Udp.Process
