/-
Who frees the receive buffers.

A slot in use owns the block its `create` or `serve` obtained; releasing the slot
frees it.  A `create` that fails leaves its block in a slot whose state is still
`FREE`, which nobody releases: the block is lost.  So at the end of a run every
block has been freed or is owned by a slot in use exactly when no opening failed,
and the destructor then frees each of the remaining ones once exactly when no
walk leads back to a slot it has already dealt with.
-/
import Ytl.Proofs.Udp.Destroy
import Ytl.Proofs.Udp.Ledger

namespace Ytl.Udp

open Process

/-! ### Ownership of blocks

Ownership is not a field of anything.  A block belongs to a slot if the slot is in use and
points to it; a block that no slot in use points to and that was not freed is lost.
-/

/-- Every slot in use owns a block of its own that has not been freed, and no block
has been freed twice. -/
structure BuffersOK (s : Process) : Prop where
  slots : SlotsOK s
  owned : ∀ i, ¬ s.IsFree i → ∃ b, s.bufferIds i = [b] ∧ b < s.blocks ∧ b ∉ s.freed
  distinct : ∀ i j, ¬ s.IsFree i → ¬ s.IsFree j → s.bufferIds i = s.bufferIds j → i = j
  nodup : s.freed.Nodup
  bound : ∀ b ∈ s.freed, b < s.blocks

/-- Every block obtained so far has been freed or belongs to a slot in use. -/
def Accounted (s : Process) : Prop :=
  ∀ b, b < s.blocks → b ∈ s.freed ∨ ∃ i, ¬ s.IsFree i ∧ s.bufferIds i = [b]

namespace BuffersOK

variable {s s' : Process} {i j : Fin maxConnections}

theorem of_empty : BuffersOK Process.empty := by
  have hfree : ∀ i, Process.empty.IsFree i := fun _ => rfl
  refine ⟨SlotsOK.of_empty, fun i hi => absurd (hfree i) hi,
    fun i _ hi => absurd (hfree i) hi, List.nodup_nil, ?_⟩
  intro b hb
  simp [Process.empty] at hb

/-- A block of a slot in use is its only one, and it has not been freed. -/
theorem owned_of_mem (h : BuffersOK s) (hi : ¬ s.IsFree i) {b : Nat} (hb : b ∈ s.bufferIds i) :
    s.bufferIds i = [b] ∧ b < s.blocks ∧ b ∉ s.freed := by
  obtain ⟨c, hc, hrest⟩ := h.owned i hi
  rw [hc] at hb
  rw [List.mem_singleton.mp hb]
  exact ⟨hc, hrest⟩

/-- A block belongs to one slot in use. -/
theorem eq_of_mem (h : BuffersOK s) (hi : ¬ s.IsFree i) (hj : ¬ s.IsFree j) {b : Nat}
    (hbi : b ∈ s.bufferIds i) (hbj : b ∈ s.bufferIds j) : i = j := by
  refine h.distinct i j hi hj ?_
  rw [(h.owned_of_mem hi hbi).1, (h.owned_of_mem hj hbj).1]

/-! ### Opening

A slot that is opened gets a block, and the block is accounted for if the slot is in use at
the end.  A call that fails leaves the block in a slot that is not in use.
-/

section Opened

variable {a : Alloc} {fd : Int} {done : Bool}

theorem opened_buffer (ha : a.granted = true) (ho : Opened s i a fd done s') :
    s'.bufferIds i = [s.blocks] ∧ s'.blocks = s.blocks + 1 := by
  unfold bufferIds
  rw [ho.buffer, ho.blocks]
  simp [malloc, ha]

theorem opened_other (ho : Opened s i a fd done s') (hj : j ≠ i) :
    s'.bufferIds j = s.bufferIds j ∧ (s'.IsFree j ↔ s.IsFree j) := by
  obtain ⟨e, he⟩ := ho.others j hj
  unfold bufferIds IsFree
  rw [he]
  exact ⟨rfl, Iff.rfl⟩

theorem opened_free (hi : s.IsFree i) (ho : Opened s i a fd done s') :
    s'.IsFree i ↔ done = false := by
  have hstate : (s.conns i).state = .free := hi
  unfold IsFree
  rw [ho.state, hstate]
  cases done with
  | false => simp
  | true => simp

theorem of_opened (h : BuffersOK s) (ha : a.granted = true) (hi : s.IsFree i)
    (ho : Opened s i a fd done s') : BuffersOK s' := by
  obtain ⟨hbuf, hblocks⟩ := opened_buffer ha ho
  have hlt : ∀ j, j ≠ i → ¬ s'.IsFree j → ∃ b, s'.bufferIds j = [b] ∧ b < s.blocks ∧
      b ∉ s.freed := by
    intro j hj hbusy
    obtain ⟨hids, hfree⟩ := opened_other ho hj
    obtain ⟨b, hb, hrest⟩ := h.owned j (fun hc => hbusy (hfree.mpr hc))
    exact ⟨b, by rw [hids, hb], hrest⟩
  refine ⟨h.slots.of_opened ho, ?_, ?_, by rw [ho.freed]; exact h.nodup, ?_⟩
  · intro j hbusy
    by_cases hj : j = i
    · subst hj
      refine ⟨s.blocks, hbuf, by omega, ?_⟩
      rw [ho.freed]
      exact fun hc => absurd (h.bound _ hc) (lt_irrefl _)
    · obtain ⟨b, hb, hbl, hnot⟩ := hlt j hj hbusy
      exact ⟨b, hb, by omega, by rw [ho.freed]; exact hnot⟩
  · intro j k hj hk heq
    by_cases hji : j = i
    · by_cases hki : k = i
      · rw [hji, hki]
      · exfalso
        obtain ⟨b, hb, hbl, -⟩ := hlt k hki hk
        rw [hji, hbuf, hb] at heq
        have : s.blocks = b := by simpa using heq
        omega
    · by_cases hki : k = i
      · exfalso
        obtain ⟨b, hb, hbl, -⟩ := hlt j hji hj
        rw [hki, hbuf, hb] at heq
        have : b = s.blocks := by simpa using heq
        omega
      · obtain ⟨hids, hfree⟩ := opened_other ho hji
        obtain ⟨hids', hfree'⟩ := opened_other ho hki
        rw [hids, hids'] at heq
        exact h.distinct j k (fun hc => hj (hfree.mpr hc)) (fun hc => hk (hfree'.mpr hc)) heq
  · intro b hb
    rw [ho.freed] at hb
    have := h.bound b hb
    omega

/-- The new block is accounted for exactly when the slot became `ACTIVE`. -/
theorem accounted_opened (h : BuffersOK s) (ha : a.granted = true) (hi : s.IsFree i)
    (ho : Opened s i a fd done s') : Accounted s' ↔ Accounted s ∧ done = true := by
  obtain ⟨hbuf, hblocks⟩ := opened_buffer ha ho
  constructor
  · intro hacc
    refine ⟨?_, ?_⟩
    · intro b hb
      rcases hacc b (by omega) with hfreed | ⟨j, hbusy, hids⟩
      · exact Or.inl (by rw [← ho.freed]; exact hfreed)
      · by_cases hj : j = i
        · exfalso
          rw [hj, hbuf] at hids
          have : s.blocks = b := by simpa using hids
          omega
        · obtain ⟨hids', hfree⟩ := opened_other ho hj
          exact Or.inr ⟨j, fun hc => hbusy (hfree.mpr hc), by rw [← hids', hids]⟩
    · rcases hacc s.blocks (by omega) with hfreed | ⟨j, hbusy, hids⟩
      · exfalso
        rw [ho.freed] at hfreed
        exact absurd (h.bound _ hfreed) (lt_irrefl _)
      · by_cases hj : j = i
        · subst hj
          rw [opened_free hi ho] at hbusy
          simpa using hbusy
        · exfalso
          obtain ⟨hids', hfree⟩ := opened_other ho hj
          have hmem : s.blocks ∈ s.bufferIds j := by
            rw [← hids', hids]
            simp
          exact lt_irrefl _ (h.owned_of_mem (fun hc => hbusy (hfree.mpr hc)) hmem).2.1
  · rintro ⟨hacc, hdone⟩ b hb
    by_cases hnew : b = s.blocks
    · subst hnew
      refine Or.inr ⟨i, ?_, hbuf⟩
      rw [opened_free hi ho, hdone]
      exact nofun
    · rcases hacc b (by omega) with hfreed | ⟨j, hbusy, hids⟩
      · exact Or.inl (by rw [ho.freed]; exact hfreed)
      · have hj : j ≠ i := fun hc => hbusy (hc ▸ hi)
        obtain ⟨hids', hfree⟩ := opened_other ho hj
        exact Or.inr ⟨j, fun hc => hbusy (hfree.mp hc), by rw [hids', hids]⟩

end Opened

/-! ### Closing

Closing moves the blocks of the walk from the slots to what was freed, and loses none.
-/

section Closed

variable {l : List (Fin maxConnections)}

theorem released_bufferIds (hj : j ∉ l) : (s.releaseAll l).bufferIds j = s.bufferIds j := by
  unfold bufferIds
  rw [releaseAll_conns, if_neg hj]

/-- The blocks freed with the slots of a walk are the blocks of these slots. -/
theorem mem_released_freed (hw : s.Walk i l) (b : Nat) :
    b ∈ (s.releaseAll l).freed ↔ b ∈ s.freed ∨ ∃ j ∈ l, b ∈ s.bufferIds j := by
  rw [releaseAll_freed s hw.nodup]
  simp

theorem of_walk (h : BuffersOK s) (hw : s.Walk i l) : BuffersOK (s.releaseAll l) := by
  have hbusy : ∀ j, ¬ (s.releaseAll l).IsFree j → j ∉ l ∧ ¬ s.IsFree j := by
    intro j hj
    rw [releaseAll_isFree] at hj
    exact not_or.mp hj
  refine ⟨h.slots.of_walk hw, ?_, ?_, ?_, ?_⟩
  · intro j hj
    obtain ⟨hjl, hjs⟩ := hbusy j hj
    obtain ⟨b, hb, hbl, hnot⟩ := h.owned j hjs
    refine ⟨b, by rw [released_bufferIds hjl, hb], by rw [releaseAll_blocks]; exact hbl, ?_⟩
    rw [mem_released_freed hw]
    rintro (hc | ⟨k, hk, hbk⟩)
    · exact hnot hc
    · -- the same block would belong to a slot of the walk and to this one
      have hjk := h.eq_of_mem hjs (hw.not_stop k hk) (by rw [hb]; simp) hbk
      exact hjl (hjk ▸ hk)
  · intro j k hj hk heq
    obtain ⟨hjl, hjs⟩ := hbusy j hj
    obtain ⟨hkl, hks⟩ := hbusy k hk
    rw [released_bufferIds hjl, released_bufferIds hkl] at heq
    exact h.distinct j k hjs hks heq
  · rw [releaseAll_freed s hw.nodup]
    refine List.nodup_append.mpr ⟨h.nodup, ?_, ?_⟩
    · refine List.nodup_flatMap.mpr ⟨fun j hj => ?_, ?_⟩
      · obtain ⟨b, hb, -⟩ := h.owned j (hw.not_stop j (List.mem_reverse.mp hj))
        rw [hb]
        exact List.nodup_singleton b
      · refine (List.nodup_reverse.mpr hw.nodup).imp_of_mem ?_
        intro j k hj hk hne b hbj hbk
        exact hne (h.eq_of_mem (hw.not_stop j (List.mem_reverse.mp hj))
          (hw.not_stop k (List.mem_reverse.mp hk)) hbj hbk)
    · intro b hb b' hb' hbb
      obtain ⟨j, hj, hbj⟩ := List.mem_flatMap.mp hb'
      obtain ⟨-, -, hnot⟩ := h.owned_of_mem (hw.not_stop j (List.mem_reverse.mp hj)) hbj
      exact hnot (hbb ▸ hb)
  · intro b hb
    rw [releaseAll_blocks]
    rcases (mem_released_freed hw b).mp hb with hold | ⟨j, hj, hbj⟩
    · exact h.bound b hold
    · exact (h.owned_of_mem (hw.not_stop j hj) hbj).2.1

/-- Closing moves blocks from slots to the freed ones. -/
theorem accounted_walk (h : BuffersOK s) (hw : s.Walk i l) :
    Accounted (s.releaseAll l) ↔ Accounted s := by
  unfold Accounted
  rw [releaseAll_blocks]
  refine forall_congr' fun b => forall_congr' fun _ => ?_
  rw [mem_released_freed hw, or_assoc]
  refine or_congr_right ?_
  constructor
  · rintro (⟨j, hj, hb⟩ | ⟨j, hj, hb⟩)
    · exact ⟨j, hw.not_stop j hj, (h.owned_of_mem (hw.not_stop j hj) hb).1⟩
    · obtain ⟨hjl, hjs⟩ := not_or.mp (fun hc => hj (releaseAll_isFree.mpr hc))
      exact ⟨j, hjs, by rw [← released_bufferIds hjl, hb]⟩
  · rintro ⟨j, hj, hb⟩
    by_cases hjl : j ∈ l
    · exact Or.inl ⟨j, hjl, by rw [hb]; simp⟩
    · refine Or.inr ⟨j, fun hc => ?_, by rw [released_bufferIds hjl, hb]⟩
      exact (releaseAll_isFree.mp hc).elim hjl hj

end Closed

end BuffersOK

/-! ### Runs

A run is made of the calls that take and return slots.  The other operations do not obtain or
free receive buffers, but for a buffer that grows, and their part is left to the module about
the blocks of the heap.
-/

/-- A run takes and returns slots; its end is the state the destructor finds. -/
def SlotOp.step (s : Process) : SlotOp → Except Fault Process
  | .create host port connect os => Prod.snd <$> s.create host port connect os
  | .serve port os => Prod.snd <$> s.serve port os
  | .close connId => s.close connId

/-- `malloc` succeeds, descriptors are below the number of slots, and `close` is
called with the index of a slot. -/
def SlotOp.admits (_ : Process) : SlotOp → Prop
  | .create _ _ _ os => os.malloc.granted = true ∧ -1 ≤ os.socket ∧ os.socket < maxConnections
  | .serve _ os => os.malloc.granted = true ∧ -1 ≤ os.socket ∧ os.socket < maxConnections
  | .close connId => connId < maxConnections

/-- The constructor's own `serve`, if its port is not 0, is the first step of a run. -/
def slotMachine : Machine Process SlotOp Fault where
  start s := s = Process.empty
  admits := SlotOp.admits
  step := SlotOp.step

/-- The destructor returns, and then every block has been freed exactly once. -/
def ReleasedOnce (s : Process) : Prop :=
  ∃ s', s.destroy = .ok s' ∧ ∀ b, b < s'.blocks → s'.freed.count b = 1

/-- A call that takes a slot opens it, and the walk of a close ends. -/
def Settles (s : Process) : SlotOp → Prop
  | .create host port connect os =>
      s.freeIndices = [] ∨ createSucceeds host port connect os = true
  | .serve _ os => s.freeIndices = [] ∨ serveSucceeds os = true
  | .close connId => ∃ i l, connId = i.val ∧ s.Walk i l

/-- The walk of every slot in use ends, and a slot that is below others is below one
that comes before it. -/
def DestroysOnce (s : Process) : Prop :=
  ∀ j, ¬ s.IsFree j →
    (∃ l, s.Walk j l) ∧ ((∃ h, s.Below h j) → ∃ h, h < j ∧ s.Below h j)

/-! ### What the destructor leaves

What was freed is a list, so freeing a block twice shows in how often it occurs there.  Each
block is counted before and after the destructor, and the sum has to be one for every block
that was ever obtained.
-/

section Released

variable {s s' : Process} {i : Fin maxConnections} {b : Nat}

/-- The buffer of a slot in use occurs among the buffers of slots in use as often as
the slot does. -/
theorem BuffersOK.count_flatMap (h : BuffersOK s) (hi : ¬ s.IsFree i)
    (hb : s.bufferIds i = [b]) (F : List (Fin maxConnections)) (hF : ∀ j ∈ F, ¬ s.IsFree j) :
    (F.flatMap s.bufferIds).count b = F.count i := by
  induction F with
  | nil => simp
  | cons j rest ih =>
      have hrest := ih fun k hk => hF k (by simp [hk])
      have hj : ¬ s.IsFree j := hF j (by simp)
      obtain ⟨c, hc, -⟩ := h.owned j hj
      have hone : (s.bufferIds j).count b = [j].count i := by
        rw [hc, List.count_singleton, List.count_singleton]
        by_cases hji : j = i
        · have hcb : c = b := by
            rw [hji, hb] at hc
            simpa using hc.symm
          simp [hji, hcb]
        · have hcb : c ≠ b := by
            intro hcb
            exact hji (h.distinct j i hj hi (by rw [hc, hb, hcb]))
          simp [hji, hcb]
      rw [List.flatMap_cons, List.count_append, hone, hrest, ← List.count_append]
      rfl

/-- What the destructor frees, by block: nothing that had been freed before, and the
block of a slot in use as often as the slot is met. -/
theorem BuffersOK.count_destroyed (h : BuffersOK s) (hd : s.destroy = .ok s') :
    s'.blocks = s.blocks ∧
      (∀ b ∈ s.freed, s'.freed.count b = 1) ∧
      (∀ j, ¬ s.IsFree j → ∀ b ∈ s.bufferIds j,
        s'.freed.count b = s.timesFreed (List.finRange maxConnections) j) ∧
      ∀ b ∈ s'.freed, b ∈ s.freed ∨ ∃ j, ¬ s.IsFree j ∧ s.bufferIds j = [b] := by
  obtain ⟨hblocks, F, hfreed, hcount⟩ := destroy_spec hd
  have hbusy : ∀ j ∈ F, ¬ s.IsFree j := by
    intro j hj hfree
    have hpos := List.count_pos_iff.mpr hj
    rw [hcount j, timesFreed_free hfree] at hpos
    omega
  refine ⟨hblocks, fun b hb => ?_, fun j hj b hb => ?_, fun b hb => ?_⟩
  · have hnone : b ∉ F.flatMap s.bufferIds := by
      intro hc
      obtain ⟨j, hj, hbj⟩ := List.mem_flatMap.mp hc
      exact (h.owned_of_mem (hbusy j hj) hbj).2.2 hb
    rw [hfreed, List.count_append, List.count_eq_one_of_mem h.nodup hb,
      List.count_eq_zero_of_not_mem hnone]
  · obtain ⟨hids, -, hnot⟩ := h.owned_of_mem hj hb
    rw [hfreed, List.count_append, List.count_eq_zero_of_not_mem hnot,
      h.count_flatMap hj hids F hbusy, hcount j, Nat.zero_add]
  · rw [hfreed] at hb
    rcases List.mem_append.mp hb with hold | hnew
    · exact Or.inl hold
    · obtain ⟨j, hj, hbj⟩ := List.mem_flatMap.mp hnew
      exact Or.inr ⟨j, hbusy j hj, (h.owned_of_mem (hbusy j hj) hbj).1⟩

/-- **What a pool owes when it is destroyed.**  Every block is freed exactly once if
and only if it has been accounted for and the destructor meets no slot twice. -/
theorem BuffersOK.releasedOnce_iff (h : BuffersOK s) :
    ReleasedOnce s ↔ Accounted s ∧ DestroysOnce s := by
  constructor
  · rintro ⟨s', hd, honce⟩
    obtain ⟨hblocks, -, hcount, hmem⟩ := h.count_destroyed hd
    refine ⟨fun b hb => hmem b ?_, fun j hj => ⟨(destroy_returns_iff s).mp ⟨s', hd⟩ j hj, ?_⟩⟩
    · have hone := honce b (by omega)
      exact List.count_pos_iff.mp (by omega)
    · obtain ⟨b, hb, hlt, -⟩ := h.owned j hj
      rw [← timesFreed_eq_one_iff hj, ← hcount j hj b (by rw [hb]; simp)]
      exact honce b (by omega)
  · rintro ⟨hacc, honce⟩
    obtain ⟨s', hd⟩ := (destroy_returns_iff s).mpr fun j hj => (honce j hj).1
    obtain ⟨hblocks, hold, hcount, -⟩ := h.count_destroyed hd
    refine ⟨s', hd, fun b hb => ?_⟩
    rcases hacc b (by omega) with hmem | ⟨j, hj, hids⟩
    · exact hold b hmem
    · rw [hcount j hj b (by rw [hids]; simp)]
      exact (timesFreed_eq_one_iff hj).mpr (honce j hj).2

end Released

/-! ### One step of a run -/

section Steps

variable {s s' : Process}

/-- A call that takes a slot returns; it loses its block unless it opens the slot. -/
theorem attempt_settles (h : BuffersOK s) {a : Alloc} {fd : Int} {getfl done : Bool}
    {r : Except Fault (Nat × Process)} (hatt : Attempt s a fd getfl done r)
    (ha : a.granted = true) (hfd : -1 ≤ fd) (hne : done = true → fd ≠ -1)
    (hb : fd < maxConnections) :
    ∃ s', Prod.snd <$> r = .ok s' ∧ BuffersOK s' ∧
      (Accounted s' ↔ Accounted s ∧ (s.freeIndices = [] ∨ done = true)) := by
  cases hatt with
  | full hnil =>
      refine ⟨s, rfl, h, ?_⟩
      simp [hnil]
  | taken hi hlast hl =>
      obtain ⟨⟨index, s'⟩, hr⟩ := hl.returns hfd hne (Or.inr hb)
      obtain ⟨-, ho⟩ := hl.opened hr
      have hempty : s.freeIndices ≠ [] := by
        intro hnil
        rw [hnil] at hlast
        cases hlast
      rw [hr]
      refine ⟨s', rfl, h.of_opened ha hi ho, ?_⟩
      rw [h.accounted_opened ha hi ho]
      simp [hempty]

theorem create_settles (h : BuffersOK s) {host port : String} {connect : Bool}
    {os : OpenAnswers} (ha : SlotOp.admits s (.create host port connect os)) :
    ∃ s', SlotOp.step s (.create host port connect os) = .ok s' ∧ BuffersOK s' ∧
      (Accounted s' ↔ Accounted s ∧ Settles s (.create host port connect os)) :=
  attempt_settles h (h.slots.create_attempt host port connect os) ha.1 ha.2.1
    ne_of_createSucceeds ha.2.2

theorem serve_settles (h : BuffersOK s) {port : Nat} {os : OpenAnswers}
    (ha : SlotOp.admits s (.serve port os)) :
    ∃ s', SlotOp.step s (.serve port os) = .ok s' ∧ BuffersOK s' ∧
      (Accounted s' ↔ Accounted s ∧ Settles s (.serve port os)) :=
  attempt_settles h (h.slots.serve_attempt port os) ha.1 ha.2.1 ne_of_serveSucceeds ha.2.2

/-- A step loses no block exactly when it settles. -/
theorem step_of_ok (h : BuffersOK s) (op : SlotOp) (ha : op.admits s)
    (hs : op.step s = .ok s') :
    BuffersOK s' ∧ (Accounted s' ↔ Accounted s ∧ Settles s op) := by
  cases op with
  | create host port connect os =>
      obtain ⟨t, ht, hrest⟩ := create_settles h ha
      rw [Except.ok.inj (hs.symm.trans ht)]
      exact hrest
  | serve port os =>
      obtain ⟨t, ht, hrest⟩ := serve_settles h ha
      rw [Except.ok.inj (hs.symm.trans ht)]
      exact hrest
  | close connId =>
      obtain ⟨i, l, hid, hw, rfl⟩ := close_walk hs
      refine ⟨h.of_walk hw, ?_⟩
      rw [h.accounted_walk hw]
      exact ⟨fun hacc => ⟨hacc, i, l, hid.symm, hw⟩, fun hacc => hacc.1⟩

theorem step_returns (h : BuffersOK s) (op : SlotOp) (ha : op.admits s) (hset : Settles s op) :
    ∃ s', op.step s = .ok s' := by
  cases op with
  | create host port connect os =>
      obtain ⟨t, ht, -⟩ := create_settles h ha
      exact ⟨t, ht⟩
  | serve port os =>
      obtain ⟨t, ht, -⟩ := serve_settles h ha
      exact ⟨t, ht⟩
  | close connId =>
      obtain ⟨i, l, rfl, hw⟩ := hset
      exact ⟨_, (close_eq_ok _ _ i).mpr ⟨l, hw, rfl⟩⟩

end Steps

/-! ### Every buffer is freed once

The run and the destructor contribute one condition each: no block may be lost on the way, and
none may be met twice at the end.
-/

/-- A run loses no block exactly when all its steps settle. -/
theorem accounted_iff_settles (ops : List SlotOp)
    (hadm : slotMachine.Admitted Process.empty ops) :
    (∃ s, ops.foldlM slotMachine.step Process.empty = .ok s ∧ Accounted s) ↔
      slotMachine.Meets Settles Process.empty ops := by
  have hempty : Accounted Process.empty := by
    intro b hb
    exact absurd hb (Nat.not_lt_zero b)
  have h := Machine.final_iff_meets (m := slotMachine) (I := BuffersOK) (P := Accounted)
    (C := Settles)
    (fun _ op _ hI ha hs => (step_of_ok hI op ha hs).1)
    (fun _ op _ hI ha hs hP => ((step_of_ok hI op ha hs).2.mp hP).1) ?_ ops Process.empty
    BuffersOK.of_empty hadm
  · rw [h]
    exact ⟨fun hm => hm.2, fun hm => ⟨hempty, hm⟩⟩
  · intro s op hI ha hP
    constructor
    · intro hset
      obtain ⟨s', hs⟩ := step_returns hI op ha hset
      exact ⟨s', hs, (step_of_ok hI op ha hs).2.mpr ⟨hP, hset⟩⟩
    · rintro ⟨s', hs, hP'⟩
      exact ((step_of_ok hI op ha hs).2.mp hP').2

/--
**Each receive buffer is released exactly once** in a run from construction to the
destructor if and only if every call that took a slot opened it, the walk of every
close ended, and the destructor meets no slot in use again after its turn.
-/
theorem buffers_released_iff (ops : List SlotOp)
    (hadm : slotMachine.Admitted Process.empty ops) :
    (∃ s, ops.foldlM slotMachine.step Process.empty = .ok s ∧ ReleasedOnce s) ↔
      slotMachine.Meets Settles Process.empty ops ∧
        ∀ s, ops.foldlM slotMachine.step Process.empty = .ok s → DestroysOnce s := by
  have hok : ∀ s, ops.foldlM slotMachine.step Process.empty = .ok s → BuffersOK s :=
    fun s hs => Machine.foldlM_invariant_of_admitted (m := slotMachine)
      (fun _ op _ hI ha hstep => (step_of_ok hI op ha hstep).1) ops _ s BuffersOK.of_empty hadm hs
  rw [← accounted_iff_settles ops hadm]
  constructor
  · rintro ⟨s, hs, honce⟩
    obtain ⟨hacc, hdes⟩ := (hok s hs).releasedOnce_iff.mp honce
    refine ⟨⟨s, hs, hacc⟩, fun t ht => ?_⟩
    rw [Except.ok.inj (ht.symm.trans hs)]
    exact hdes
  · rintro ⟨⟨s, hs, hacc⟩, hdes⟩
    exact ⟨s, hs, (hok s hs).releasedOnce_iff.mpr ⟨hacc, hdes s hs⟩⟩

/-- A single slot in use whose descriptor is no slot in use is met once. -/
theorem destroysOnce_of_single {s : Process} {i k : Fin maxConnections}
    (honly : ∀ j, ¬ s.IsFree j → j = i) (hnext : s.next i = some k) (hfree : s.IsFree k) :
    DestroysOnce s := by
  intro j hj
  have hji := honly j hj
  rw [hji] at hj ⊢
  have hw : s.Walk i [i] := Trail.step hj hnext (Trail.done hfree)
  refine ⟨⟨_, hw⟩, ?_⟩
  rintro ⟨h, hb⟩
  rw [honly h hb.not_free.1, Below.iff_mem hw] at hb
  simp at hb

/-- One connection, on descriptor 3, is open when the pool is destroyed. -/
theorem buffers_released_single :
    slotMachine.Admitted Process.empty [.serve 9000 { socket := 3 }] ∧
      ∃ s, [SlotOp.serve 9000 { socket := 3 }].foldlM slotMachine.step Process.empty = .ok s ∧
        ReleasedOnce s := by
  have hadm : slotMachine.Admitted Process.empty [.serve 9000 { socket := 3 }] := by
    refine ⟨⟨rfl, by decide, ?_⟩, fun _ _ => trivial⟩
    rw [maxConnections_eq]
    decide
  refine ⟨hadm, (buffers_released_iff _ hadm).mpr ⟨⟨Or.inr rfl, fun _ _ => trivial⟩, ?_⟩⟩
  intro s hs
  have hcheck := of_checkResult
    (P := fun s : Process => ((List.finRange maxConnections).all fun j =>
        decide ((s.conns j).state = .free) || decide (j = 0)) &&
      decide (s.next 0 = some 3 ∧ (s.conns 3).state = .free)) (by decide +kernel) hs
  obtain ⟨hall, hrest⟩ := Bool.and_eq_true_iff.mp hcheck
  obtain ⟨hnext, hfree⟩ := of_decide_eq_true hrest
  refine destroysOnce_of_single (fun j hj => ?_) hnext hfree
  have hj' := List.all_eq_true.mp hall j (List.mem_finRange j)
  rcases Bool.or_eq_true_iff.mp hj' with hf | h0
  · exact absurd (of_decide_eq_true hf) hj
  · exact of_decide_eq_true h0

/-- Both ways to break it: `bind` fails and the block is lost, or the second connection
has descriptor 0 and the destructor frees the buffer of slot 0 in its own turn and
again in the turn of slot 1. -/
theorem buffers_lost_or_freed_twice :
    (slotMachine.Admitted Process.empty [.serve 9000 { socket := 3, bind := false }] ∧
      ¬ ∃ s, [SlotOp.serve 9000 { socket := 3, bind := false }].foldlM slotMachine.step
        Process.empty = .ok s ∧ ReleasedOnce s) ∧
    (slotMachine.Admitted Process.empty
        [.serve 9000 { socket := 7 }, .serve 9000 { socket := 0 }] ∧
      ¬ ∃ s, [SlotOp.serve 9000 { socket := 7 }, .serve 9000 { socket := 0 }].foldlM
        slotMachine.step Process.empty = .ok s ∧ ReleasedOnce s) := by
  have hserve : ∀ (s : Process) (fd : Int) (b : Bool), -1 ≤ fd → fd < 1024 →
      SlotOp.admits s (.serve 9000 { socket := fd, bind := b }) := by
    intro s fd b h0 h1
    refine ⟨rfl, h0, ?_⟩
    rw [maxConnections_eq]
    exact h1
  refine ⟨⟨⟨hserve .empty 3 false (by decide) (by decide), fun _ _ => trivial⟩, ?_⟩,
    ⟨⟨hserve .empty 7 true (by decide) (by decide), fun s₁ _ =>
      ⟨hserve s₁ 0 true (by decide) (by decide), fun _ _ => trivial⟩⟩, ?_⟩⟩
  · rintro ⟨s, hs, s', hd, honce⟩
    have hlost := of_checkResult (P := fun s : Process => checkResult s.destroy fun s' =>
      decide (0 < s'.blocks ∧ s'.freed.count 0 = 0)) (by decide +kernel) hs
    obtain ⟨hpos, hzero⟩ := of_decide_eq_true (of_checkResult hlost hd)
    have hone := honce 0 hpos
    omega
  · rintro ⟨s, hs, s', hd, honce⟩
    have htwice := of_checkResult (P := fun s : Process => checkResult s.destroy fun s' =>
      decide (0 < s'.blocks ∧ s'.freed.count 0 = 2)) (by decide +kernel) hs
    obtain ⟨hpos, htwo⟩ := of_decide_eq_true (of_checkResult htwice hd)
    have hone := honce 0 hpos
    omega

end Ytl.Udp
