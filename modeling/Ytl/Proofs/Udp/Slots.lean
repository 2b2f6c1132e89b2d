/-
Which slots are on the free list.

The free list never holds a slot twice and never one that is in use, whatever the
operating system answers: `SlotsOK` survives every operation, and for `close` that
is the fact that a walk repeats no slot.

Two further facts one would expect do not hold.  Closing a connection releases
every slot of the walk and not only the slot it was asked to close, and a slot
whose `create` failed keeps the state `FREE`, so that closing it does nothing.
The theorems about these say exactly when the expected behaviour is the real one.
-/
import Mathlib.Data.Finset.Card
import Ytl.Network.UdpRun
import Ytl.Proofs.Udp.Frame
import Ytl.Proofs.Udp.Open

namespace Ytl.Udp

open Process

/-! ### The invariant of the free list

Everything about the list follows from two facts: it has no duplicate, and what is on it is
not in use.  The second one is not obvious, since a slot is put on the list by a walk that
starts at another slot; a walk stops at slots that are not in use, so what it releases was.
-/

/-- The free list has no duplicate and lists only slots whose state is `FREE`. -/
structure SlotsOK (s : Process) : Prop where
  nodup : s.freeIndices.Nodup
  free : ∀ index ∈ s.freeIndices, ∃ i : Fin maxConnections, i.val = index ∧ s.IsFree i

namespace SlotsOK

variable {s s' : Process} {i : Fin maxConnections}

theorem isFree_of_mem (h : SlotsOK s) (hi : i.val ∈ s.freeIndices) : s.IsFree i := by
  obtain ⟨j, hj, hfree⟩ := h.free _ hi
  rw [← Fin.ext hj]
  exact hfree

/-- The slot that is taken next, if there is one. -/
theorem concat_of_ne_nil (h : SlotsOK s) (hne : s.freeIndices ≠ []) :
    ∃ (rest : List Nat) (i : Fin maxConnections), s.freeIndices = rest ++ [i.val] := by
  have hsplit := List.dropLast_append_getLast hne
  obtain ⟨i, hi, -⟩ := h.free _ (List.getLast_mem hne)
  exact ⟨s.freeIndices.dropLast, i, by rw [hi, hsplit]⟩

theorem of_sameSlots (h : SlotsOK s) (hs : SameSlots s s') : SlotsOK s' := by
  refine ⟨by rw [hs.freeIndices]; exact h.nodup, ?_⟩
  intro index hmem
  rw [hs.freeIndices] at hmem
  obtain ⟨i, hi, hfree⟩ := h.free index hmem
  exact ⟨i, hi, (hs.state i).trans hfree⟩

theorem of_opened (h : SlotsOK s) {a : Alloc} {fd : Int} {done : Bool}
    (ho : Opened s i a fd done s') : SlotsOK s' := by
  have hnd := h.nodup
  rw [ho.taken] at hnd
  obtain ⟨hnd', -, hdisj⟩ := List.nodup_append.mp hnd
  refine ⟨hnd', fun index hmem => ?_⟩
  obtain ⟨j, hj, hfree⟩ := h.free index (by rw [ho.taken]; simp [hmem])
  have hne : j ≠ i := by
    rintro rfl
    exact hdisj index hmem j.val (by simp) hj.symm
  obtain ⟨e, he⟩ := ho.others j hne
  refine ⟨j, hj, ?_⟩
  show (s'.conns j).state = .free
  rw [he]
  exact hfree

/-- The slots of a walk are in use and pairwise different, so releasing them puts
each on the free list once. -/
theorem of_walk (h : SlotsOK s) {l : List (Fin maxConnections)} (hw : s.Walk i l) :
    SlotsOK (s.releaseAll l) := by
  refine ⟨?_, ?_⟩
  · rw [releaseAll_freeIndices]
    refine List.nodup_append.mpr ⟨h.nodup, ?_, ?_⟩
    · exact (List.nodup_reverse.mpr hw.nodup).map Fin.val_injective
    · intro a ha b hb hab
      obtain ⟨j, hj, rfl⟩ := List.mem_map.mp hb
      rw [hab] at ha
      exact hw.not_stop j (List.mem_reverse.mp hj) (h.isFree_of_mem ha)
  · intro index hmem
    rw [releaseAll_freeIndices] at hmem
    rcases List.mem_append.mp hmem with hold | hnew
    · obtain ⟨j, hj, hfree⟩ := h.free index hold
      refine ⟨j, hj, ?_⟩
      show ((s.releaseAll l).conns j).state = .free
      rw [releaseAll_conns]
      split
      · rfl
      · exact hfree
    · obtain ⟨j, hj, rfl⟩ := List.mem_map.mp hnew
      refine ⟨j, rfl, ?_⟩
      show ((s.releaseAll l).conns j).state = .free
      rw [releaseAll_conns, if_pos (List.mem_reverse.mp hj)]

/-- The constructor's loop counts down from the last slot. -/
theorem map_sub_range (n : Nat) :
    (List.range n).map (fun i => n - i - 1) = (List.range n).reverse := by
  rw [List.range_eq_range', List.reverse_range', List.range_eq_range']
  refine List.map_congr_left fun i _ => ?_
  omega

theorem empty_freeIndices :
    Process.empty.freeIndices = (List.range maxConnections).reverse := by
  unfold Process.empty
  exact map_sub_range maxConnections

theorem of_empty : SlotsOK Process.empty := by
  refine ⟨?_, ?_⟩
  · rw [empty_freeIndices]
    exact List.nodup_reverse.mpr List.nodup_range
  · intro index hmem
    rw [empty_freeIndices, List.mem_reverse, List.mem_range] at hmem
    exact ⟨⟨index, hmem⟩, rfl, rfl⟩

end SlotsOK

/-! ### What one call does to the slots

Of the operations only a few come near the free list, and these in one of two ways.
`SlotStep` names the cases, so an invariant of the slots is proved for three of them and not
for eleven operations.
-/

/-- What `create` and `serve` come to: there is no slot left, or one is taken. -/
inductive Attempt (s : Process) (a : Alloc) (fd : Int) (getfl done : Bool) :
    Except Fault (Nat × Process) → Prop
  | full (hnil : s.freeIndices = []) : Attempt s a fd getfl done (.ok (maxConnections, s))
  | taken {i : Fin maxConnections} {r : Except Fault (Nat × Process)} (hfree : s.IsFree i)
      (hlast : s.freeIndices.getLast? = some i.val) (h : Launch s i a fd getfl done r) :
      Attempt s a fd getfl done r

namespace SlotsOK

variable {s : Process}

theorem attempt (hok : SlotsOK s) {a : Alloc} {fd : Int} {getfl done : Bool}
    {r : Except Fault (Nat × Process)}
    (hnil : s.freeIndices = [] → r = .ok (maxConnections, s))
    (hcons : ∀ rest (i : Fin maxConnections), s.freeIndices = rest ++ [i.val] →
      Launch s i a fd getfl done r) : Attempt s a fd getfl done r := by
  by_cases hempty : s.freeIndices = []
  · rw [hnil hempty]
    exact Attempt.full hempty
  · obtain ⟨rest, i, hfree⟩ := hok.concat_of_ne_nil hempty
    refine Attempt.taken (hok.isFree_of_mem ?_) ?_ (hcons rest i hfree)
    · rw [hfree]
      simp
    · rw [hfree]
      simp

theorem create_attempt (hok : SlotsOK s) (host port : String) (connect : Bool)
    (os : OpenAnswers) : Attempt s os.malloc os.socket os.getfl
      (createSucceeds host port connect os) (s.create host port connect os) :=
  hok.attempt (fun hnil => create_nil hnil host port connect os)
    fun _ _ hfree => create_launch hfree host port connect os

theorem serve_attempt (hok : SlotsOK s) (port : Nat) (os : OpenAnswers) :
    Attempt s os.malloc os.socket os.getfl (serveSucceeds os) (s.serve port os) :=
  hok.attempt (fun hnil => serve_nil hnil port os) fun _ _ hfree => serve_launch hfree port os

end SlotsOK

/-- The descriptor of the connection that the call makes, if it makes one. -/
def Op.opens : Op → Option Int
  | .create host port connect os =>
      if createSucceeds host port connect os then some os.socket else none
  | .serve _ os => if serveSucceeds os then some os.socket else none
  | _ => none

/-- The three things a call can do: leave the slots alone, take one off the free list, or
release those of a walk. -/
inductive SlotStep (s : Process) (op : Op) (s' : Process) : Prop
  | same (h : SameSlots s s') (hopens : op.opens = none ∨ s.freeIndices = [])
  | opened {i : Fin maxConnections} {a : Alloc} {fd : Int} {done : Bool}
      (h : Opened s i a fd done s') (hfd : op.descriptor = some fd)
      (hopens : op.opens = if done then some fd else none)
  | closed {i : Fin maxConnections} {l : List (Fin maxConnections)} (h : s.Walk i l)
      (hconns : s'.conns = (s.releaseAll l).conns)
      (hfree : s'.freeIndices = (s.releaseAll l).freeIndices) (hopens : op.opens = none)

namespace SlotStep

variable {s s' : Process}

theorem of_attempt {op : Op} {a : Alloc} {fd : Int} {getfl done : Bool}
    {r : Except Fault (Nat × Process)} {index : Nat} (h : Attempt s a fd getfl done r)
    (hr : r = .ok (index, s')) (hfd : op.descriptor = some fd)
    (hopens : op.opens = if done then some fd else none) : SlotStep s op s' := by
  cases h with
  | full hnil =>
      cases hr
      exact same (SameSlots.refl s) (Or.inr hnil)
  | taken _ _ hl => exact opened (hl.opened hr).2 hfd hopens

/-- Closing in a state with another record. -/
theorem of_close {op : Op} {t t' : Process} {id : Nat} (h : t.close id = .ok t')
    (hconns : t.conns = s.conns) (hfree : t.freeIndices = s.freeIndices)
    (hopens : op.opens = none) : SlotStep s op t' := by
  obtain ⟨i, l, -, hw, rfl⟩ := close_walk h
  have hw' : s.Walk i l := by
    refine Trail.congr (fun x => ?_) (fun x _ => ?_) hw
    · rw [IsFree, IsFree, hconns]
    · rw [next, next, hconns]
  refine closed hw' ?_ ?_ hopens
  · funext j
    rw [releaseAll_conns, releaseAll_conns, hconns]
  · rw [releaseAll_freeIndices, releaseAll_freeIndices, hfree]

theorem of_sendOneshot {host port : String} {data : List UInt8} {os : OneshotAnswers}
    {e : Error} (h : s.sendOneshot host port data os = .ok (e, s')) :
    SlotStep s (.sendOneshot host port data os) s' := by
  rcases sendOneshot_exits h with rfl | ⟨sockets, calls, id, -, hclose⟩
  · exact same (SameSlots.refl _) (Or.inl rfl)
  · exact of_close hclose rfl rfl rfl

/-- **One operation of any kind.** -/
theorem of_step (hok : SlotsOK s) {op : Op} (h : op.step s = .ok s') : SlotStep s op s' := by
  unfold Op.step at h
  cases op with
  | create host port connect os =>
      obtain ⟨r, hr⟩ := snd_returns.mp h
      exact of_attempt (hok.create_attempt host port connect os) hr rfl rfl
  | serve port os =>
      obtain ⟨r, hr⟩ := snd_returns.mp h
      exact of_attempt (hok.serve_attempt port os) hr rfl rfl
  | send connId data os =>
      obtain ⟨r, hr⟩ := snd_returns.mp h
      exact same (sendVia_onlyErrors hr).sameSlots (Or.inl rfl)
  | sendTo connId addr data os =>
      obtain ⟨r, hr⟩ := snd_returns.mp h
      exact same (sendVia_onlyErrors hr).sameSlots (Or.inl rfl)
  | sendToAll connIds data os => exact same (sendToAll_onlyErrors h).sameSlots (Or.inl rfl)
  | recv connId os =>
      obtain ⟨r, hr⟩ := snd_returns.mp h
      exact same (receive_sameSlots hr) (Or.inl rfl)
  | recvFrom connId os =>
      obtain ⟨r, hr⟩ := snd_returns.mp h
      exact same (receive_sameSlots hr) (Or.inl rfl)
  | recvFromAll connIds os => exact same (recvFromAll_sameSlots h) (Or.inl rfl)
  | update os => exact same (update_onlyErrors h).sameSlots (Or.inl rfl)
  | close connId => exact of_close h rfl rfl rfl
  | sendOneshot host port data os =>
      obtain ⟨r, hr⟩ := snd_returns.mp h
      exact of_sendOneshot hr

end SlotStep

/-- The constructor is a call of `serve`, or nothing. -/
theorem construct_eq (port : Nat) (os : OpenAnswers) :
    construct port os = if 0 < port then Op.step Process.empty (.serve (port % 2 ^ 16) os)
      else .ok Process.empty := by
  unfold construct
  split
  · show (Process.empty.serve (port % 2 ^ 16) os >>= fun r => .ok r.2) =
      Prod.snd <$> Process.empty.serve (port % 2 ^ 16) os
    cases Process.empty.serve (port % 2 ^ 16) os <;> rfl
  · rfl

namespace SlotsOK

variable {s s' : Process}

theorem of_step (h : SlotsOK s) {op : Op} (hs : op.step s = .ok s') : SlotsOK s' := by
  cases SlotStep.of_step h hs with
  | same hsame _ => exact h.of_sameSlots hsame
  | opened ho _ _ => exact h.of_opened ho
  | closed hw hconns hfree _ =>
      have hok := h.of_walk hw
      refine ⟨by rw [hfree]; exact hok.nodup, fun index hmem => ?_⟩
      rw [hfree] at hmem
      obtain ⟨i, hi, hi'⟩ := hok.free index hmem
      exact ⟨i, hi, by rw [IsFree, hconns]; exact hi'⟩

theorem of_construct {port : Nat} {os : OpenAnswers} (h : construct port os = .ok s) :
    SlotsOK s := by
  rw [construct_eq] at h
  split at h
  · exact of_empty.of_step h
  · cases h
    exact of_empty

theorem of_reachable {promise : Process → Int → Prop} (h : (pool promise).Reachable s) :
    SlotsOK s := by
  refine h.invariant (I := SlotsOK) ?_ ?_
  · rintro s ⟨port, os, -, hs⟩
    exact of_construct hs
  · intro s op s' hI _ hs
    exact hI.of_step hs

end SlotsOK

/--
**No slot is handed out while it is in use.**  In every reachable state the free
list has no duplicate, lists only indices of `conns_`, and only of connections
whose state is `FREE`; so `alloc_slot` returns the number that means "none" or the
index of a connection that is not `ACTIVE`.
-/
theorem freeIndices_exclusive (promise : Process → Int → Prop) (s : Process)
    (h : (pool promise).Reachable s) :
    s.freeIndices.Nodup ∧
      (∀ index ∈ s.freeIndices, ∃ hlt : index < maxConnections,
        (s.conns ⟨index, hlt⟩).state = .free) ∧
      (s.allocSlot.1 = maxConnections ∨ ∃ hlt : s.allocSlot.1 < maxConnections,
        (s.conns ⟨s.allocSlot.1, hlt⟩).state ≠ .active) := by
  have hok : SlotsOK s := SlotsOK.of_reachable h
  refine ⟨hok.nodup, ?_, ?_⟩
  · intro index hmem
    obtain ⟨i, rfl, hfree⟩ := hok.free index hmem
    exact ⟨i.isLt, hfree⟩
  · by_cases hnil : s.freeIndices = []
    · exact Or.inl (by rw [allocSlot_nil hnil])
    · obtain ⟨rest, i, hfree⟩ := hok.concat_of_ne_nil hnil
      refine Or.inr ?_
      rw [allocSlot_concat hfree]
      refine ⟨i.isLt, ?_⟩
      have hi : s.IsFree i := hok.isFree_of_mem (by rw [hfree]; simp)
      rw [show (s.conns ⟨i.val, i.isLt⟩).state = .free from hi]
      exact nofun

/-- A pool that serves two ports and has closed one of them again. -/
theorem freeIndices_exclusive_served :
    ∃ s, (pool Fresh).Reachable s ∧ (s.conns 0).state = .active ∧
      s.freeIndices.length = 1023 ∧ s.freeIndices.Nodup ∧
      (∀ index ∈ s.freeIndices, ∃ hlt : index < maxConnections,
        (s.conns ⟨index, hlt⟩).state = .free) := by
  obtain ⟨s, hs, hP⟩ := Machine.exists_reachable start_empty
    [.serve 9000 { socket := 3 }, .serve 9001 { socket := 4 }, .close 1]
    (fun s => (s.conns 0).state = .active ∧ s.freeIndices.length = 1023) (by decide +kernel)
  obtain ⟨hact, hlen⟩ := of_decide_eq_true hP
  obtain ⟨hnd, hfree, -⟩ := freeIndices_exclusive Fresh s hs
  exact ⟨s, hs, hact, hlen, hnd, hfree⟩

/-! ### Closing one slot

What a caller expects of `close` is compared with what it does.  The walk behind the slot is
the whole difference: with nothing on it but the slot itself the call does what is expected,
and with anything else it does not.
-/

/-- `close` returns, changes no other connection, and puts on the free list just the
slot it was given, if that was in use. -/
def CloseIsLocal (s : Process) (id : Fin maxConnections) : Prop :=
  ∃ s', s.close id.val = .ok s' ∧ (∀ j, j ≠ id → s'.conns j = s.conns j) ∧
    s'.freeIndices = s.freeIndices ++ if (s.conns id).state = .free then [] else [id.val]

/-- The slot is not in use, or its descriptor is the index of a slot that is not. -/
def ClosesAlone (s : Process) (id : Fin maxConnections) : Prop :=
  (s.conns id).state = .free ∨ ∃ j, s.next id = some j ∧ (s.conns j).state = .free

theorem walk_of_closesAlone {s : Process} {id : Fin maxConnections} (h : ClosesAlone s id) :
    s.Walk id (if (s.conns id).state = .free then [] else [id]) := by
  split
  · rename_i hfree
    exact Trail.done hfree
  · rename_i hbusy
    obtain ⟨j, hj, hfree⟩ := h.resolve_left hbusy
    exact Trail.step hbusy hj (Trail.done hfree)

/-- A walk of at most one slot is the walk of a slot that closes alone. -/
theorem closesAlone_of_walk {s : Process} {id : Fin maxConnections}
    {l : List (Fin maxConnections)} (hw : s.Walk id l) (hl : l.length ≤ 1) :
    ClosesAlone s id := by
  cases hw with
  | done hfree => exact Or.inl hfree
  | @step _ j rest hbusy hj hw =>
      have hrest : rest = [] := by simpa using hl
      exact Or.inr ⟨j, hj, hw.eq_nil_iff.mp hrest⟩

/--
**Closing is local exactly when the walk stops at the next slot.**  If the
descriptor number of a connection is the index of another connection in use, then
closing the first one resets the second as well, or does not return; a descriptor
that is no index at all is read past the end of `conns_`.
-/
theorem close_local_iff (s : Process) (id : Fin maxConnections) :
    CloseIsLocal s id ↔ ClosesAlone s id := by
  constructor
  · rintro ⟨s', hc, hothers, -⟩
    obtain ⟨l, hw, rfl⟩ := (close_eq_ok s s' id).mp hc
    refine closesAlone_of_walk hw ?_
    -- a second slot on the walk would have been reset
    by_contra hlen
    cases hw with
    | done _ => simp at hlen
    | @step _ j rest hbusy hj hw =>
        cases hw with
        | done _ => simp at hlen
        | @step _ k tail hbusy' hk hw' =>
            have hnd := (Trail.step hbusy hj (Trail.step hbusy' hk hw')).nodup
            have hne : j ≠ id := by
              rintro rfl
              simp at hnd
            have hreset := hothers j hne
            rw [releaseAll_conns, if_pos (by simp)] at hreset
            exact hbusy' (by rw [IsFree, ← hreset])
  · intro h
    have hw := walk_of_closesAlone h
    refine ⟨_, (close_eq_ok s _ id).mpr ⟨_, hw, rfl⟩, ?_, ?_⟩
    · intro j hj
      rw [releaseAll_conns, if_neg]
      split
      · simp
      · simpa using hj
    · rw [releaseAll_freeIndices]
      split <;> simp

/-- One connection on descriptor 3: no slot has that index in use. -/
theorem close_local_single :
    ∃ s, (pool Fresh).Reachable s ∧ (s.conns 0).state = .active ∧ CloseIsLocal s 0 := by
  obtain ⟨s, hs, hP⟩ := Machine.exists_reachable start_empty
    [.serve 9000 { socket := 3 }]
    (fun s => (s.conns 0).state = .active ∧ s.next 0 = some 3 ∧ (s.conns 3).state = .free)
    (by decide +kernel)
  obtain ⟨hact, hnext, hfree⟩ := of_decide_eq_true hP
  exact ⟨s, hs, hact, (close_local_iff s 0).mpr (Or.inr ⟨3, hnext, hfree⟩)⟩

/-- Four connections on descriptors 3 to 6: closing connection 0, whose descriptor
is 3, resets connection 3 as well. -/
theorem close_not_local :
    ∃ s, (pool Fresh).Reachable s ∧ (∃ s', s.close 0 = .ok s' ∧
      (s.conns 3).state = .active ∧ (s'.conns 3).state = .free ∧
      s'.freeIndices = s.freeIndices ++ [3, 0]) ∧ ¬ CloseIsLocal s 0 := by
  obtain ⟨s, hs, hP⟩ := Machine.exists_reachable start_empty
    [.serve 9000 { socket := 3 }, .serve 9001 { socket := 4 }, .serve 9002 { socket := 5 },
      .serve 9003 { socket := 6 }]
    (fun s => match s.close 0 with
      | .ok s' => decide ((s.conns 3).state = .active ∧ (s'.conns 3).state = .free ∧
          s'.freeIndices = s.freeIndices ++ [3, 0])
      | .error _ => false) (by decide +kernel)
  split at hP
  · rename_i s' hc
    obtain ⟨hact, hreset, hlist⟩ := of_decide_eq_true hP
    refine ⟨s, hs, ⟨s', hc, hact, hreset, hlist⟩, ?_⟩
    rintro ⟨s'', hc', hothers, -⟩
    have heq : s'' = s' := Except.ok.inj (hc'.symm.trans hc)
    have h3 := hothers 3 (by decide +kernel)
    rw [heq] at h3
    rw [h3, hact] at hreset
    cases hreset
  · cases hP

end Ytl.Udp
