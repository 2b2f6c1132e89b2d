/-
Who owns what after a move.

The moves hand over vectors only.  What a pool has to release is in arrays of pointers and
numbers, and these are copied: afterwards both pools have every connection, every easy
handle and the multi handle, and both destructors act on them.  So a move hands over
ownership exactly if there is nothing to own.

For a pool of connections the destructor need not return, and it does not free a null
pointer; where it returns for both pools, each block of a connection in use is freed by both.

The two pools are read side by side because they share the mistake.  A pool is the value of
its fields here, whatever history it has; for the pool of connections the blocks that its
pointers name are in the heap of the process, and for the pool of requests the handles are
numbers of libcurl.
-/
import Ytl.Network.Moves
import Ytl.Network.UdpRun
import Ytl.Proofs.Https.Batches
import Ytl.Proofs.Udp.Destroy

namespace Ytl

/-! ### Pools of connections

Both pools have the same connections, so the destructors walk alike, and a block that the
first one frees the second frees again.
-/

namespace Udp

open Process

/-- Both pools are destroyed, in either order. -/
def DestroysBoth (s : Process) (pools : UDPPool × UDPPool) (t : Process) : Prop :=
  s.destroyPools [pools.1, pools.2] = .ok t ∨ s.destroyPools [pools.2, pools.1] = .ok t

/-- No block is freed more than once between the two states. -/
def FreedAtMostOnce (s t : Process) : Prop := ∀ b, t.freed.count b ≤ s.freed.count b + 1

/-- No connection in use is that of both pools, and destroying both frees no block twice. -/
structure TransfersOwnership (s : Process) (pools : UDPPool × UDPPool) : Prop where
  unshared : ∀ i, (pools.1.conns i).state ≠ .free → (pools.2.conns i).state ≠ .free →
    (pools.1.conns i).recvBuffer.map Block.id ≠ (pools.2.conns i).recvBuffer.map Block.id ∧
      (pools.1.conns i).socket ≠ (pools.2.conns i).socket
  released : ∀ t, DestroysBoth s pools t → FreedAtMostOnce s t

variable {s t : Process} {a b : UDPPool}

theorem Move.apply_conns (p : UDPPool) (m : Move) :
    (m.apply p).1.conns = p.conns ∧ (m.apply p).2.conns = p.conns := by
  cases m with
  | construct => exact ⟨rfl, rfl⟩
  | assign q left => exact ⟨rfl, rfl⟩

/-- **Both destructors free the same blocks.** -/
theorem freedAtMostOnce_iff (ha : a.conns = s.conns) (hb : b.conns = s.conns)
    (h : s.destroyPools [a, b] = .ok t) :
    FreedAtMostOnce s t ↔ ∀ i, ¬ s.IsFree i → s.bufferIds i = [] := by
  unfold destroyPools at h
  rw [List.foldlM_cons] at h
  obtain ⟨u, hu, h⟩ := bind_returns.mp h
  rw [List.foldlM_cons] at h
  obtain ⟨v, hv, h⟩ := bind_returns.mp h
  rw [← Except.ok.inj h]
  -- a destructor looks at nothing but the connections
  have hfree : ∀ (w : Process) (p : UDPPool), p.conns = s.conns → ∀ i,
      ({ w with toUDPPool := p } : Process).IsFree i ↔ s.IsFree i := by
    intro w p hp i
    show (p.conns i).state = _ ↔ _
    rw [hp]
    rfl
  have hids : ∀ (w : Process) (p : UDPPool), p.conns = s.conns → ∀ i,
      ({ w with toUDPPool := p } : Process).bufferIds i = s.bufferIds i := by
    intro w p hp i
    show ((p.conns i).recvBuffer.map Block.id).toList = _
    rw [hp]
    rfl
  constructor
  · intro honce i hi
    rw [List.eq_nil_iff_forall_not_mem]
    intro id hid
    have hfirst := destroy_frees hu (mt (hfree s a ha i).mp hi) (by rw [hids s a ha]; exact hid)
    have hsecond := destroy_frees hv (mt (hfree u b hb i).mp hi) (by rw [hids u b hb]; exact hid)
    have hle := honce id
    dsimp only at hfirst hsecond
    omega
  · intro hnone id
    have hfirst := destroy_frees_nothing hu fun i hi => by
      rw [hids s a ha]
      exact hnone i (mt (hfree s a ha i).mpr hi)
    have hsecond := destroy_frees_nothing hv fun i hi => by
      rw [hids u b hb]
      exact hnone i (mt (hfree u b hb i).mpr hi)
    rw [hsecond]
    dsimp only
    rw [hfirst]
    exact Nat.le_succ _

theorem freedAtMostOnce_moved_iff (m : Move)
    (h : DestroysBoth s (m.apply s.toUDPPool) t) :
    FreedAtMostOnce s t ↔ ∀ i, ¬ s.IsFree i → s.bufferIds i = [] := by
  obtain ⟨hnew, hold⟩ := m.apply_conns s.toUDPPool
  rcases h with h | h
  · exact freedAtMostOnce_iff hnew hold h
  · exact freedAtMostOnce_iff hold hnew h

/-- A connection that is in use is that of both pools. -/
theorem transfersOwnership_iff (s : Process) (m : Move) :
    TransfersOwnership s (m.apply s.toUDPPool) ↔ ∀ i, s.IsFree i := by
  obtain ⟨hnew, hold⟩ := m.apply_conns s.toUDPPool
  constructor
  · intro h i
    by_contra hi
    have hboth := h.unshared i (by rw [hnew]; exact hi) (by rw [hold]; exact hi)
    rw [hnew, hold] at hboth
    exact hboth.2 rfl
  · intro hall
    refine ⟨fun i hi => ?_, fun t ht => ?_⟩
    · rw [hnew] at hi
      exact absurd (hall i) hi
    · exact (freedAtMostOnce_moved_iff m ht).mpr fun i hi => absurd (hall i) hi

end Udp

/-! ### Pools of requests

A handle that is not null is cleaned up by each of the two.
-/

namespace Https

/-- No handle is that of both pools, and destroying both cleans none up twice. -/
structure TransfersOwnership (pools : OwningPool × OwningPool) : Prop where
  easy : ∀ j k h, pools.1.curlHandles j = some h → pools.2.curlHandles k ≠ some h
  multi : ∀ h, pools.1.multiHandle = some h → pools.2.multiHandle ≠ some h
  cleaned : ∀ c, (pools.1.destroy ++ pools.2.destroy).count c ≤ 1

theorem Move.apply_handles (p : OwningPool) (m : Move) :
    ((m.apply p).1.curlHandles = p.curlHandles ∧ (m.apply p).1.multiHandle = p.multiHandle) ∧
      (m.apply p).2.curlHandles = p.curlHandles ∧ (m.apply p).2.multiHandle = p.multiHandle := by
  cases m with
  | construct => exact ⟨⟨rfl, rfl⟩, rfl, rfl⟩
  | assign q left => exact ⟨⟨rfl, rfl⟩, rfl, rfl⟩

theorem destroy_eq_nil {p : OwningPool} (heasy : ∀ k, p.curlHandles k = none)
    (hmulti : p.multiHandle = none) : p.destroy = [] := by
  unfold OwningPool.destroy
  rw [hmulti, List.append_eq_nil_iff]
  refine ⟨List.filterMap_eq_nil_iff.mpr fun k _ => ?_, rfl⟩
  rw [heasy k]
  rfl

/-- A handle that is not null is that of both pools. -/
theorem transfersOwnership_iff (p : OwningPool) (m : Move) :
    TransfersOwnership (m.apply p) ↔ (∀ k, p.curlHandles k = none) ∧ p.multiHandle = none := by
  obtain ⟨⟨hnew, hnew'⟩, hold, hold'⟩ := m.apply_handles p
  constructor
  · intro h
    constructor
    · intro k
      refine Option.eq_none_iff_forall_ne_some.mpr fun x hx => ?_
      exact h.easy k k x (by rw [hnew]; exact hx) (by rw [hold]; exact hx)
    · refine Option.eq_none_iff_forall_ne_some.mpr fun x hx => ?_
      exact h.multi x (by rw [hnew']; exact hx) (by rw [hold']; exact hx)
  · rintro ⟨heasy, hmulti⟩
    refine ⟨fun j k x hx => ?_, fun x hx => ?_, fun c => ?_⟩
    · rw [hnew, heasy j] at hx
      cases hx
    · rw [hnew', hmulti] at hx
      cases hx
    · rw [destroy_eq_nil (fun k => by rw [hnew]; exact heasy k) (by rw [hnew']; exact hmulti),
        destroy_eq_nil (fun k => by rw [hold]; exact heasy k) (by rw [hold']; exact hmulti)]
      exact Nat.zero_le _

end Https

/--
**A move hands over ownership only if there is nothing to own.**  For every pool of connections,
whatever its history, and every move from it: no connection in use is that of both pools and
destroying both frees no block twice, if and only if every connection is `FREE`; and where
both destructors return, no block is freed twice if and only if no connection in use has
one.  For every pool of requests: no handle is that of both pools and none is cleaned up twice,
if and only if all of them are null.
-/
theorem pools_move_iff (s : Udp.Process) (move : Udp.Move) (p : Https.OwningPool)
    (move' : Https.Move) :
    ((Udp.TransfersOwnership s (move.apply s.toUDPPool) ↔ ∀ i, (s.conns i).state = .free) ∧
      ∀ t, Udp.DestroysBoth s (move.apply s.toUDPPool) t →
        (Udp.FreedAtMostOnce s t ↔
          ∀ i, (s.conns i).state ≠ .free → (s.conns i).recvBuffer = none)) ∧
      (Https.TransfersOwnership (move'.apply p) ↔
        (∀ k, p.curlHandles k = none) ∧ p.multiHandle = none) := by
  refine ⟨⟨Udp.transfersOwnership_iff s move, fun t ht => ?_⟩,
    Https.transfersOwnership_iff p move'⟩
  rw [Udp.freedAtMostOnce_moved_iff move ht]
  refine forall_congr' fun i => forall_congr' fun _ => ?_
  unfold Udp.Process.bufferIds
  simp

/-- A pool with one served port, and a pool as it was constructed. -/
theorem pools_move_not :
    (¬ ∀ (s : Udp.Process) (m : Udp.Move), (Udp.pool Udp.Fresh).Reachable s →
      Udp.TransfersOwnership s (m.apply s.toUDPPool)) ∧
      ¬ ∀ (easyInit : Fin Https.maxConcurrentRequests → Option Nat) (multiInit : Option Nat)
        (ops : List Https.BatchOp) (s : Https.Client) (m : Https.Move),
        ops.foldlM Https.Client.step (Https.Client.construct easyInit) = .ok s →
        Https.TransfersOwnership (m.apply ⟨s.toRequestPool, multiInit⟩) := by
  constructor
  · intro hall
    obtain ⟨s, hs, hserved⟩ := Machine.exists_reachable (m := Udp.pool Udp.Fresh)
      Udp.start_empty [.serve 9000 { socket := 5 }]
      (fun s => checkResult
        (s.destroyPools [s.toUDPPool.moveConstruct.1, s.toUDPPool.moveConstruct.2]) fun t =>
          decide (s.freed = [] ∧ t.freed = [0, 0])) (by decide +kernel)
    obtain ⟨t, ht, htwice⟩ := returns_of_checkResult hserved
    obtain ⟨hnone, htwo⟩ := of_decide_eq_true htwice
    have honce := (hall s .construct hs).released t (Or.inl ht) 0
    rw [hnone, htwo] at honce
    exact absurd honce (by decide)
  · intro hall
    have htransfers := hall (fun k => some k.val) (some 512) [] _ .construct rfl
    exact htransfers.multi 512 rfl rfl

end Ytl
