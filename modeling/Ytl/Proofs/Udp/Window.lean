/-
Which slots of the ring hold packets.

`length` counts the packets since the last drain, and a flush goes through the last eight
positions below it.  Every packet that waits lies in one of them: a new one is put at the
position `length`, a flush that gets through marks them all and starts again at 0, and one that
does not leaves `length` alone.  Only when the 32 bits of `length` are used up do packets fall
out of the window.

The bound on `length` is a condition on each packet and not on the run, because a flush that
gets through sets the count back.
-/
import Ytl.Proofs.Udp.Routing

namespace Ytl.Udp

namespace Process

/-- Of the ring only the slot `k` may be another. -/
structure OnlySlot (k : Fin maxBufferedPackets) (s s' : Process) : Prop where
  length : s'.packetQueue.length = s.packetQueue.length
  others : ∀ j, j ≠ k → s'.packetQueue.packets j = s.packetQueue.packets j

theorem OnlySlot.queueSteps (k : Fin maxBufferedPackets) : QueueSteps k (OnlySlot k) where
  refl _ := ⟨rfl, fun _ _ => rfl⟩
  trans _ _ _ h h' :=
    ⟨h'.length.trans h.length, fun j hj => (h'.others j hj).trans (h.others j hj)⟩
  blocks _ _ := ⟨rfl, fun _ _ => rfl⟩
  packet _ _ := ⟨rfl, fun _ hj => Function.update_of_ne hj _ _⟩
  addrs _ _ := ⟨rfl, fun _ _ => rfl⟩

theorem queuePacket_length {s t : Process} {owner : Endpoint} {addr : Option Address}
    {data : List UInt8} {a : Alloc} {r : SendResult}
    (h : s.queuePacket owner addr data a = .ok (r, t)) :
    t.packetQueue.length = (s.packetQueue.length + 1) % 2 ^ 32 := by
  obtain ⟨v, hv, ht⟩ := queuePacket_steps (OnlySlot.queueSteps _) h
  rcases ht with rfl | ⟨d, rfl⟩
  · exact hv.length
  · exact hv.length

/-- The packets that wait lie in the window a flush goes through. -/
def InWindow (s : Process) : Prop :=
  ∀ k, (s.packetQueue.packets k).len ≠ 0 → k ∈ s.waiting

/-! ### What keeps packets in the window -/

theorem mem_waiting {s : Process} {k : Fin maxBufferedPackets} :
    k ∈ s.waiting ↔ (∃ i, s.packetQueue.length - 8 ≤ i ∧ i < s.packetQueue.length ∧
      ringSlot i = k) ∧ (s.packetQueue.packets k).len ≠ 0 := by
  unfold waiting waitingIn windowSlots
  rw [List.mem_filter, List.mem_map, decide_eq_true_iff]
  refine and_congr_left fun _ => exists_congr fun i => ?_
  rw [List.mem_range'_1]
  constructor
  · rintro ⟨⟨hlow, hhigh⟩, hi⟩
    exact ⟨hlow, by omega, hi⟩
  · rintro ⟨hlow, hhigh, hi⟩
    exact ⟨⟨hlow, by omega⟩, hi⟩

namespace InWindow

variable {s s' : Process}

theorem of_queue (h : InWindow s) (hq : s'.packetQueue = s.packetQueue) : InWindow s' := by
  intro k hk
  rw [hq] at hk
  have hmem := mem_waiting.mp (h k hk)
  rw [mem_waiting, hq]
  exact hmem

theorem of_empty : InWindow Process.empty := fun _ hk => absurd rfl hk

/-- A packet that is queued takes the position after the others, and the one it replaces was the
last in the window. -/
theorem queuePacket (h : InWindow s) (hlen : s.packetQueue.length + 1 < 2 ^ 32)
    {owner : Endpoint} {addr : Option Address} {data : List UInt8} {a : Alloc} {r : SendResult}
    (hq : s.queuePacket owner addr data a = .ok (r, s')) : InWindow s' := by
  obtain ⟨t, ht, hs'⟩ := queuePacket_steps (OnlySlot.queueSteps _) hq
  have hqueue : s'.packetQueue = t.packetQueue := by
    rcases hs' with rfl | ⟨d, rfl⟩ <;> rfl
  refine of_queue (s := t) ?_ hqueue
  have hlength : t.packetQueue.length = s.packetQueue.length + 1 :=
    ht.length.trans (Nat.mod_eq_of_lt hlen)
  intro k hk
  refine mem_waiting.mpr ⟨?_, hk⟩
  rw [hlength]
  by_cases hnew : k = ringSlot s.packetQueue.length
  · exact ⟨s.packetQueue.length, by omega, Nat.lt_succ_self _, hnew.symm⟩
  · rw [ht.others k hnew] at hk
    obtain ⟨⟨i, hlow, hhigh, hi⟩, -⟩ := mem_waiting.mp (h k hk)
    refine ⟨i, ?_, Nat.lt_succ_of_lt hhigh, hi⟩
    by_contra hlast
    rw [← hi, ringSlot_eq_iff] at hnew
    omega

/-- What a flush leaves was there before, and if it leaves nothing it starts again. -/
theorem flush (h : InWindow s) {connId : Nat} {outcome : Nat → SendOutcome} {blocked : Bool}
    (hf : s.tryFlushQueue connId outcome = .ok (blocked, s')) : InWindow s' := by
  rcases tryFlushQueue_cases hf with rfl | ⟨conn, -, hf⟩
  · exact h
  have hkept : ∀ k, (s'.packetQueue.packets k).len ≠ 0 →
      (s.packetQueue.packets k).len ≠ 0 ∧
        k ∉ accepted outcome SendOutcome.isSent s.sends.length s.waiting := by
    intro k hk
    rw [hf.packets] at hk
    split at hk
    · exact absurd rfl hk
    · rename_i hacc
      exact ⟨hk, hacc⟩
  have hends := hf.ends
  intro k hk
  obtain ⟨hold, hacc⟩ := hkept k hk
  unfold FlushEnds at hends
  split at hends
  · rename_i hnone
    rw [accepted_of_refusal_none _ _ hnone] at hacc
    exact absurd (h k hold) hacc
  · rw [mem_waiting, hends.2.2.1]
    exact ⟨(mem_waiting.mp (h k hold)).1, hk⟩
  · rw [mem_waiting, hends.2.2.1]
    exact ⟨(mem_waiting.mp (h k hold)).1, hk⟩

theorem sendVia (h : InWindow s) (hlen : s.packetQueue.length + 1 < 2 ^ 32) {connId : Nat}
    {addr : Option Address} {data : List UInt8} {os : SendAnswers} {r : SendResult}
    (hs : s.sendVia connId addr data os = .ok (r, s')) : InWindow s' := by
  have hflushed : ∀ {blocked t}, s.tryFlushQueue connId os.outcome = .ok (blocked, t) →
      InWindow t ∧ t.packetQueue.length + 1 < 2 ^ 32 := by
    intro blocked t ht
    refine ⟨h.flush ht, ?_⟩
    rcases tryFlushQueue_cases ht with rfl | ⟨conn, -, hf⟩
    · exact hlen
    · have hle := hf.length_le
      omega
  obtain ⟨conn, rfl, hexit⟩ := sendVia_sends hs
  cases hexit with
  | skipped _ => exact h
  | blocked _ ht hq => exact (hflushed ht).1.queuePacket (hflushed ht).2 hq
  | sent _ ht _ => exact (hflushed ht).1.of_queue rfl
  | @refused t _ _ _ ht _ hq =>
      have hhanded : InWindow (t.handOver conn addr data .wouldBlock) :=
        (hflushed ht).1.of_queue rfl
      exact hhanded.queuePacket (hflushed ht).2 hq
  | failed _ ht _ => exact (hflushed ht).1.of_queue rfl

end InWindow

end Process

open Process

/-! ### Whole runs

A call of `send` may be made by an operation in the middle of a loop.  What such a call has to
meet is said once, for any condition, and used for the count here and for the order elsewhere.
-/

/-- Each call of `send` and `send_to` that the operation makes meets the condition `P`. -/
def SendsMeet (P : Process → Nat → Option Address → List UInt8 → SendAnswers → Prop)
    (s : Process) : Op → Prop
  | .send connId data os => P s connId none data os
  | .sendTo connId addr data os => P s connId (some addr) data os
  | .sendToAll connIds data os =>
      (Machine.ofStep (sendRound data os)).Meets (fun t id => P t id none data os) s connIds
  | _ => True

/-- Another packet can be counted. -/
def CanCount (s : Process) (_ : Nat) (_ : Option Address) (_ : List UInt8) (_ : SendAnswers) :
    Prop :=
  s.packetQueue.length + 1 < 2 ^ 32

namespace Process.InWindow

variable {s s' : Process}

theorem of_sendRound (h : InWindow s) {data : List UInt8} {os : SendAnswers} {id : Nat}
    (hc : CanCount s id none data os) (hs : sendRound data os s id = .ok s') :
    InWindow s' := by
  obtain ⟨r, hr⟩ := sendRound_returns hs
  exact h.sendVia hc hr

theorem of_updateOne (h : InWindow s) {outcome : Nat → SendOutcome} {i : Fin maxConnections}
    (hs : updateOne outcome s i = .ok s') : InWindow s' := by
  rcases updateOne_cases hs with ⟨-, rfl⟩ | ⟨-, blocked, ht⟩
  · exact h
  · exact h.flush ht

/-- **One operation** whose packets can be counted. -/
theorem of_step (h : InWindow s) {op : Op} (hc : SendsMeet CanCount s op)
    (hs : op.step s = .ok s') : InWindow s' := by
  unfold Op.step at hs
  cases op with
  | create host port connect os =>
      obtain ⟨r, hr⟩ := snd_returns.mp hs
      exact h.of_queue (create_sameQueue hr).queue
  | serve port os =>
      obtain ⟨r, hr⟩ := snd_returns.mp hs
      exact h.of_queue (serve_sameQueue hr).queue
  | send connId data os =>
      obtain ⟨r, hr⟩ := snd_returns.mp hs
      exact h.sendVia hc hr
  | sendTo connId addr data os =>
      obtain ⟨r, hr⟩ := snd_returns.mp hs
      exact h.sendVia hc hr
  | sendToAll connIds data os =>
      exact Machine.foldlM_invariant_of_meets (m := Machine.ofStep (sendRound data os))
        (fun _ _ _ hI hlen ht => of_sendRound hI hlen ht) connIds s s' h hc hs
  | recv connId os =>
      obtain ⟨r, hr⟩ := snd_returns.mp hs
      exact h.of_queue (receive_sameQueue hr).queue
  | recvFrom connId os =>
      obtain ⟨r, hr⟩ := snd_returns.mp hs
      exact h.of_queue (receive_sameQueue hr).queue
  | recvFromAll connIds os => exact h.of_queue (recvFromAll_sameQueue hs).queue
  | update os =>
      exact Machine.foldlM_invariant_of_admitted (m := Machine.ofStep (updateOne os.outcome))
        (fun _ _ _ hI _ ht => of_updateOne hI ht) _ s s' h (Machine.admitted_ofStep _ _ s) hs
  | close connId => exact h.of_queue (close_sameQueue hs).queue
  | sendOneshot host port data os =>
      obtain ⟨r, hr⟩ := snd_returns.mp hs
      exact h.of_queue (sendOneshot_queue hr)

end Process.InWindow

section SendsMeet

variable {P Q E : Process → Nat → Option Address → List UInt8 → SendAnswers → Prop}

theorem sendsMeet_of_forall (h : ∀ s connId addr data os, P s connId addr data os) (s : Process)
    (op : Op) : SendsMeet P s op := by
  cases op with
  | send connId data os => exact h s connId none data os
  | sendTo connId addr data os => exact h s connId (some addr) data os
  | sendToAll connIds data os =>
      exact Machine.meets_of_forall (fun t id => h t id none data os) connIds s
  | _ => exact trivial

/-- Conditions that agree on every call agree on every operation. -/
theorem sendsMeet_congr_of_invariant {I : Process → Prop}
    (hcall : ∀ s connId addr data os r s', I s → E s connId addr data os →
      s.sendVia connId addr data os = .ok (r, s') →
      (P s connId addr data os ↔ Q s connId addr data os) ∧ I s')
    {s s' : Process} {op : Op} (hI : I s) (hE : SendsMeet E s op) (hs : op.step s = .ok s') :
    SendsMeet P s op ↔ SendsMeet Q s op := by
  cases op with
  | send connId data os =>
      obtain ⟨r, hr⟩ := snd_returns.mp hs
      exact (hcall s connId none data os r s' hI hE hr).1
  | sendTo connId addr data os =>
      obtain ⟨r, hr⟩ := snd_returns.mp hs
      exact (hcall s connId (some addr) data os r s' hI hE hr).1
  | sendToAll connIds data os =>
      refine Machine.meets_congr_of_invariant (m := Machine.ofStep (sendRound data os)) ?_
        connIds s s' hI hE hs
      intro t id t' ht hEt hround
      obtain ⟨r, hr⟩ := sendRound_returns hround
      exact hcall t id none data os r t' ht hEt hr
  | _ => exact Iff.rfl

theorem sendsMeet_congr
    (hcall : ∀ s connId addr data os r s', s.sendVia connId addr data os = .ok (r, s') →
      (P s connId addr data os ↔ Q s connId addr data os))
    {s s' : Process} {op : Op} (hs : op.step s = .ok s') : SendsMeet P s op ↔ SendsMeet Q s op :=
  sendsMeet_congr_of_invariant (I := fun _ => True) (E := fun _ _ _ _ _ => True)
    (fun s connId addr data os r s' _ _ h => ⟨hcall s connId addr data os r s' h, trivial⟩)
    trivial (sendsMeet_of_forall (fun _ _ _ _ _ => trivial) s op) hs

end SendsMeet

end Ytl.Udp
