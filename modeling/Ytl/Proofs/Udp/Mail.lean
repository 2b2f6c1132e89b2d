/-
What becomes of a datagram that is kept.

It goes out at most once, after those that were kept before it, with its own bytes, its own
destination and the connection it was given to on the record; as long as it has not gone out it
waits in the ring, until eight later ones have been kept.

`update` offers what is kept on one line after the other.  A line that is refused leaves the
rest to the next one, so that everything goes out unless every line that could be used is
refused, and each at most once.
-/
import Ytl.Proofs.Udp.Postbox

namespace Ytl.Udp

open Process

/-- The kept datagram that went out with a call, with its number. -/
def SendCall.posted (c : SendCall) : Option (Nat × Datagram) :=
  if c.outcome.isSent then c.serial.map fun n => (n, ⟨c.owner, c.dest, c.bytes⟩) else none

namespace Postbox

variable {outcome : Nat → SendOutcome} {p p' : Postbox} {connId : Nat} {line : Endpoint}

/-! ### One flush

What is kept is split by a flush into the part that goes out and the part that is left, in
this order, and the calls are for the first part and at most one datagram of the second.
-/

/-- The calls that offer what is kept on a line. -/
def offers (outcome : Nat → SendOutcome) (p : Postbox) (line : Endpoint) : List SendCall :=
  (offer outcome SendOutcome.isSent p.calls.length p.kept).map
    fun c => callOf line c.1.1 c.1.2 c.2

/-- What is kept has been offered on the line `connId`, and only that line may be gone. -/
structure Offered (outcome : Nat → SendOutcome) (p : Postbox) (connId : Nat) (line : Endpoint)
    (p' : Postbox) : Prop where
  taken : p'.taken = p.taken
  calls : p'.calls = p.calls ++ p.offers outcome line
  kept : p'.kept =
    p.kept.drop (accepted outcome SendOutcome.isSent p.calls.length p.kept).length
  others : ∀ i, i ≠ connId → p'.lines i = p.lines i

theorem flush_none (h : p.lines connId = none) : p.flush outcome connId = (false, p) := by
  unfold flush
  rw [h]

theorem flush_offered (h : p.lines connId = some line) :
    Offered outcome p connId line (p.flush outcome connId).2 := by
  unfold flush
  rw [h]
  dsimp only
  split
  · exact ⟨rfl, rfl, rfl, fun _ _ => rfl⟩
  · exact ⟨rfl, rfl, rfl, fun _ _ => rfl⟩
  · exact ⟨rfl, rfl, rfl, fun _ hi => Function.update_of_ne hi _ _⟩

/-- A call of a flush is about something that was kept. -/
theorem mem_offers {c : SendCall} (h : c ∈ p.offers outcome line) :
    c.via = line ∧ ∃ x ∈ p.kept, c.serial = some x.1 ∧ x.2 = ⟨c.owner, c.dest, c.bytes⟩ := by
  obtain ⟨x, hx, rfl⟩ := List.mem_map.mp h
  have hkept : x.1 ∈ p.kept := (offer_sublist _ _).subset (List.mem_map_of_mem hx)
  exact ⟨rfl, x.1, hkept, rfl, rfl⟩

theorem posted_offers : (p.offers outcome line).filterMap SendCall.posted =
    accepted outcome SendOutcome.isSent p.calls.length p.kept := by
  unfold offers
  rw [accepted_eq_offer, List.filterMap_map]
  induction offer outcome SendOutcome.isSent p.calls.length p.kept with
  | nil => rfl
  | cons c rest ih =>
      rw [List.filterMap_cons, ih]
      by_cases hc : c.2.isSent = true
      · simp [SendCall.posted, callOf, hc]
      · simp [SendCall.posted, callOf, hc]

/-- What went out comes before what is left. -/
theorem Offered.split (h : Offered outcome p connId line p') :
    p.kept = (p.offers outcome line).filterMap SendCall.posted ++ p'.kept := by
  rw [posted_offers, h.kept]
  exact (accepted_append_drop outcome SendOutcome.isSent p.calls.length p.kept).symm

/-- Either everything went out, or the line was refused once. -/
theorem Offered.left (h : Offered outcome p connId line p') :
    p'.kept = [] ∨
      ((p.offers outcome line).filter fun c => !c.outcome.isSent).map SendCall.via = [line] := by
  have hrefused : ((offer outcome SendOutcome.isSent p.calls.length p.kept).filter
      fun x => !x.2.isSent).map Prod.snd =
      (refusal outcome SendOutcome.isSent p.calls.length p.kept).toList := offer_refused _ _
  cases hr : refusal outcome SendOutcome.isSent p.calls.length p.kept with
  | none =>
      refine Or.inl ?_
      rw [h.kept, accepted_of_refusal_none _ _ hr, List.drop_length]
  | some ret =>
      refine Or.inr ?_
      rw [hr, Option.toList_some] at hrefused
      obtain ⟨c, hc, hret⟩ := List.map_eq_singleton_iff.mp hrefused
      unfold offers
      rw [List.filter_map]
      have hfilter : (offer outcome SendOutcome.isSent p.calls.length p.kept).filter
          ((fun c : SendCall => !c.outcome.isSent) ∘
            fun c => callOf line c.1.1 c.1.2 c.2) = [c] := hc
      rw [hfilter]
      rfl

/-! ### `update`

The rounds are taken together: what went out in all of them is in front of what is left, and
every round that left something has had its line refused.
-/

/-- What the rounds of `update` over the connections `ids` come to. -/
structure Drained (p : Postbox) (ids : List Nat) (calls : List SendCall) (p' : Postbox) :
    Prop where
  made : p'.calls = p.calls ++ calls
  kept : p.kept = calls.filterMap SendCall.posted ++ p'.kept
  via : ∀ c ∈ calls, ∃ i ∈ ids, p.lines i = some c.via
  left : p'.kept = [] ∨
    (calls.filter fun c => !c.outcome.isSent).map SendCall.via = ids.filterMap p.lines

/-- The rounds, one after the other. -/
theorem drained_foldl (outcome : Nat → SendOutcome) :
    ∀ (ids : List Nat) (p : Postbox), ids.Nodup →
      ∃ calls, Drained p ids calls (ids.foldl (fun p i => (p.flush outcome i).2) p) := by
  intro ids
  induction ids with
  | nil =>
      intro p _
      exact ⟨[], (List.append_nil _).symm, rfl, fun _ hc => absurd hc List.not_mem_nil, Or.inr rfl⟩
  | cons i rest ih =>
      intro p hnodup
      obtain ⟨hi, hrest⟩ := List.nodup_cons.mp hnodup
      rw [List.foldl_cons]
      cases hline : p.lines i with
      | none =>
          rw [flush_none hline]
          obtain ⟨calls, h⟩ := ih p hrest
          refine ⟨calls, h.made, h.kept, fun c hc => ?_, ?_⟩
          · obtain ⟨j, hj, hvia⟩ := h.via c hc
            exact ⟨j, List.mem_cons_of_mem i hj, hvia⟩
          · rw [List.filterMap_cons, hline]
            exact h.left
      | some line =>
          have hoff : Offered outcome p i line (p.flush outcome i).2 := flush_offered hline
          obtain ⟨calls, h⟩ := ih _ hrest
          -- the lines that are still to come are as they were
          have hlines : ∀ j ∈ rest, (p.flush outcome i).2.lines j = p.lines j :=
            fun j hj => hoff.others j fun hc => hi (hc ▸ hj)
          refine ⟨p.offers outcome line ++ calls, ?_, ?_, ?_, ?_⟩
          · rw [h.made, hoff.calls, List.append_assoc]
          · rw [List.filterMap_append, List.append_assoc, ← h.kept]
            exact hoff.split
          · intro c hc
            rcases List.mem_append.mp hc with hc | hc
            · exact ⟨i, List.mem_cons_self, by rw [hline, (mem_offers hc).1]⟩
            · obtain ⟨j, hj, hvia⟩ := h.via c hc
              exact ⟨j, List.mem_cons_of_mem i hj, (hlines j hj).symm.trans hvia⟩
          · rcases h.left with hempty | hrefused
            · exact Or.inl hempty
            rcases hoff.left with hempty | hone
            · refine Or.inl ?_
              have hkept := h.kept
              rw [hempty] at hkept
              exact (List.append_eq_nil_iff.mp hkept.symm).2
            · refine Or.inr ?_
              rw [List.filter_append, List.map_append, hone, hrefused, List.filterMap_cons, hline,
                List.filterMap_congr hlines]
              rfl

/-! ### What is on the record

The record of calls has the bytes that were sent, and what was taken is listed under its
number.  That the two agree is kept by each operation, since what is offered is what is kept.
-/

/-- What is kept under a number, and every call for it, is what was taken under it. -/
structure Faithful (p : Postbox) : Prop where
  calls : ∀ c ∈ p.calls, ∀ n, c.serial = some n → p.taken[n]? = some ⟨c.owner, c.dest, c.bytes⟩
  kept : ∀ x ∈ p.kept, p.taken[x.1]? = some x.2

namespace Faithful

theorem offered (h : Faithful p) (ho : Offered outcome p connId line p') : Faithful p' := by
  refine ⟨fun c hc n hn => ?_, fun x hx => ?_⟩
  · rw [ho.taken]
    rw [ho.calls] at hc
    rcases List.mem_append.mp hc with hc | hc
    · exact h.calls c hc n hn
    · obtain ⟨-, x, hx, hserial, hdata⟩ := mem_offers hc
      rw [← hdata, ← Option.some.inj (hserial.symm.trans hn)]
      exact h.kept x hx
  · rw [ho.taken]
    rw [ho.kept] at hx
    exact h.kept x (List.mem_of_mem_drop hx)

theorem flush (h : Faithful p) (outcome : Nat → SendOutcome) (connId : Nat) :
    Faithful (p.flush outcome connId).2 := by
  cases hline : p.lines connId with
  | none =>
      rw [flush_none hline]
      exact h
  | some line => exact h.offered (flush_offered hline)

theorem keep (h : Faithful p) (d : Datagram) : Faithful (p.keep d) := by
  have hold : ∀ {n : Nat} {d' : Datagram}, p.taken[n]? = some d' →
      (p.taken ++ [d])[n]? = some d' := by
    intro n d' hn
    rw [List.getElem?_append_left (List.getElem?_eq_some_iff.mp hn).1]
    exact hn
  refine ⟨fun c hc n hn => hold (h.calls c hc n hn), fun x hx => ?_⟩
  rcases List.mem_append.mp (List.mem_filter.mp hx).1 with hx | hx
  · exact hold (h.kept x hx)
  · rw [List.mem_singleton.mp hx]
    exact List.getElem?_concat_length

/-- Calls with datagrams that are not kept. -/
theorem called (h : Faithful p) {calls : List SendCall} (hnone : ∀ c ∈ calls, c.serial = none)
    (htaken : p'.taken = p.taken) (hkept : p'.kept = p.kept)
    (hcalls : p'.calls = p.calls ++ calls) : Faithful p' := by
  refine ⟨fun c hc n hn => ?_, fun x hx => ?_⟩
  · rw [hcalls] at hc
    rw [htaken]
    rcases List.mem_append.mp hc with hc | hc
    · exact h.calls c hc n hn
    · rw [hnone c hc] at hn
      cases hn
  · rw [hkept] at hx
    rw [htaken]
    exact h.kept x hx

theorem hand (h : Faithful p) (outcome : Nat → SendOutcome) (connId : Nat) (d : Datagram) :
    Faithful (p.hand outcome connId d).2 := by
  have hcalled : ∀ {p' : Postbox} (ret : SendOutcome), p'.taken = p.taken → p'.kept = p.kept →
      p'.calls = p.calls ++ [⟨d.owner, d.owner, none, d.data, d.dest, ret⟩] → Faithful p' := by
    intro p' ret htaken hkept hcalls
    refine h.called (fun c hc => ?_) htaken hkept hcalls
    rw [List.mem_singleton.mp hc]
  unfold Postbox.hand
  dsimp only
  split
  · exact hcalled (outcome p.calls.length) rfl rfl rfl
  · refine Faithful.keep ?_ d
    exact hcalled (outcome p.calls.length) rfl rfl rfl
  · exact hcalled (outcome p.calls.length) rfl rfl rfl

theorem send (h : Faithful p) (outcome : Nat → SendOutcome) (connId : Nat)
    (addr : Option Address) (data : List UInt8) :
    Faithful (p.send outcome connId addr data).2 := by
  have hflush := h.flush outcome connId
  unfold Postbox.send
  split
  · exact h
  · split
    · rename_i hf
      rw [hf] at hflush
      exact hflush.keep _
    · rename_i hf
      rw [hf] at hflush
      exact hflush.hand _ _ _

theorem foldl {α : Type} {f : Postbox → α → Postbox}
    (hf : ∀ p a, Faithful p → Faithful (f p a)) :
    ∀ (l : List α) (p : Postbox), Faithful p → Faithful (l.foldl f p) := by
  intro l
  induction l with
  | nil => exact fun _ h => h
  | cons a rest ih => exact fun p h => ih (f p a) (hf p a h)

/-- One operation that sends. -/
theorem step (h : Faithful p) (op : Op) : Faithful (p.step op) := by
  cases op with
  | send connId data os => exact h.send os.outcome connId none data
  | sendTo connId addr data os => exact h.send os.outcome connId (some addr) data
  | sendToAll connIds data os =>
      exact foldl (fun p id hp => hp.send os.outcome id none data) connIds p h
  | update os => exact foldl (fun p i hp => hp.flush os.outcome i) _ p h
  | _ => exact h

theorem aside (h : Faithful p) (ha : Aside p p') : Faithful p' := by
  obtain ⟨calls, hcalls, hnone⟩ := ha.calls
  exact h.called (fun c hc => (hnone c hc).1) ha.taken ha.kept hcalls

end Faithful

end Postbox

/-! ### Runs of the pool

Everything is proved of the postbox, and then read as a statement about the pool whose postbox
it is.
-/

theorem faithful_of_mailing {s : Process} (h : mailing.Reachable s) : s.postbox.Faithful := by
  have hboth : RingOK s ∧ s.postbox.Faithful := by
    refine h.invariant (I := fun s => RingOK s ∧ s.postbox.Faithful) ?_ ?_
    · intro s hstart
      refine ⟨ringOK_of_mailing (Machine.Reachable.start hstart), ?_⟩
      obtain ⟨port, os, hs⟩ := hstart
      have hsame := construct_sameQueue hs
      have hempty : Process.empty.postbox.Faithful :=
        ⟨fun _ hc => absurd hc List.not_mem_nil, fun _ hx => absurd hx List.not_mem_nil⟩
      exact hempty.aside (aside_of_sameQueue hsame)
    · rintro s op s' ⟨hok, hfaith⟩ hm hs
      refine ⟨hok.of_step hm hs, ?_⟩
      cases hsends : op.sends with
      | true =>
          obtain ⟨t, ht, -, hpost⟩ := Op.step_posts hok hsends hm
          rw [← Except.ok.inj (ht.symm.trans hs), hpost]
          exact hfaith.step op
      | false => exact hfaith.aside (Op.step_aside hok hsends hs).2
  exact hboth.2

/--
**What is taken goes out once, in turn and unchanged, or waits.**  In every state that a run of
the public operations can lead to, a call of the system for the queued datagram `n` has the
bytes, the destination and the owner that were taken under that number; the numbers that went
out are increasing; and a datagram of the last eight that has not gone out waits in the ring,
as it was taken.
-/
theorem mail_kept_or_sent (s : Process) (h : mailing.Reachable s) :
    (∀ c ∈ s.sends, ∀ n, c.serial = some n →
        s.queued[n]? = some ⟨c.owner, c.dest, c.bytes⟩) ∧
      s.sentSerials.Pairwise (· < ·) ∧
      ∀ n d, s.queued[n]? = some d → s.queued.length ≤ n + 8 →
        (n ∈ s.sentSerials ∧ ∀ k ∈ s.waiting, (s.tags k).serial ≠ n) ∨
          (n ∉ s.sentSerials ∧ ∃ k ∈ s.waiting, (s.tags k).serial = n ∧ s.held k = d) := by
  have hok := ringOK_of_mailing h
  refine ⟨(faithful_of_mailing h).calls, hok.order.sorted, fun n d hn hlast => ?_⟩
  have hlt : n < s.queued.length := (List.getElem?_eq_some_iff.mp hn).1
  have hserial : ∀ {k}, k ∈ s.waiting → (s.tags k).serial ∈ s.outbox.pending 8 := by
    intro k hk
    rw [← hok.waiting_serials]
    exact List.mem_map_of_mem hk
  by_cases hsent : n ∈ s.sentSerials
  · refine Or.inl ⟨hsent, fun k hk hc => ?_⟩
    exact (Outbox.mem_pending.mp (hserial hk)).2 (hc ▸ hsent)
  · refine Or.inr ⟨hsent, ?_⟩
    have hpend : n ∈ s.outbox.pending 8 := by
      refine Outbox.mem_pending.mpr ⟨⟨?_, hlt⟩, hsent⟩
      show s.queued.length - 8 ≤ n
      omega
    rw [← hok.waiting_serials] at hpend
    obtain ⟨k, hk, rfl⟩ := List.mem_map.mp hpend
    exact ⟨k, hk, rfl, Option.some.inj ((hok.queued_of_waiting hk).symm.trans hn)⟩

/-- Two datagrams are kept, and the first of them goes out with the third. -/
theorem mail_kept_or_sent_first :
    ∃ s, mailing.Reachable s ∧ s.sentSerials = [0] ∧ s.queued.length = 3 ∧
      ∀ n d, s.queued[n]? = some d → s.queued.length ≤ n + 8 →
        (n ∈ s.sentSerials ∧ ∀ k ∈ s.waiting, (s.tags k).serial ≠ n) ∨
          (n ∉ s.sentSerials ∧ ∃ k ∈ s.waiting, (s.tags k).serial = n ∧ s.held k = d) := by
  obtain ⟨s, hs, hcheck⟩ := Machine.exists_reachable mailing_start_empty
    [.serve 9000 { socket := 3 }, .send 0 [1] { outcome := fun _ => .wouldBlock },
      .sendTo 0 { addrLen := 16 } [2, 3] { outcome := fun _ => .wouldBlock },
      .send 0 [4] { outcome := fun n => if n = 2 then .sent else .wouldBlock }]
    (fun s => decide (s.sentSerials = [0] ∧ s.queued.length = 3)) (by decide +kernel)
  obtain ⟨hsent, hlen⟩ := of_decide_eq_true hcheck
  exact ⟨s, hs, hsent, hlen, (mail_kept_or_sent s hs).2.2⟩

/--
**An update sends everything unless every line is refused.**  In every state that a run of the
public operations can lead to, `update` returns.  The datagrams that went out are the first of
those that were waiting, in their order, and the others are left; every call is made on a
connection that was usable; and if any datagram is left, then each of the connections that were
usable has been refused exactly once.
-/
theorem update_drains (s : Process) (h : mailing.Reachable s) (os : SendAnswers) :
    ∃ s' calls, s.update os = .ok s' ∧ s'.sends = s.sends ++ calls ∧
      s.unsent = calls.filterMap SendCall.posted ++ s'.unsent ∧
      (∀ c ∈ calls, ∃ i < maxConnections, s.line i = some c.via) ∧
      (s'.unsent = [] ∨ (calls.filter fun c => !c.outcome.isSent).map SendCall.via =
        (List.range maxConnections).filterMap s.line) := by
  obtain ⟨s', hs', -, hpost⟩ := update_posts os ⟨ringOK_of_mailing h, rfl⟩
  obtain ⟨calls, hd⟩ := Postbox.drained_foldl os.outcome (List.range maxConnections) s.postbox
    List.nodup_range
  have hd' : s.postbox.Drained (List.range maxConnections) calls s'.postbox := by
    rw [hpost]
    exact hd
  refine ⟨s', calls, hs', hd'.made, hd'.kept, fun c hc => ?_, hd'.left⟩
  obtain ⟨i, hi, hvia⟩ := hd'.via c hc
  exact ⟨i, List.mem_range.mp hi, hvia⟩

/-- Two lines, and one datagram to send; the first line is refused. -/
theorem update_drains_second :
    ∃ s, mailing.Reachable s ∧ s.unsent = [(0, ⟨⟨some 0, 3⟩, none, [1]⟩)] ∧
      ∃ s' calls, s.update { outcome := fun n => if n = 1 then .wouldBlock else .sent } = .ok s' ∧
        s'.sends = s.sends ++ calls ∧
        s.unsent = calls.filterMap SendCall.posted ++ s'.unsent ∧
        (s'.unsent = [] ∨ (calls.filter fun c => !c.outcome.isSent).map SendCall.via =
          (List.range maxConnections).filterMap s.line) := by
  obtain ⟨s, hs, hcheck⟩ := Machine.exists_reachable mailing_start_empty
    [.serve 9000 { socket := 3 }, .serve 9001 { socket := 4 },
      .send 0 [1] { outcome := fun _ => .wouldBlock }]
    (fun s => decide (s.unsent = [(0, ⟨⟨some 0, 3⟩, none, [1]⟩)])) (by decide +kernel)
  obtain ⟨s', calls, hs', hcalls, hkept, -, hleft⟩ :=
    update_drains s hs { outcome := fun n => if n = 1 then .wouldBlock else .sent }
  exact ⟨s, hs, of_decide_eq_true hcheck, s', calls, hs', hcalls, hkept, hleft⟩

end Ytl.Udp
