/-
Who is told that a transfer has ended.

`update` looks for the first request that has the easy handle of the message.  While no
slot and no easy handle has been used twice, a request that is added to the multi handle
is the only one with its easy handle, so the message finds the request that `create` gave
the handle to, and nothing else changes.

Messages are handled one after the other, and each in the state that the one before it has
left.  So the promise on them is also made one by one: the transfer that a message is about
has to be added when the message is read, and handling a message removes one.
-/
import Ytl.Proofs.Https.FirstRound

namespace Ytl.Https.Session

open Client

/-! ### Messages, one after the other

The list of messages is gone through as `update` does, with the state it is in each time.
-/

/-- libcurl reports the end of transfers that are added when the message is read. -/
def Reports : Client → List CurlMsg → Prop
  | _, [] => True
  | c, msg :: rest =>
      (msg.done = true → ∃ h ∈ c.added, msg.easyHandle = some h) ∧ Reports (c.finish msg) rest

/-- The message changes the state and the error of one request, the only one that was
given its easy handle, and nothing of any other. -/
def RoutedTo (assigned : List (Fin maxConcurrentRequests × Option Nat)) (c : Client)
    (msg : CurlMsg) : Prop :=
  ∃ i, (∀ j, (j, msg.easyHandle) ∈ assigned ↔ j = i) ∧
    (c.finish msg).requests =
      Function.update c.requests i (completed (c.requests i) msg.result)

/-- Every message is, in the state in which it is read. -/
def EachRouted (assigned : List (Fin maxConcurrentRequests × Option Nat)) :
    Client → List CurlMsg → Prop
  | _, [] => True
  | c, msg :: rest =>
      (msg.done = true → RoutedTo assigned c msg) ∧ EachRouted assigned (c.finish msg) rest

/-! ### Runs

At most 512 requests are made, so no slot and no easy handle is used twice.
-/

/-- At most 512 requests are made, and libcurl reports what is added. -/
def completionMachine : Machine Session PublicOp Fault where
  start s := ∃ easyInit, Function.Injective easyInit ∧ s = fresh easyInit
  admits s
    | .create _ _ _ => s.assigned.length < maxConcurrentRequests
    | .start _ _ => True
    | .update os => ∀ c, os.writes.foldlM deliver s.client = .ok c → Reports c os.messages
  step := step

/-- The messages of an `update` reach the requests they are about, one by one. -/
def MessagesRouted (s : Session) : PublicOp → Session → Prop
  | .update os, t => ∃ c, os.writes.foldlM deliver s.client = .ok c ∧
      EachRouted s.assigned c os.messages ∧ t.client = os.messages.foldl finish c
  | _, _ => True

/-- A request that has left `PENDING` is not `PENDING` again. -/
def StaysDone (s t : Session) : Prop :=
  ∀ p ∈ s.assigned, (s.client.requests p.1).state ≠ .pending →
    (t.client.requests p.1).state ≠ .pending

variable {easyInit : Fin maxConcurrentRequests → Option Nat} {s t : Session}

namespace FirstRound

theorem finish_step {c : Client} {assigned : List (Fin maxConcurrentRequests × Option Nat)}
    (h : FirstRound easyInit ⟨c, assigned⟩) (msg : CurlMsg) :
    FirstRound easyInit ⟨c.finish msg, assigned⟩ := by
  have hf := finish_finished c msg
  exact h.of_progress (finish_progress c msg) (h.bounds.of_same hf.pos hf.responses)

/-- **One message** reaches the request that `create` gave its easy handle to. -/
theorem routedTo {c : Client} {assigned : List (Fin maxConcurrentRequests × Option Nat)}
    (h : FirstRound easyInit ⟨c, assigned⟩) (hinj : Function.Injective easyInit) {msg : CurlMsg}
    (hdone : msg.done = true) {x : Nat} (hx : x ∈ c.added) (hmsg : msg.easyHandle = some x) :
    RoutedTo assigned c msg := by
  obtain ⟨i, hi, heasy⟩ := h.added x hx
  have hends : c.Ends msg i := by
    refine ⟨hdone, ?_⟩
    rw [hmsg]
    exact h.requestOf_eq (fun _ _ hij => hinj hij) hi heasy
  refine ⟨i, fun j => ?_, by rw [finish_of_ends hends]⟩
  rw [hmsg, h.log j (some x)]
  constructor
  · rintro ⟨-, hj⟩
    exact hinj (hj.symm.trans heasy.symm)
  · rintro rfl
    exact ⟨hi, heasy.symm⟩

theorem eachRouted {assigned : List (Fin maxConcurrentRequests × Option Nat)}
    (hinj : Function.Injective easyInit) :
    ∀ (msgs : List CurlMsg) (c : Client), FirstRound easyInit ⟨c, assigned⟩ → Reports c msgs →
      EachRouted assigned c msgs := by
  intro msgs
  induction msgs with
  | nil =>
      intro c _ _
      exact trivial
  | cons msg rest ih =>
      intro c h hrep
      obtain ⟨hnow, hlater⟩ := hrep
      refine ⟨fun hdone => ?_, ih (c.finish msg) (h.finish_step msg) hlater⟩
      obtain ⟨x, hx, hmsg⟩ := hnow hdone
      exact h.routedTo hinj hdone hx hmsg

/-- The bytes that arrive before the messages are read. -/
theorem deliverAll_step (h : FirstRound easyInit s) (writes : List (Nat × List UInt8)) :
    ∃ c, writes.foldlM deliver s.client = .ok c ∧ FirstRound easyInit ⟨c, s.assigned⟩ := by
  obtain ⟨c, hc, -, hbounds⟩ := deliverAll_spec writes s.client h.bounds
  exact ⟨c, hc, h.of_progress (deliverAll_progress hc) hbounds⟩

end FirstRound

/-- One step of a run in which libcurl keeps its promise. -/
theorem routed_step (hinj : Function.Injective easyInit) (h : FirstRound easyInit s)
    (op : PublicOp) (ha : completionMachine.admits s op) :
    ∃ t, s.step op = .ok t ∧ (MessagesRouted s op t ∧ StaysDone s t) ∧ FirstRound easyInit t := by
  cases op with
  | create url method spare =>
      have hlt : s.assigned.length < maxConcurrentRequests := ha
      obtain ⟨c, hc, hnew⟩ := h.create_step hlt url method spare
      refine ⟨_, hc, ⟨trivial, ?_⟩, h.of_created hnew⟩
      rintro ⟨i, x⟩ hp hdone
      have hi := ((h.log i x).mp hp).1
      have hne : i ≠ ⟨s.assigned.length, hlt⟩ := fun hc => Nat.ne_of_lt hi (congrArg Fin.val hc)
      show (c.requests i).state ≠ .pending
      rw [hnew.others i hne]
      exact hdone
  | start handle accepts =>
      obtain ⟨c, hc, hfirst, hsame⟩ := h.start_step handle accepts
      refine ⟨_, hc, ⟨trivial, ?_⟩, hfirst⟩
      intro p _ hdone
      show (c.requests p.1).state ≠ .pending
      rw [hsame]
      exact hdone
  | update os =>
      obtain ⟨c, hc, ht, hfirst⟩ := h.update_step os
      obtain ⟨u, hu, hfirst'⟩ := h.deliverAll_step os.writes
      refine ⟨_, ht, ⟨⟨u, hu, ?_, ?_⟩, ?_⟩, hfirst⟩
      · exact FirstRound.eachRouted hinj os.messages u hfirst' (ha u hu)
      · have heq : s.client.update os = .ok (os.messages.foldl finish u) := by
          rw [Client.update, hu]
          rfl
        exact Except.ok.inj (hc.symm.trans heq)
      · intro p _ hdone hpend
        exact hdone ((update_progress hc).pending p.1 hpend)

/--
**Every completion reaches the request it belongs to.**  Over any run of at most 512
`create` calls, `start` and `update`, with different easy handles and with messages only
for handles that are added, every call returns; each message that a transfer is done
changes the state and the error of the one request that was given the easy handle and
leaves every other request as it is; and a request that has left `PENDING` is never
`PENDING` again.
-/
theorem completions_routed (easyInit : Fin maxConcurrentRequests → Option Nat)
    (hinj : Function.Injective easyInit) (ops : List PublicOp)
    (hadm : completionMachine.Admitted (fresh easyInit) ops) :
    completionMachine.Always (fun s op t => MessagesRouted s op t ∧ StaysDone s t)
      (fresh easyInit) ops := by
  refine Machine.always_of_invariant (m := completionMachine) (I := FirstRound easyInit) ?_ ops _
    (FirstRound.of_fresh easyInit) hadm
  intro s op h ha
  exact routed_step hinj h op ha

instance instDecidableReports : ∀ (c : Client) (msgs : List CurlMsg), Decidable (Reports c msgs)
  | _, [] => inferInstanceAs (Decidable True)
  | c, msg :: rest =>
      have := instDecidableReports (c.finish msg) rest
      inferInstanceAs (Decidable
        ((msg.done = true → ∃ h ∈ c.added, msg.easyHandle = some h) ∧
          Reports (c.finish msg) rest))

instance (s : Session) (op : PublicOp) : Decidable (completionMachine.admits s op) :=
  match op with
  | .create _ _ _ =>
      inferInstanceAs (Decidable (s.assigned.length < maxConcurrentRequests))
  | .start _ _ => inferInstanceAs (Decidable True)
  | .update os =>
      match hw : os.writes.foldlM deliver s.client with
      | .error _ => isTrue fun c hc => by rw [hw] at hc; cases hc
      | .ok c => decidable_of_iff (Reports c os.messages)
          ⟨fun h c' hc' => Except.ok.inj (hw.symm.trans hc') ▸ h, fun h => h c hw⟩

/-- Two transfers, of which the second fails before the first succeeds. -/
theorem completions_routed_two :
    completionMachine.Always (fun s op t => MessagesRouted s op t ∧ StaysDone s t)
      (fresh fun i => some i.val)
      [.create [] .get [0], .create [] .get [0], .start ⟨0, 0⟩ true, .start ⟨1, 0⟩ true,
        .update { messages := [{ easyHandle := some 1, result := .operationTimedout }] },
        .update { writes := [(0, [65])], messages := [{ easyHandle := some 0 }] }] := by
  obtain ⟨hadm, -⟩ := Machine.meets_of_check (m := completionMachine) (C := fun _ _ => True)
    [.create [] .get [0], .create [] .get [0], .start ⟨0, 0⟩ true, .start ⟨1, 0⟩ true,
      .update { messages := [{ easyHandle := some 1, result := .operationTimedout }] },
      .update { writes := [(0, [65])], messages := [{ easyHandle := some 0 }] }]
    (fresh fun i => some i.val) (by decide +kernel)
  exact completions_routed _ (fun i j hij => Fin.ext (Option.some.inj hij)) _ hadm

end Ytl.Https.Session
