/-
Runs of the public operations, with those on batches.

Starting a batch comes to adding the easy handles of its valid handles, one after the
other: nothing that makes a handle valid changes meanwhile (`startBatch_eq`).  The other
operations make requests, deliver bytes and handle messages, and what all three keep they
keep (`step_cases`).  Among that is what is known in every state: the handles that are
added are those of the pool, each once.
-/
import Ytl.Proofs.Https.Completion

namespace Ytl.Https

/-! ### Runs

What libcurl answers comes with the operation: for each handle that is started, whether it is
taken, and for each `update`, the bytes that come in and the messages that are read.
-/

/-- The public operations, with those on batches. -/
inductive BatchOp where
  | create (url : List UInt8) (method : HttpsMethod) (spare : List UInt8)
  | start (handle : RequestHandle) (accepts : Bool)
  | startBatch (handles : List (RequestHandle × Bool))
  | update (os : PerformAnswers)
  | updateBatch (os : PerformAnswers) (handles : List RequestHandle)

/-- The handles that an operation starts, each with the answer of libcurl. -/
def BatchOp.started : BatchOp → List (RequestHandle × Bool)
  | .start handle accepts => [(handle, accepts)]
  | .startBatch handles => handles
  | _ => []

namespace Client

/-- One operation, with the answers that libcurl gives. -/
def step (s : Client) : BatchOp → Except Fault Client
  | .create url method spare => Prod.snd <$> s.create url method spare
  | .start handle accepts => s.start handle accepts
  | .startBatch handles => s.startBatch handles
  | .update os => s.update os
  | .updateBatch os handles => s.updateBatch os handles

/-- The ends that libcurl reports are those of transfers that are added, each once. -/
def ReportsAdded (s : Client) (os : PerformAnswers) : Prop :=
  ∀ c, os.writes.foldlM deliver s = .ok c → Session.Reports c os.messages

/-- Runs in which libcurl reports only ends of transfers that are added. -/
def batchMachine : Machine Client BatchOp Fault where
  start s := ∃ easyInit, s = construct easyInit
  admits s
    | .update os => ReportsAdded s os
    | .updateBatch os _ => ReportsAdded s os
    | _ => True
  step := step

/-! ### Handles that are added

libcurl has a set of easy handles.  A handle is added to it if it is not null, not in it
already, and taken; in any other case nothing changes.
-/

/-- The easy handles that are handed to libcurl for a batch, each with its answer: those of
the valid handles. -/
def easyHandles (s : Client) (handles : List (RequestHandle × Bool)) :
    List (Option Nat × Bool) :=
  (handles.filter fun handle => s.validHandle handle.1).map fun handle =>
    ((s.requests (Fin.ofNat _ handle.1.index)).curl, handle.2)

/-- What is added after a handle has been handed to libcurl. -/
def addEasy (added : List Nat) : Option Nat × Bool → List Nat
  | (none, _) => added
  | (some x, accepts) => if x ∈ added ∨ accepts = false then added else added ++ [x]

theorem addEasy_cases (added : List Nat) (easy : Option Nat × Bool) :
    addEasy added easy = added ∧ (∀ x, easy = (some x, true) → x ∈ added) ∨
      ∃ x, easy = (some x, true) ∧ x ∉ added ∧ addEasy added easy = added ++ [x] := by
  obtain ⟨curl, accepts⟩ := easy
  cases curl with
  | none => exact Or.inl ⟨rfl, nofun⟩
  | some x =>
      by_cases hx : x ∈ added ∨ accepts = false
      · refine Or.inl ⟨if_pos hx, fun y hy => ?_⟩
        obtain ⟨hxy, haccepts⟩ := Prod.mk.inj hy
        rw [← Option.some.inj hxy]
        exact hx.resolve_right fun hfalse => Bool.false_ne_true (hfalse.symm.trans haccepts)
      · obtain ⟨hnew, haccepts⟩ := not_or.mp hx
        rw [Bool.not_eq_false] at haccepts
        exact Or.inr ⟨x, by rw [haccepts], hnew, if_neg hx⟩

theorem mem_addEasy {added : List Nat} {easy : Option Nat × Bool} {x : Nat} :
    x ∈ addEasy added easy ↔ x ∈ added ∨ (some x, true) = easy := by
  rcases addEasy_cases added easy with ⟨hsame, hold⟩ | ⟨y, rfl, hnew, hadd⟩
  · rw [hsame]
    exact ⟨Or.inl, fun h => h.elim id fun heasy => hold x heasy.symm⟩
  · rw [hadd]
    simp

theorem mem_addAll {x : Nat} :
    ∀ {easy : List (Option Nat × Bool)} {added : List Nat},
      x ∈ easy.foldl addEasy added ↔ x ∈ added ∨ (some x, true) ∈ easy := by
  intro easy
  induction easy with
  | nil => simp
  | cons first rest ih =>
      intro added
      rw [List.foldl_cons, ih, mem_addEasy, List.mem_cons, or_assoc]

theorem nodup_addEasy {added : List Nat} (h : added.Nodup) (easy : Option Nat × Bool) :
    (addEasy added easy).Nodup := by
  rcases addEasy_cases added easy with ⟨hsame, -⟩ | ⟨x, -, hnew, hadd⟩
  · rw [hsame]
    exact h
  · rw [hadd, ← List.concat_eq_append]
    exact h.concat hnew

theorem nodup_addAll :
    ∀ {easy : List (Option Nat × Bool)} {added : List Nat}, added.Nodup →
      (easy.foldl addEasy added).Nodup := by
  intro easy
  induction easy with
  | nil => exact id
  | cons first rest ih => exact fun h => ih (nodup_addEasy h first)

/-! ### Starting

`start` is a batch of one, so both are described together.
-/

variable {s t u : Client}

/-- The state after a batch was started. -/
def started (s : Client) (handles : List (RequestHandle × Bool)) : Client :=
  { s with
    added := (s.easyHandles handles).foldl addEasy s.added
    activeCount := (s.activeCount + (s.easyHandles handles).length) % 2 ^ 32 }

theorem multiAdd_eq (s : Client) (curl : Option Nat) (accepts : Bool) :
    s.multiAdd curl accepts = { s with added := addEasy s.added (curl, accepts) } := by
  cases curl with
  | none => rfl
  | some x =>
      unfold multiAdd addEasy
      by_cases hx : x ∈ s.added ∨ accepts = false
      · simp only [if_pos hx]
      · simp only [if_neg hx]

theorem easyHandles_cons (s : Client) (handle : RequestHandle × Bool)
    (rest : List (RequestHandle × Bool)) :
    s.easyHandles (handle :: rest) = s.easyHandles [handle] ++ s.easyHandles rest := by
  unfold easyHandles
  rw [← List.map_append, ← List.filter_append]
  rfl

theorem easyHandles_of_valid {handle : RequestHandle × Bool} {i : Fin maxConcurrentRequests}
    (hvalid : s.validHandle handle.1 = true) (hi : handle.1.index = i.val) :
    s.easyHandles [handle] = [((s.requests i).curl, handle.2)] := by
  unfold easyHandles
  have hfilter : [handle].filter (fun handle => s.validHandle handle.1) = [handle] :=
    List.filter_cons_of_pos hvalid
  rw [hfilter, List.map_singleton, hi, Fin.ofNat_val_eq_self]

theorem easyHandles_of_invalid {handle : RequestHandle × Bool}
    (hvalid : ¬ s.validHandle handle.1 = true) : s.easyHandles [handle] = [] := by
  unfold easyHandles
  have hfilter : [handle].filter (fun handle => s.validHandle handle.1) = [] :=
    List.filter_cons_of_neg hvalid
  rw [hfilter, List.map_nil]

theorem start_eq (hcount : s.activeCount < 2 ^ 32) (handle : RequestHandle × Bool) :
    s.start handle.1 handle.2 = .ok (s.started [handle]) := by
  unfold start started
  by_cases hvalid : s.validHandle handle.1 = true
  · obtain ⟨i, hi, -, -⟩ := validHandle_eq_true.mp hvalid
    rw [if_pos hvalid, easyHandles_of_valid hvalid hi, hi]
    simp only [ref_val, bind_of_ok, pure_is_ok, multiAdd_eq, List.foldl_cons, List.foldl_nil,
      List.length_singleton]
  · rw [if_neg hvalid, easyHandles_of_invalid hvalid]
    simp only [List.foldl_nil, List.length_nil, Nat.add_zero, Nat.mod_eq_of_lt hcount, pure_is_ok]

theorem started_nil (hcount : s.activeCount < 2 ^ 32) : s.started [] = s := by
  unfold started
  rw [show (s.activeCount + (s.easyHandles []).length) % 2 ^ 32 = s.activeCount from
    Nat.mod_eq_of_lt hcount]
  rfl

/-- **A batch is started in one go**: starts change nothing that makes a handle valid. -/
theorem startBatch_eq :
    ∀ (handles : List (RequestHandle × Bool)) {s : Client}, s.activeCount < 2 ^ 32 →
      s.startBatch handles = .ok (s.started handles) := by
  intro handles
  induction handles with
  | nil =>
      intro s hcount
      rw [started_nil hcount]
      rfl
  | cons handle rest ih =>
      intro s hcount
      have hnext : (s.started [handle]).startBatch rest =
          .ok ((s.started [handle]).started rest) := ih (Nat.mod_lt _ (by decide))
      have hsame : (s.started [handle]).easyHandles rest = s.easyHandles rest := rfl
      have hboth : (s.started [handle]).started rest = s.started (handle :: rest) := by
        unfold started at hsame ⊢
        rw [hsame, easyHandles_cons s handle rest, List.foldl_append, List.length_append]
        simp only [Nat.mod_add_mod, Nat.add_assoc]
      rw [startBatch, List.foldlM_cons, start_eq hcount, bind_of_ok, ← hboth]
      exact hnext

/-! ### What the other operations keep

Making a request, delivering bytes and handling a message are the three things that happen
outside of starts, in whatever operation.  A property that survives these survives every
operation that starts nothing.
-/

/-- Bytes have been delivered: only the lengths of the responses have changed. -/
structure Arrived (s t : Client) : Prop where
  request : ∀ i, t.requests i = { s.requests i with dataLength := (t.requests i).dataLength }
  rest : t = { s with requests := t.requests, responses := t.responses }

theorem Arrived.refl (s : Client) : Arrived s s := ⟨fun _ => rfl, rfl⟩

theorem Arrived.trans (h : Arrived s t) (h' : Arrived t u) : Arrived s u := by
  refine ⟨fun i => ?_, ?_⟩
  · rw [h'.request i, h.request i]
  · rw [h'.rest, h.rest]

theorem deliver_arrived {write : Nat × List UInt8} (h : s.deliver write = .ok t) :
    Arrived s t := by
  unfold deliver at h
  split at h
  · rw [← Except.ok.inj h]
    exact Arrived.refl s
  · rename_i req _
    have hw := writeCb_written h
    refine ⟨fun i => ?_, hw.rest⟩
    by_cases hi : i = req
    · subst hi
      rw [hw.request]
    · rw [hw.others i hi]

theorem deliverAll_arrived {writes : List (Nat × List UInt8)}
    (h : writes.foldlM deliver s = .ok t) : Arrived s t :=
  foldlM_rel Arrived.refl (fun _ _ _ => Arrived.trans) (fun _ _ _ => deliver_arrived) writes s t h

/-- Making requests, delivering bytes and handling messages keep `P`. -/
structure KeptUnstarted (P : Client → Prop) : Prop where
  create : ∀ {s t url spare i k}, Made s url spare i k t → P s → P t
  deliver : ∀ {s t}, Arrived s t → P s → P t
  finish : ∀ {s msg}, (msg.done = true → ∃ x ∈ s.added, msg.easyHandle = some x) → P s →
    P (s.finish msg)

theorem KeptUnstarted.finishAll {P : Client → Prop} (hP : KeptUnstarted P) :
    ∀ (msgs : List CurlMsg) (s : Client), Session.Reports s msgs → P s →
      P (msgs.foldl Client.finish s) := by
  intro msgs
  induction msgs with
  | nil =>
      intro s _ hs
      exact hs
  | cons msg rest ih =>
      intro s hrep hs
      exact ih (s.finish msg) hrep.2 (hP.finish hrep.1 hs)

theorem KeptUnstarted.update {P : Client → Prop} (hP : KeptUnstarted P) {os : PerformAnswers}
    (hrep : ReportsAdded s os) (h : s.update os = .ok t) (hs : P s) : P t := by
  obtain ⟨c, hc, ht⟩ := bind_returns.mp h
  rw [← Except.ok.inj ht]
  exact hP.finishAll os.messages c (hrep c hc) (hP.deliver (deliverAll_arrived hc) hs)

/-- A batch is updated like the whole pool, or not at all. -/
theorem updateBatch_cases {os : PerformAnswers} :
    ∀ (handles : List RequestHandle), s.updateBatch os handles = .ok t →
      t = s ∨ s.update os = .ok t := by
  intro handles
  induction handles with
  | nil =>
      intro h
      exact Or.inl (Except.ok.inj h).symm
  | cons handle rest ih =>
      intro h
      obtain ⟨state, -, h⟩ := bind_returns.mp h
      split at h
      · exact Or.inr h
      · exact ih h

/-- **What one operation does**: it starts handles, or keeps all that is kept without. -/
theorem step_cases {op : BatchOp} (hcount : s.activeCount < 2 ^ 32)
    (hadm : batchMachine.admits s op) (h : s.step op = .ok t) :
    t = s.started op.started ∨
      op.started = [] ∧ ∀ P : Client → Prop, KeptUnstarted P → P s → P t := by
  cases op with
  | create url method spare =>
      obtain ⟨⟨handle, c⟩, hc, rfl⟩ := map_returns.mp h
      obtain ⟨i, k, -, hmade⟩ := create_made hc
      exact Or.inr ⟨rfl, fun P hP hs => hP.create hmade hs⟩
  | start handle accepts =>
      exact Or.inl (Except.ok.inj (h.symm.trans (start_eq hcount (handle, accepts))))
  | startBatch handles =>
      exact Or.inl (Except.ok.inj (h.symm.trans (startBatch_eq handles hcount)))
  | update os => exact Or.inr ⟨rfl, fun P hP hs => hP.update hadm h hs⟩
  | updateBatch os handles =>
      refine Or.inr ⟨rfl, fun P hP hs => ?_⟩
      rcases updateBatch_cases handles h with rfl | hupdate
      · exact hs
      · exact hP.update hadm hupdate hs

/-- Starting returns, whatever is started. -/
theorem step_returns {op : BatchOp} (hcount : s.activeCount < 2 ^ 32) (hop : op.started ≠ []) :
    ∃ t, s.step op = .ok t := by
  cases op with
  | start handle accepts => exact ⟨_, start_eq hcount (handle, accepts)⟩
  | startBatch handles => exact ⟨_, startBatch_eq handles hcount⟩
  | create url method spare => exact absurd rfl hop
  | update os => exact absurd rfl hop
  | updateBatch os handles => exact absurd rfl hop

/-! ### What is known in every state

`active_count` is not part of this, since it may be wrong.  What is known is about the handles
that are added, and holds whatever is started.
-/

/-- Only the pool's own easy handles are used, and none is added twice. -/
structure Counted (s : Client) : Prop where
  nodup : s.added.Nodup
  added : ∀ x ∈ s.added, ∃ k, s.curlHandles k = some x
  curl : ∀ i x, (s.requests i).curl = some x → ∃ k, s.curlHandles k = some x
  count : s.activeCount < 2 ^ 32

theorem Counted.of_construct (easyInit : Fin maxConcurrentRequests → Option Nat) :
    Counted (construct easyInit) :=
  ⟨List.nodup_nil, nofun, nofun, Nat.two_pow_pos 32⟩

/-- There are no more of them than requests. -/
theorem Counted.length_le (h : Counted s) : s.added.length ≤ maxConcurrentRequests := by
  have hsub : s.added ⊆ (List.finRange maxConcurrentRequests).filterMap s.curlHandles := by
    intro x hx
    obtain ⟨k, hk⟩ := h.added x hx
    exact List.mem_filterMap.mpr ⟨k, List.mem_finRange k, hk⟩
  calc s.added.length
      ≤ ((List.finRange maxConcurrentRequests).filterMap s.curlHandles).length :=
        (List.subperm_of_subset h.nodup hsub).length_le
    _ ≤ (List.finRange maxConcurrentRequests).length := List.length_filterMap_le ..
    _ = maxConcurrentRequests := List.length_finRange

theorem mem_easyHandles {handles : List (RequestHandle × Bool)} {easy : Option Nat × Bool}
    (h : easy ∈ s.easyHandles handles) : ∃ i, (s.requests i).curl = easy.1 := by
  obtain ⟨handle, -, rfl⟩ := List.mem_map.mp h
  exact ⟨_, rfl⟩

theorem Counted.started (hs : Counted s) (handles : List (RequestHandle × Bool)) :
    Counted (s.started handles) := by
  refine ⟨nodup_addAll hs.nodup, fun x hx => ?_, hs.curl, Nat.mod_lt _ (by decide)⟩
  rcases mem_addAll.mp hx with hold | hnew
  · exact hs.added x hold
  · obtain ⟨i, hi⟩ := mem_easyHandles hnew
    exact hs.curl i x hi

theorem kept_counted : KeptUnstarted Counted where
  create {s t url spare i k} hmade hs := by
    refine ⟨?_, fun x hx => ?_, fun j x hx => ?_, ?_⟩
    · rw [hmade.added]
      exact hs.nodup
    · rw [hmade.added] at hx
      rw [hmade.handles]
      exact hs.added x hx
    · rw [hmade.handles]
      by_cases hj : j = i
      · subst hj
        rw [hmade.request] at hx
        exact ⟨k, hx⟩
      · rw [hmade.others j hj] at hx
        exact hs.curl j x hx
    · rw [hmade.activeCount]
      exact hs.count
  deliver {s t} harrived hs := by
    rw [harrived.rest]
    refine ⟨hs.nodup, hs.added, fun i x hx => ?_, hs.count⟩
    rw [harrived.request i] at hx
    exact hs.curl i x hx
  finish {s msg} _ hs := by
    rcases finish_cases s msg with ⟨i, hi⟩ | hsame
    · have hf := finish_progress s msg
      have hadded : (s.finish msg).added = (s.multiRemove (s.requests i).curl).added := by
        rw [finish_of_ends hi]
      refine ⟨?_, fun x hx => ?_, fun j x hx => ?_, ?_⟩
      · rw [hadded]
        unfold multiRemove
        split
        · exact hs.nodup
        · exact hs.nodup.erase _
      · rw [hf.handles]
        exact hs.added x (hf.added x hx)
      · rw [hf.handles]
        rw [hf.curl j] at hx
        exact hs.curl j x hx
      · rw [finish_of_ends hi]
        exact Nat.mod_lt _ (by decide)
    · rw [hsame]
      exact hs

theorem step_counted (hs : Counted s) {op : BatchOp} (hadm : batchMachine.admits s op)
    (h : s.step op = .ok t) : Counted t := by
  rcases step_cases hs.count hadm h with rfl | ⟨-, hkeep⟩
  · exact hs.started op.started
  · exact hkeep Counted kept_counted hs

/-- What is kept without starts holds after an operation exactly if it does after its starts. -/
theorem step_iff {P : Client → Prop} (hP : KeptUnstarted fun s => Counted s ∧ P s)
    (hs : Counted s) (hold : P s) {op : BatchOp} (hadm : batchMachine.admits s op) :
    (∀ t, s.step op = .ok t → P t) ↔ P (s.started op.started) := by
  by_cases hop : op.started = []
  · rw [hop, started_nil hs.count]
    refine ⟨fun _ => hold, fun _ t ht => ?_⟩
    rcases step_cases hs.count hadm ht with rfl | ⟨-, hkeep⟩
    · rw [hop, started_nil hs.count]
      exact hold
    · exact (hkeep _ hP ⟨hs, hold⟩).2
  · obtain ⟨t, ht⟩ := step_returns hs.count hop
    rw [← (step_cases hs.count hadm ht).resolve_right fun hc => hop hc.1]
    refine ⟨fun hall => hall t ht, fun h u hu => ?_⟩
    rw [Except.ok.inj (hu.symm.trans ht)]
    exact h

instance instDecidableReportsAdded (s : Client) (os : PerformAnswers) :
    Decidable (ReportsAdded s os) :=
  inferInstanceAs (Decidable
    (∀ c, os.writes.foldlM deliver s = .ok c → Session.Reports c os.messages))

instance instDecidableAdmits (s : Client) (op : BatchOp) : Decidable (batchMachine.admits s op) :=
  match op with
  | .create _ _ _ => inferInstanceAs (Decidable True)
  | .start _ _ => inferInstanceAs (Decidable True)
  | .startBatch _ => inferInstanceAs (Decidable True)
  | .update os => inferInstanceAs (Decidable (ReportsAdded s os))
  | .updateBatch os _ => inferInstanceAs (Decidable (ReportsAdded s os))

end Client

end Ytl.Https
