/-
The state and the error of a request.

`create` writes both, a message writes the state and, if it reports a failure, the error,
and `start` writes neither.  So a request that has failed and is started again is still
`ERROR` while its transfer runs, and if that succeeds the request is `COMPLETE` with the
error of the first attempt.  As long as only requests that are `PENDING` are started, both
agree in every state.

Where they have parted they may meet again: a request whose second attempt fails too has the
error of that one.  The theorem is about every state on the way, so such a meeting does not
help a run that has passed through a state in which the two did not agree.
-/
import Ytl.Proofs.Https.Batches

namespace Ytl.Https

namespace Client

/-! ### The two sides -/

/-- The error tells the failed requests from the others, and a request whose easy handle is
added is `PENDING`. -/
structure Agreement (s : Client) : Prop where
  error : ∀ i, (s.requests i).state ≠ .free →
    ((s.requests i).error = .none ↔
      (s.requests i).state = .pending ∨ (s.requests i).state = .complete)
  added : ∀ i x, (s.requests i).curl = some x → x ∈ s.added → (s.requests i).state = .pending

/-- What is started is `PENDING`: every request whose easy handle the operation hands to
libcurl, which takes it. -/
def StartsPending (s : Client) (op : BatchOp) : Prop :=
  ∀ i x, (s.requests i).curl = some x → (some x, true) ∈ s.easyHandles op.started →
    (s.requests i).state = .pending

variable {s t : Client}

/-! ### One operation

Of the operations only starts can part the two, and whether they do is seen at once: a request
whose easy handle is added has to be `PENDING`.
-/

theorem Agreement.of_construct (easyInit : Fin maxConcurrentRequests → Option Nat) :
    Agreement (construct easyInit) :=
  ⟨fun _ h => absurd rfl h, nofun⟩

theorem curlToError_eq_none {result : CurlCode} : curlToError result = .none ↔ result = .ok := by
  cases result <;> simp [curlToError]

/-- After starts both agree if and only if what was started is `PENDING`. -/
theorem Agreement.started_iff (h : Agreement s) (op : BatchOp) :
    Agreement (s.started op.started) ↔ StartsPending s op := by
  constructor
  · intro h' i x hcurl hx
    exact h'.added i x hcurl (mem_addAll.mpr (Or.inr hx))
  · intro hpending
    refine ⟨h.error, fun i x hcurl hx => ?_⟩
    rcases mem_addAll.mp hx with hold | hnew
    · exact h.added i x hcurl hold
    · exact hpending i x hcurl hnew

/-- A request that is `PENDING` is completed with no error or with one. -/
theorem completed_agrees {r : RequestData} (h : r.error = .none) (result : CurlCode) :
    (completed r result).error = .none ↔
      (completed r result).state = .pending ∨ (completed r result).state = .complete := by
  unfold completed
  by_cases hok : result = .ok
  · simp [hok, h]
  · simp [hok, curlToError_eq_none]

theorem kept_agreement : KeptUnstarted fun s => Counted s ∧ Agreement s where
  create {s t url spare i k} hmade hs := by
    refine ⟨kept_counted.create hmade hs.1, fun j hj => ?_, fun j x hcurl hx => ?_⟩
    · by_cases hji : j = i
      · subst hji
        simp [hmade.request]
      · rw [hmade.others j hji] at hj ⊢
        exact hs.2.error j hj
    · by_cases hji : j = i
      · subst hji
        rw [hmade.request]
      · rw [hmade.others j hji] at hcurl ⊢
        rw [hmade.added] at hx
        exact hs.2.added j x hcurl hx
  deliver {s t} harrived hs := by
    refine ⟨kept_counted.deliver harrived hs.1, fun j hj => ?_, fun j x hcurl hx => ?_⟩
    · rw [harrived.request j] at hj ⊢
      exact hs.2.error j hj
    · rw [harrived.rest] at hx
      rw [harrived.request j] at hcurl ⊢
      exact hs.2.added j x hcurl hx
  finish {s msg} hrep hs := by
    refine ⟨kept_counted.finish hrep hs.1, ?_⟩
    rcases finish_cases s msg with ⟨i, hi⟩ | hsame
    · obtain ⟨x, hx, hmsg⟩ := hrep hi.1
      have hcurl : (s.requests i).curl = some x := hi.curl.trans hmsg
      have hpending : (s.requests i).state = .pending := hs.2.added i x hcurl hx
      have hnone : (s.requests i).error = .none :=
        (hs.2.error i (by rw [hpending]; exact nofun)).mpr (Or.inl hpending)
      rw [finish_of_ends hi, hcurl]
      refine ⟨fun j hj => ?_, fun j y hy hadded => ?_⟩
      · by_cases hji : j = i
        · subst hji
          simpa using completed_agrees hnone msg.result
        · simp only [Function.update_of_ne hji] at hj ⊢
          exact hs.2.error j hj
      · -- the handle of the request that has ended is not added any more
        obtain ⟨hne, hmem⟩ := hs.1.nodup.mem_erase_iff.mp hadded
        by_cases hji : j = i
        · subst hji
          have hsame : some y = some x := by
            rw [← hy, ← hcurl]
            simp [completed]
          exact absurd (Option.some.inj hsame) hne
        · simp only [Function.update_of_ne hji] at hy ⊢
          exact hs.2.added j y hy hmem
    · rw [hsame]
      exact hs.2

/--
**State and error agree as long as only pending requests are started.**  In every run of the
public operations, with any results and with messages only for handles that are added: after
every operation a request that is in use has no error if and only if it is `PENDING` or
`COMPLETE`, and one whose easy handle is added is `PENDING`; if and only if every operation
starts only requests that are `PENDING` or have no easy handle.
-/
theorem state_error_agree_iff (easyInit : Fin maxConcurrentRequests → Option Nat)
    (ops : List BatchOp) (hadm : batchMachine.Admitted (construct easyInit) ops) :
    batchMachine.Throughout Agreement (construct easyInit) ops ↔
      batchMachine.Meets StartsPending (construct easyInit) ops := by
  rw [Machine.throughout_iff (m := batchMachine) (I := Counted) (C := StartsPending)
    (fun s op t hs ha ht => step_counted hs ha ht)
    (fun s op hs h ha => (step_iff kept_agreement hs h ha).trans (h.started_iff op)) ops _
    (Counted.of_construct easyInit) hadm]
  exact and_iff_right (Agreement.of_construct easyInit)

instance instDecidableStartsPending (s : Client) (op : BatchOp) : Decidable (StartsPending s op) :=
  decidable_of_iff (∀ i, (s.requests i).curl ≠ none →
      ((s.requests i).curl, true) ∈ s.easyHandles op.started → (s.requests i).state = .pending)
    ⟨fun h i x hcurl hx => h i (by rw [hcurl]; exact nofun) (by rw [hcurl]; exact hx),
      fun h i hne hmem => by
        obtain ⟨x, hx⟩ := Option.ne_none_iff_exists'.mp hne
        exact h i x hx (by rw [← hx]; exact hmem)⟩

/-- Two requests are started together, the second is started again while it runs, and one
fails. -/
theorem state_error_agree_two :
    batchMachine.Throughout Agreement (construct fun i => some i.val)
      [.create [] .get [0], .create [] .get [0],
        .startBatch [(⟨0, 0⟩, true), (⟨1, 0⟩, true)], .start ⟨1, 0⟩ true,
        .update { messages := [{ easyHandle := some 1, result := .couldntConnect }] },
        .updateBatch { messages := [{ easyHandle := some 0 }] } [⟨1, 0⟩, ⟨0, 0⟩]] := by
  obtain ⟨hadm, hmeets⟩ := Machine.meets_of_check (m := batchMachine) (C := StartsPending)
    [.create [] .get [0], .create [] .get [0],
      .startBatch [(⟨0, 0⟩, true), (⟨1, 0⟩, true)], .start ⟨1, 0⟩ true,
      .update { messages := [{ easyHandle := some 1, result := .couldntConnect }] },
      .updateBatch { messages := [{ easyHandle := some 0 }] } [⟨1, 0⟩, ⟨0, 0⟩]]
    (construct fun i => some i.val) (by decide +kernel)
  exact (state_error_agree_iff _ _ hadm).mpr hmeets

/-- A request that fails and is started again. -/
def secondAttempt : List BatchOp :=
  [.create [] .get [0], .start ⟨0, 0⟩ true,
    .update { messages := [{ easyHandle := some 0, result := .operationTimedout }] },
    .start ⟨0, 0⟩ true, .update { messages := [{ easyHandle := some 0 }] }]

/-- It succeeds, and has the error of the first attempt. -/
theorem state_error_disagree :
    ¬ ∀ (easyInit : Fin maxConcurrentRequests → Option Nat) (ops : List BatchOp),
      Function.Injective easyInit → (∀ k, easyInit k ≠ none) →
      batchMachine.Admitted (construct easyInit) ops →
      batchMachine.Throughout Agreement (construct easyInit) ops := by
  intro hall
  obtain ⟨hadm, -⟩ := Machine.meets_of_check (m := batchMachine) (C := fun _ _ => True)
    secondAttempt (construct fun i => some i.val) (by decide +kernel)
  have hthrough := hall _ secondAttempt
    (fun i j hij => Fin.ext (Option.some.inj hij)) nofun hadm
  obtain ⟨t, ht, hlast⟩ := returns_of_checkResult
    (x := secondAttempt.foldlM step (construct fun i => some i.val))
    (P := fun t => decide ((t.requests 0).state = .complete ∧ (t.requests 0).error = .timeout))
    (by decide +kernel)
  obtain ⟨hstate, herror⟩ := of_decide_eq_true hlast
  have hagree : Agreement t := Machine.Throughout.last _ hthrough ht
  have hnone := (hagree.error 0 (by rw [hstate]; exact nofun)).mpr (Or.inr hstate)
  rw [herror] at hnone
  cases hnone

end Client

end Ytl.Https
