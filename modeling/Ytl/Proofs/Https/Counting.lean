/-
The number of transfers that `active_count` stands for.

`start` counts a transfer whatever `curl_multi_add_handle` answers, and libcurl refuses an
easy handle that is null or already added, and perhaps others.  `update` counts one less for
every message that finds its request, and removes that request's handle.  So the counter is
the number of handles that are added, plus the number of times that `start` was refused, and
nothing ever takes the latter back.

The counter has 32 bits.  At most 512 handles are added at a time, so one call has to be
refused 2^32 times before the two agree again by accident.
-/
import Ytl.Proofs.Https.Batches

namespace Ytl.Https.Client

variable {s t : Client}

/-- `active_count` is the number of easy handles that are added. -/
def Exact (s : Client) : Prop := s.activeCount = s.added.length

/-! ### Refused starts

Whether a handle is refused depends on what is added when its turn comes, so a batch that
names one handle twice has it refused the second time.
-/

/-- How many of the easy handles libcurl refuses, when it has those of `added` already. -/
def refusals : List Nat → List (Option Nat × Bool) → Nat
  | _, [] => 0
  | added, (none, _) :: rest => refusals added rest + 1
  | added, (some x, accepts) :: rest =>
      if x ∈ added ∨ accepts = false then refusals added rest + 1
      else refusals (added ++ [x]) rest

/-- No handle is refused, or the counter has come round. -/
def NoneRefused (s : Client) (op : BatchOp) : Prop :=
  2 ^ 32 ∣ refusals s.added (s.easyHandles op.started)

/-- Every handle is added or refused. -/
theorem length_addAll :
    ∀ (easy : List (Option Nat × Bool)) (added : List Nat),
      (easy.foldl addEasy added).length + refusals added easy = added.length + easy.length := by
  intro easy
  induction easy with
  | nil => exact fun _ => rfl
  | cons first rest ih =>
      intro added
      obtain ⟨curl, accepts⟩ := first
      rw [List.foldl_cons, List.length_cons]
      cases curl with
      | none =>
          have hrest := ih added
          rw [addEasy, refusals]
          omega
      | some x =>
          rw [addEasy, refusals]
          by_cases hx : x ∈ added ∨ accepts = false
          · have hrest := ih added
            rw [if_pos hx, if_pos hx]
            omega
          · have hrest := ih (added ++ [x])
            rw [List.length_append, List.length_singleton] at hrest
            rw [if_neg hx, if_neg hx]
            omega

/-! ### The counter

Starts and messages change the counter and the number of handles by as much, but for refusals,
which only the counter notices.
-/

/-- After starts the counter is exact if and only if none was refused. -/
theorem started_exact_iff (hs : Counted s) (hexact : Exact s)
    (handles : List (RequestHandle × Bool)) :
    Exact (s.started handles) ↔ 2 ^ 32 ∣ refusals s.added (s.easyHandles handles) := by
  have hlen := (hs.started handles).length_le
  rw [maxConcurrentRequests_eq] at hlen
  have hall := length_addAll (s.easyHandles handles) s.added
  unfold Exact at hexact ⊢
  rw [Nat.dvd_iff_mod_eq_zero]
  show (s.activeCount + (s.easyHandles handles).length) % 2 ^ 32 =
    ((s.easyHandles handles).foldl addEasy s.added).length ↔ _
  rw [hexact, ← hall]
  unfold started at hlen
  dsimp only at hlen
  omega

/-- A message takes one off both, or is about nothing. -/
theorem kept_exact : KeptUnstarted fun s => Counted s ∧ Exact s where
  create {s t url spare i k} hmade hs := by
    refine ⟨kept_counted.create hmade hs.1, ?_⟩
    unfold Exact
    rw [hmade.activeCount, hmade.added]
    exact hs.2
  deliver {s t} harrived hs := by
    refine ⟨kept_counted.deliver harrived hs.1, ?_⟩
    rw [harrived.rest]
    exact hs.2
  finish {s msg} hrep hs := by
    refine ⟨kept_counted.finish hrep hs.1, ?_⟩
    rcases finish_cases s msg with ⟨i, hi⟩ | hsame
    · obtain ⟨x, hx, hmsg⟩ := hrep hi.1
      have hlen : (s.added.erase x).length = s.added.length - 1 := List.length_erase_of_mem hx
      have hpos : 0 < s.added.length := List.length_pos_of_mem hx
      have hexact : s.activeCount = s.added.length := hs.2
      have hbound := hs.1.count
      rw [finish_of_ends hi, show (s.requests i).curl = some x from hi.curl.trans hmsg]
      show (s.activeCount + 2 ^ 32 - 1) % 2 ^ 32 = (s.added.erase x).length
      omega
    · rw [hsame]
      exact hs.2

/--
**`active_count` is exact as long as libcurl refuses nothing.**  In every run of `create`, `start`,
`start_batch`, `update` and `update_batch`, with messages only for handles that are added:
after every operation the counter is the number of easy handles that are added, if and only if in
every operation the number of valid handles that are started with a null easy handle, with
one that is added by then, or with one that libcurl does not take, is a multiple of 2^32.
-/
theorem active_count_exact_iff (easyInit : Fin maxConcurrentRequests → Option Nat)
    (ops : List BatchOp) (hadm : batchMachine.Admitted (construct easyInit) ops) :
    batchMachine.Throughout Exact (construct easyInit) ops ↔
      batchMachine.Meets NoneRefused (construct easyInit) ops := by
  rw [Machine.throughout_iff (m := batchMachine) (I := Counted) (C := NoneRefused)
    (fun s op t hs ha ht => step_counted hs ha ht)
    (fun s op hs hexact ha => (step_iff kept_exact hs hexact ha).trans
      (started_exact_iff hs hexact op.started)) ops _
    (Counted.of_construct easyInit) hadm]
  exact and_iff_right rfl

instance instDecidableNoneRefused (s : Client) (op : BatchOp) : Decidable (NoneRefused s op) :=
  inferInstanceAs (Decidable (2 ^ 32 ∣ refusals s.added (s.easyHandles op.started)))

/-- A request is started again after it has been completed, in a batch with another. -/
theorem active_count_exact_two :
    batchMachine.Throughout Exact (construct fun i => some i.val)
      [.create [] .get [0], .start ⟨0, 0⟩ true, .update { messages := [{ easyHandle := some 0 }] },
        .create [] .get [0], .startBatch [(⟨0, 0⟩, true), (⟨1, 0⟩, true), (⟨2, 0⟩, true)],
        .updateBatch { messages := [{ easyHandle := some 1, result := .operationTimedout }] }
          [⟨0, 0⟩, ⟨1, 0⟩]] := by
  obtain ⟨hadm, hmeets⟩ := Machine.meets_of_check (m := batchMachine) (C := NoneRefused)
    [.create [] .get [0], .start ⟨0, 0⟩ true, .update { messages := [{ easyHandle := some 0 }] },
      .create [] .get [0], .startBatch [(⟨0, 0⟩, true), (⟨1, 0⟩, true), (⟨2, 0⟩, true)],
      .updateBatch { messages := [{ easyHandle := some 1, result := .operationTimedout }] }
        [⟨0, 0⟩, ⟨1, 0⟩]]
    (construct fun i => some i.val) (by decide +kernel)
  exact (active_count_exact_iff _ _ hadm).mpr hmeets

/-- One request, started twice. -/
theorem active_count_not_exact :
    ¬ ∀ (easyInit : Fin maxConcurrentRequests → Option Nat) (ops : List BatchOp),
      Function.Injective easyInit → (∀ k, easyInit k ≠ none) →
      batchMachine.Admitted (construct easyInit) ops →
      batchMachine.Throughout Exact (construct easyInit) ops := by
  intro hall
  have hthrough := hall (fun i => some i.val)
    [.create [] .get [0], .start ⟨0, 0⟩ true, .start ⟨0, 0⟩ true]
    (fun i j hij => Fin.ext (Option.some.inj hij)) nofun ⟨trivial, fun _ _ => ⟨trivial, fun _ _ =>
      ⟨trivial, fun _ _ => trivial⟩⟩⟩
  obtain ⟨t, ht, hcounts⟩ := returns_of_checkResult
    (x := [BatchOp.create [] .get [0], .start ⟨0, 0⟩ true, .start ⟨0, 0⟩ true].foldlM step
      (construct fun i => some i.val))
    (P := fun t => decide (t.activeCount = 2 ∧ t.added.length = 1)) (by decide +kernel)
  obtain ⟨htwo, hone⟩ := of_decide_eq_true hcounts
  have hexact : Exact t := Machine.Throughout.last _ hthrough ht
  unfold Exact at hexact
  rw [htwo, hone] at hexact
  cases hexact

end Ytl.Https.Client
