/-
What becomes of threads, and which task is which.

Two facts about every script, whatever its functions start, cancel and move.

  * A thread is joined or detached at most once, and only while it can be.  A thread that was
    handed to `spawn` or `delay` no longer can be afterwards.
  * Two task objects never have the same id, unless it is the 0 that a move leaves behind and
    that the first task has as well.

Both are relations between the states before and after a piece of code.  They compose, and so
it is enough to know them of each step that a call makes; what the functions do in between is
a piece of code again, and the induction is on the script.
-/
import Mathlib.Algebra.Order.Group.Multiset
import Mathlib.Data.Multiset.Range
import Mathlib.Tactic.GCongr
import Ytl.Proofs.Concurrency.Nesting
import Ytl.Concurrency.Threads

namespace Ytl.Concurrency

namespace Threads

variable {s s' t : Threads} {body : Threads → Except Fault Threads}

/-! ### One task

What is known of the execution of a task is taken apart into the state in which its function
is called and what is done with the mutex around it.
-/

/-- The mutex is taken or given back. -/
def hold (s : Threads) (held : Bool) : Threads := { s with held := held }

@[simp] theorem hold_tasks (s : Threads) (b : Bool) : (s.hold b).tasks = s.tasks := rfl
@[simp] theorem hold_joinable (s : Threads) (b : Bool) : (s.hold b).joinable = s.joinable := rfl
@[simp] theorem hold_settled (s : Threads) (b : Bool) : (s.hold b).settled = s.settled := rfl
@[simp] theorem hold_nextId (s : Threads) (b : Bool) : (s.hold b).nextId = s.nextId := rfl
@[simp] theorem hold_ran (s : Threads) (b : Bool) : (s.hold b).ran = s.ran := rfl
@[simp] theorem hold_serial (s : Threads) (b : Bool) : (s.hold b).serial = s.serial := rfl
@[simp] theorem hold_held (s : Threads) (b : Bool) : (s.hold b).held = b := rfl

/-- The id of the next task is taken. -/
def takeId (s : Threads) : Threads := { s with nextId := s.nextId + 1 }

/-- A task object that was just constructed and given its members. -/
def newTask (s : Threads) (state : TaskState) (type : TaskType) (execu : Executable) :
    TaskObject := ⟨s.nextId, state, type, execu⟩

theorem execute_held {task : TaskObject} (hstate : task.state ≠ .cancelled)
    (hserial : s.serial = true) (hheld : s.held = true) :
    execute task body s = .error .noReturn := by
  unfold execute
  rw [if_neg hstate, if_pos hserial, lock_held hheld]
  rfl

theorem execute_locked {task : TaskObject} (hstate : task.state ≠ .cancelled)
    (hserial : s.serial = true) (hheld : s.held = false) :
    execute task body s =
      (callExecu task.execu body (s.hold true) >>= fun t => pure (t.hold false)) := by
  unfold execute
  rw [if_neg hstate, if_pos hserial, lock_free hheld]
  rfl

theorem execute_unlocked {task : TaskObject} (hstate : task.state ≠ .cancelled)
    (hserial : s.serial = false) : execute task body s = callExecu task.execu body s := by
  unfold execute
  rw [if_neg hstate, hserial]
  rfl

/-- An execution that returns has made the call, with the mutex or without it. -/
theorem execute_returns {task : TaskObject} (hstate : task.state ≠ .cancelled)
    (h : execute task body s = .ok s') :
    ∃ b b' t, callExecu task.execu body (s.hold b) = .ok t ∧ s' = t.hold b' := by
  by_cases hserial : s.serial = true
  · by_cases hheld : s.held = true
    · rw [execute_held hstate hserial hheld] at h
      cases h
    · rw [execute_locked hstate hserial (Bool.not_eq_true _ ▸ hheld)] at h
      obtain ⟨t, ht, hs'⟩ := bind_returns.mp h
      exact ⟨true, false, t, ht, (Except.ok.inj hs').symm⟩
  · rw [execute_unlocked hstate (Bool.not_eq_true _ ▸ hserial)] at h
    exact ⟨s.held, s'.held, s', h, rfl⟩

theorem launch_returns {state : TaskState} {type : TaskType} {execu : Executable}
    (hstate : state ≠ .cancelled) (h : s.launch state type execu body = .ok s') :
    ∃ b b' t, callExecu execu body (s.takeId.hold b) = .ok t ∧
      s' = (t.hold b').addTask (s.newTask state type execu) := by
  obtain ⟨u, hu, hs'⟩ := bind_returns.mp h
  have hexec : execute (s.newTask state type execu) body s.takeId = .ok u := hu
  obtain ⟨b, b', t, ht, rfl⟩ := execute_returns hstate hexec
  exact ⟨b, b', t, ht, (Except.ok.inj hs').symm⟩

/-- Starting a function is the same for the three ways to do it, up to the state of the task. -/
theorem startFunction_eq (how : Call) (fn : Nat) (body : Threads → Except Fault Threads)
    (s : Threads) : ∃ state, state ≠ TaskState.cancelled ∧
      s.startFunction how fn body = s.launch state .function (.function (some fn)) body := by
  cases how with
  | spawn => exact ⟨.running, nofun, rfl⟩
  | delay => exact ⟨.suspended, nofun, rfl⟩
  | defer => exact ⟨.suspended, nofun, rfl⟩

/-- A function is noted before it runs. -/
def calling (s : Threads) (fn : Nat) : Threads := { s with ran := s.ran ++ [fn] }

theorem startFunction_returns {how : Call} {fn : Nat} (h : s.startFunction how fn body = .ok s') :
    ∃ state b b' t, body ((s.takeId.hold b).calling fn) = .ok t ∧
      s' = (t.hold b').addTask (s.newTask state .function (.function (some fn))) := by
  obtain ⟨state, hstate, heq⟩ := startFunction_eq how fn body s
  rw [heq] at h
  obtain ⟨b, b', t, ht, hs'⟩ := launch_returns hstate h
  exact ⟨state, b, b', t, ht, hs'⟩

/-! ### Joining and detaching

The record says which threads were joined or detached.  A thread may be missing from it and
still not be joinable, if it was not so to begin with.
-/

/-- Between two states of a run: the threads that were joined or detached are told by the
record, each of them could be, and none of them can be any more. -/
def Settles (s s' : Threads) : Prop :=
  ∃ new : List Nat, s'.settled = s.settled ++ new ∧ new.Nodup ∧
    (∀ k ∈ new, s.joinable k = true) ∧ ∀ k, s'.joinable k = (s.joinable k && decide (k ∉ new))

theorem Settles.of_eq (hsettled : s'.settled = s.settled) (hjoinable : s'.joinable = s.joinable) :
    Settles s s' := by
  refine ⟨[], by simp [hsettled], List.nodup_nil, by simp, ?_⟩
  intro k
  simp [hjoinable]

theorem Settles.trans (h : Settles s t) (h' : Settles t s') : Settles s s' := by
  obtain ⟨new, hnew, hnodup, hcould, hcan⟩ := h
  obtain ⟨new', hnew', hnodup', hcould', hcan'⟩ := h'
  have hstill : ∀ k ∈ new', s.joinable k = true ∧ k ∉ new := by
    intro k hk
    have hjoinable := hcould' k hk
    rw [hcan k] at hjoinable
    simpa using hjoinable
  refine ⟨new ++ new', ?_, ?_, ?_, ?_⟩
  · rw [hnew', hnew, List.append_assoc]
  · refine List.Nodup.append hnodup hnodup' fun k hk hk' => ?_
    exact (hstill k hk').2 hk
  · intro k hk
    rcases List.mem_append.mp hk with hk | hk
    · exact hcould k hk
    · exact (hstill k hk).1
  · intro k
    rw [hcan' k, hcan k]
    simp [Bool.and_assoc, not_or]

/-- A thread that cannot be joined any more stays so. -/
theorem Settles.stays (h : Settles s s') {k : Nat} (hk : s.joinable k = false) :
    s'.joinable k = false := by
  obtain ⟨new, -, -, -, hcan⟩ := h
  rw [hcan k, hk]
  rfl

/-- The state once thread `k` was joined or detached. -/
def without (s : Threads) (k : Nat) : Threads :=
  { s with
    joinable := fun j => if j = k then false else s.joinable j
    settled := s.settled ++ [k] }

theorem settle_some (s : Threads) (k : Nat) :
    s.settle (some k) = .ok (if s.joinable k then s.without k else s) := by
  unfold settle
  cases hk : s.joinable k <;> simp [hk, without]

theorem without_settles {k : Nat} (hk : s.joinable k = true) : Settles s (s.without k) := by
  refine ⟨[k], rfl, List.nodup_singleton k, by simpa using hk, fun j => ?_⟩
  by_cases hj : j = k <;> simp [without, hj]

theorem settle_settles {thread : Option Nat} (h : s.settle thread = .ok s') : Settles s s' := by
  cases thread with
  | none => cases h
  | some k =>
      rw [settle_some] at h
      rw [← Except.ok.inj h]
      cases hk : s.joinable k with
      | true => exact without_settles hk
      | false => exact .of_eq rfl rfl

theorem settle_joinable {k : Nat} (h : s.settle (some k) = .ok s') : s'.joinable k = false := by
  rw [settle_some] at h
  rw [← Except.ok.inj h]
  cases hk : s.joinable k with
  | true => simp [without]
  | false => simpa using hk

/-- A task for a thread that is executed settles that thread. -/
theorem launch_thread_settles (state : TaskState) {thread : Option Nat}
    (hstate : state ≠ .cancelled)
    (h : s.launch state .thread (.thread thread) body = .ok s') :
    Settles s s' ∧ ∀ k ∈ thread, s'.joinable k = false := by
  obtain ⟨b, b', t, ht, rfl⟩ := launch_returns hstate h
  have hcall : (s.takeId.hold b).settle thread = .ok t := ht
  constructor
  · have hbefore : Settles s (s.takeId.hold b) := .of_eq rfl rfl
    have hafter : Settles t ((t.hold b').addTask (s.newTask state .thread (.thread thread))) :=
      .of_eq rfl rfl
    exact (hbefore.trans (settle_settles hcall)).trans hafter
  · rintro k rfl
    have hjoinable : t.joinable k = false := settle_joinable hcall
    exact hjoinable

theorem cancel_settles {i : Nat} (h : s.cancel i = .ok s') : Settles s s' := by
  obtain ⟨task, -, h⟩ := bind_returns.mp h
  by_cases hstate : task.state ≠ .cancelled
  · rw [if_pos hstate] at h
    have hset : Settles s (s.setTask i { task with state := .cancelled }) := .of_eq rfl rfl
    dsimp only at h
    split at h
    · rw [← Except.ok.inj h]
      exact hset
    · exact hset.trans (settle_settles h)
  · rw [if_neg hstate] at h
    rw [← Except.ok.inj h]
    exact .of_eq rfl rfl

theorem ref_returns {i : Nat} {task : TaskObject} :
    s.ref i = .ok task ↔ s.tasks[i]? = some task := by
  unfold ref
  cases hi : s.tasks[i]? with
  | none => simp [throw, throwThe, MonadExceptOf.throw]
  | some a => simp

theorem moveConstruct_returns {i : Nat} (h : s.moveConstruct i = .ok s') :
    ∃ task, s.tasks[i]? = some task ∧ s' = (s.setTask i (leave task)).addTask task := by
  obtain ⟨task, htask, h⟩ := bind_returns.mp h
  exact ⟨task, ref_returns.mp htask, (Except.ok.inj h).symm⟩

theorem moveAssign_returns {i j : Nat} (h : s.moveAssign j i = .ok s') :
    ∃ task dest, s.tasks[i]? = some task ∧ s.tasks[j]? = some dest ∧
      ((j ≠ i ∧ s' = (s.setTask j task).setTask i (leave task)) ∨ (j = i ∧ s' = s)) := by
  obtain ⟨task, htask, h⟩ := bind_returns.mp h
  obtain ⟨dest, hdest, h⟩ := bind_returns.mp h
  refine ⟨task, dest, ref_returns.mp htask, ref_returns.mp hdest, ?_⟩
  by_cases hji : j = i
  · rw [if_neg (not_not.mpr hji)] at h
    exact Or.inr ⟨hji, (Except.ok.inj h).symm⟩
  · rw [if_pos hji] at h
    exact Or.inl ⟨hji, (Except.ok.inj h).symm⟩

/-! ### Ids

The counter has 64 bits and comes round after 2^64 tasks.  The ids are counted as a multiset
without 0, since the first task has the 0 too that is left behind in objects that were moved
from.
-/

/-- The ids of the task objects, without the 0 of those that were moved from. -/
def ids (s : Threads) : Multiset (BitVec 64) :=
  Multiset.filter (fun id => id ≠ 0) (s.tasks.map TaskObject.id)

/-- The id of one task, if it is not 0. -/
def ownId (task : TaskObject) : Multiset (BitVec 64) :=
  Multiset.filter (fun id => id ≠ 0) {task.id}

/-- The ids that `k` constructions give out, without 0. -/
def freshIds (start : BitVec 64) (k : Nat) : Multiset (BitVec 64) :=
  ((Multiset.range k).map fun i => start + BitVec.ofNat 64 i).filter fun id => id ≠ 0

theorem ids_of_tasks (h : s'.tasks = s.tasks) : ids s' = ids s := by
  unfold ids
  rw [h]

theorem ids_addTask (s : Threads) (task : TaskObject) :
    ids (s.addTask task) = ids s + ownId task := by
  unfold ids ownId addTask
  rw [← Multiset.filter_add, List.map_append, ← Multiset.coe_add]
  rfl

/-- Replacing an object replaces its id. -/
theorem ids_setTask {i : Nat} {task : TaskObject} (hi : s.tasks[i]? = some task)
    (task' : TaskObject) : ids (s.setTask i task') + ownId task = ids s + ownId task' := by
  obtain ⟨hlt, rfl⟩ := List.getElem?_eq_some_iff.mp hi
  have hset : (s.tasks.set i task').Perm (task' :: s.tasks.eraseIdx i) :=
    List.set_perm_cons_eraseIdx hlt task'
  have hold : (s.tasks[i] :: s.tasks.eraseIdx i).Perm s.tasks :=
    List.getElem_cons_eraseIdx_perm hlt
  have hperm : (s.tasks[i] :: s.tasks.set i task').Perm (task' :: s.tasks) :=
    ((hset.cons _).trans (.swap _ _ _)).trans (hold.cons _)
  have hids := congrArg (Multiset.filter fun id => id ≠ 0)
    (Multiset.coe_eq_coe.mpr (hperm.map TaskObject.id))
  rw [add_comm (ids _), add_comm (ids s)]
  unfold ids ownId
  rw [← Multiset.filter_add, ← Multiset.filter_add]
  exact hids

theorem ownId_leave (task : TaskObject) : ownId (leave task) = 0 := by
  unfold ownId leave
  simp

theorem freshIds_add (start : BitVec 64) (k k' : Nat) :
    freshIds start (k + k') = freshIds start k + freshIds (start + BitVec.ofNat 64 k) k' := by
  unfold freshIds
  rw [Multiset.range_add, Multiset.map_add, Multiset.filter_add, Multiset.map_map]
  congr 2
  refine Multiset.map_congr rfl fun i _ => ?_
  simp [BitVec.ofNat_add, BitVec.add_assoc]

theorem freshIds_one (start : BitVec 64) (state : TaskState) (type : TaskType)
    (execu : Executable) : freshIds start 1 = ownId ⟨start, state, type, execu⟩ := by
  unfold freshIds ownId
  simp

theorem nodup_freshIds {k : Nat} (hk : k ≤ 2 ^ 64) (start : BitVec 64) :
    (freshIds start k).Nodup := by
  refine Multiset.Nodup.filter _ (Multiset.Nodup.map_on ?_ (Multiset.nodup_range k))
  intro i hi j hj h
  have hofNat : BitVec.ofNat 64 i = BitVec.ofNat 64 j := by simpa using h
  have hmod := congrArg BitVec.toNat hofNat
  rw [Multiset.mem_range] at hi hj
  rw [BitVec.toNat_ofNat, BitVec.toNat_ofNat, Nat.mod_eq_of_lt (by omega),
    Nat.mod_eq_of_lt (by omega)] at hmod
  exact hmod

/-- Between two states of a run in which `k` tasks were constructed: only new ids were added. -/
structure Numbers (k : Nat) (s s' : Threads) : Prop where
  next : s'.nextId = s.nextId + BitVec.ofNat 64 k
  added : ids s' ≤ ids s + freshIds s.nextId k

theorem Numbers.of_le (hnext : s'.nextId = s.nextId) (hids : ids s' ≤ ids s) : Numbers 0 s s' :=
  ⟨by simp [hnext], hids.trans (Multiset.le_add_right _ _)⟩

theorem Numbers.of_eq (hnext : s'.nextId = s.nextId) (htasks : s'.tasks = s.tasks) :
    Numbers 0 s s' := .of_le hnext (ids_of_tasks htasks).le

theorem Numbers.trans {k k' : Nat} (h : Numbers k s t) (h' : Numbers k' t s') :
    Numbers (k + k') s s' := by
  refine ⟨?_, ?_⟩
  · rw [h'.next, h.next, BitVec.ofNat_add, BitVec.add_assoc]
  · rw [freshIds_add, ← h.next, ← add_assoc]
    exact h'.added.trans (by gcongr; exact h.added)

/-- A task that is constructed, then `k` others, and then it is returned. -/
theorem Numbers.around {k : Nat} {state : TaskState} {type : TaskType} {execu : Executable}
    (h : Numbers k s.takeId t) : Numbers (k + 1) s (t.addTask (s.newTask state type execu)) := by
  have hnext : t.nextId = s.nextId + 1 + BitVec.ofNat 64 k := h.next
  have hadded : ids t ≤ ids s + freshIds (s.nextId + 1) k := h.added
  refine ⟨?_, ?_⟩
  · show t.nextId = _
    rw [hnext, BitVec.ofNat_add, BitVec.add_assoc, BitVec.add_comm 1]
    rfl
  · rw [ids_addTask, Nat.add_comm k 1, freshIds_add, freshIds_one s.nextId state type execu,
      add_comm (ownId _), ← add_assoc]
    gcongr
    · exact hadded
    · exact le_rfl

theorem settle_numbers {thread : Option Nat} (h : s.settle thread = .ok s') : Numbers 0 s s' := by
  cases thread with
  | none => cases h
  | some k =>
      rw [settle_some] at h
      rw [← Except.ok.inj h]
      cases s.joinable k with
      | true => exact .of_eq rfl rfl
      | false => exact .of_eq rfl rfl

theorem launch_thread_numbers (state : TaskState) {thread : Option Nat}
    (hstate : state ≠ .cancelled)
    (h : s.launch state .thread (.thread thread) body = .ok s') : Numbers 1 s s' := by
  obtain ⟨b, b', t, ht, rfl⟩ := launch_returns hstate h
  have hcall : (s.takeId.hold b).settle thread = .ok t := ht
  have hbefore : Numbers 0 s.takeId (s.takeId.hold b) := .of_eq rfl rfl
  have hafter : Numbers 0 t (t.hold b') := .of_eq rfl rfl
  exact ((hbefore.trans (settle_numbers hcall)).trans hafter).around

theorem cancel_numbers {i : Nat} (h : s.cancel i = .ok s') : Numbers 0 s s' := by
  obtain ⟨task, htask, h⟩ := bind_returns.mp h
  by_cases hstate : task.state ≠ .cancelled
  · rw [if_pos hstate] at h
    have hset : Numbers 0 s (s.setTask i { task with state := .cancelled }) := by
      refine .of_le rfl (le_of_eq ?_)
      exact add_right_cancel (ids_setTask (ref_returns.mp htask) _)
    dsimp only at h
    split at h
    · rw [← Except.ok.inj h]
      exact hset
    · exact hset.trans (settle_numbers h)
  · rw [if_neg hstate] at h
    rw [← Except.ok.inj h]
    exact .of_eq rfl rfl

theorem moveConstruct_numbers {i : Nat} (h : s.moveConstruct i = .ok s') : Numbers 0 s s' := by
  obtain ⟨task, htask, rfl⟩ := moveConstruct_returns h
  refine .of_le rfl (le_of_eq ?_)
  rw [ids_addTask, ids_setTask htask, ownId_leave, add_zero]

theorem moveAssign_numbers {i j : Nat} (h : s.moveAssign j i = .ok s') : Numbers 0 s s' := by
  obtain ⟨task, dest, htask, hdest, ⟨hji, rfl⟩ | ⟨-, rfl⟩⟩ := moveAssign_returns h
  · have hstill : (s.setTask j task).tasks[i]? = some task := by
      unfold setTask
      rw [List.getElem?_set_ne hji]
      exact htask
    have hfirst := ids_setTask hdest task
    have hsecond := ids_setTask hstill (leave task)
    rw [ownId_leave, add_zero] at hsecond
    refine .of_le rfl ?_
    rw [← hsecond, add_assoc, add_comm (ownId task), ← add_assoc] at hfirst
    rw [← add_right_cancel hfirst]
    exact Multiset.le_add_right _ _
  · exact .of_eq rfl rfl

end Threads

open Threads

variable {s s' : Threads}

theorem TaskOp.step_settles {op : TaskOp} (h : op.step s = .ok s') : Settles s s' := by
  cases op with
  | default =>
      rw [← Except.ok.inj h]
      exact .of_eq rfl rfl
  | spawn thread => exact (launch_thread_settles .running nofun h).1
  | delay thread => exact (launch_thread_settles .suspended nofun h).1
  | defer execu =>
      rw [← Except.ok.inj h]
      exact .of_eq rfl rfl
  | cancel i => exact cancel_settles h
  | moveConstruct i =>
      obtain ⟨task, -, rfl⟩ := moveConstruct_returns h
      exact .of_eq rfl rfl
  | moveAssign j i =>
      obtain ⟨task, dest, -, -, ⟨-, rfl⟩ | ⟨-, rfl⟩⟩ := moveAssign_returns h
      · exact .of_eq rfl rfl
      · exact .of_eq rfl rfl
  | desynchronize =>
      rw [← Except.ok.inj h]
      exact .of_eq rfl rfl
  | synchronize =>
      rw [← Except.ok.inj h]
      exact .of_eq rfl rfl

/-- The thread that is handed to `spawn` or `delay`. -/
def TaskOp.handedOver : TaskOp → Option Nat
  | .spawn thread | .delay thread => thread
  | _ => none

theorem TaskOp.step_handedOver {op : TaskOp} (h : op.step s = .ok s') :
    ∀ k ∈ op.handedOver, s'.joinable k = false := by
  cases op with
  | spawn thread => exact (launch_thread_settles .running nofun h).2
  | delay thread => exact (launch_thread_settles .suspended nofun h).2
  | default => exact nofun
  | defer execu => exact nofun
  | cancel i => exact nofun
  | moveConstruct i => exact nofun
  | moveAssign j i => exact nofun
  | desynchronize => exact nofun
  | synchronize => exact nofun

theorem TaskOp.step_numbers {op : TaskOp} (h : op.step s = .ok s') :
    Numbers op.constructed s s' := by
  cases op with
  | default =>
      rw [← Except.ok.inj h]
      exact Numbers.around (.of_eq rfl rfl)
  | spawn thread => exact launch_thread_numbers .running nofun h
  | delay thread => exact launch_thread_numbers .suspended nofun h
  | defer execu =>
      rw [← Except.ok.inj h]
      exact Numbers.around (.of_eq rfl rfl)
  | cancel i => exact cancel_numbers h
  | moveConstruct i => exact moveConstruct_numbers h
  | moveAssign j i => exact moveAssign_numbers h
  | desynchronize =>
      rw [← Except.ok.inj h]
      exact .of_eq rfl rfl
  | synchronize =>
      rw [← Except.ok.inj h]
      exact .of_eq rfl rfl

namespace Script

/-- The threads that the script hands to `spawn` or `delay`. -/
def handedOver : Script → List Nat
  | .done => []
  | .start _ _ body rest => body.handedOver ++ rest.handedOver
  | .call op rest => op.handedOver.toList ++ rest.handedOver

/--
**Threads are settled once.**  Whatever a script starts, cancels and moves, each thread is
joined or detached at most once and only while it can be; a thread can be joined afterwards
exactly if it could before and neither has happened to it, and none can that was handed to
`spawn` or `delay`.
-/
theorem run_settles :
    ∀ (p : Script) (s s' : Threads), p.run s = .ok s' →
      Settles s s' ∧ ∀ k ∈ p.handedOver, s'.joinable k = false := by
  intro p
  induction p with
  | done =>
      intro s s' h
      rw [← Except.ok.inj h]
      exact ⟨.of_eq rfl rfl, nofun⟩
  | start how fn body rest ihbody ihrest =>
      intro s s' h
      obtain ⟨t, hstart, hrest⟩ := bind_returns.mp h
      obtain ⟨state, b, b', u, hbody, rfl⟩ := startFunction_returns hstart
      obtain ⟨hsettles, hhanded⟩ := ihbody _ _ hbody
      obtain ⟨hsettles', hhanded'⟩ := ihrest _ _ hrest
      have hbefore : Settles s ((s.takeId.hold b).calling fn) := .of_eq rfl rfl
      have hafter : Settles u s' := Settles.trans (.of_eq rfl rfl) hsettles'
      refine ⟨(hbefore.trans hsettles).trans hafter, fun k hk => ?_⟩
      rcases List.mem_append.mp hk with hk | hk
      · exact hafter.stays (hhanded k hk)
      · exact hhanded' k hk
  | call op rest ih =>
      intro s s' h
      obtain ⟨t, hstep, hrest⟩ := bind_returns.mp h
      obtain ⟨hsettles, hhanded⟩ := ih _ _ hrest
      refine ⟨(TaskOp.step_settles hstep).trans hsettles, fun k hk => ?_⟩
      rcases List.mem_append.mp hk with hk | hk
      · exact hsettles.stays (TaskOp.step_handedOver hstep k (Option.mem_toList.mp hk))
      · exact hhanded k hk

/-- Two threads, one joined and one detached. -/
theorem run_settles_two :
    ∃ s', (call (.spawn (some 0)) (call (.defer (.thread (some 1))) (call (.cancel 1) .done))).run
        (.initial fun _ => true) = .ok s' ∧ Settles (.initial fun _ => true) s' ∧
      s'.settled = [0, 1] ∧ s'.joinable 0 = false := by
  obtain ⟨s', hrun, hsettled⟩ : ∃ s',
      (call (.spawn (some 0)) (call (.defer (.thread (some 1))) (call (.cancel 1) .done))).run
        (.initial fun _ => true) = .ok s' ∧ s'.settled = [0, 1] := ⟨_, rfl, rfl⟩
  obtain ⟨hsettles, hhanded⟩ := run_settles _ _ s' hrun
  exact ⟨s', hrun, hsettles, hsettled, hhanded 0 (by decide)⟩

theorem run_numbers :
    ∀ (p : Script) (s s' : Threads), p.run s = .ok s' → Numbers p.constructed s s' := by
  intro p
  induction p with
  | done =>
      intro s s' h
      rw [← Except.ok.inj h]
      exact .of_eq rfl rfl
  | start how fn body rest ihbody ihrest =>
      intro s s' h
      obtain ⟨t, hstart, hrest⟩ := bind_returns.mp h
      obtain ⟨state, b, b', u, hbody, rfl⟩ := startFunction_returns hstart
      have hbefore : Numbers 0 s.takeId ((s.takeId.hold b).calling fn) := .of_eq rfl rfl
      have hafter : Numbers 0 u (u.hold b') := .of_eq rfl rfl
      have hwhole := ((hbefore.trans (ihbody _ _ hbody)).trans hafter).around.trans
        (ihrest _ _ hrest)
      have hcount : (start how fn body rest).constructed =
          0 + body.constructed + 0 + 1 + rest.constructed := by
        simp only [constructed]
        omega
      rw [hcount]
      exact hwhole
  | call op rest ih =>
      intro s s' h
      obtain ⟨t, hstep, hrest⟩ := bind_returns.mp h
      exact (TaskOp.step_numbers hstep).trans (ih _ _ hrest)

/--
**Ids tell tasks apart.**  In a program that has no more than 2^64 tasks constructed, however
they are nested, cancelled and moved, two task objects with the same id both have the id 0.
-/
theorem ids_distinct (p : Script) (joinable : Nat → Bool) (s' : Threads)
    (hcount : p.constructed ≤ 2 ^ 64) (hrun : p.run (.initial joinable) = .ok s')
    {i j : Nat} {a b : TaskObject} (hi : s'.tasks[i]? = some a) (hj : s'.tasks[j]? = some b)
    (hij : i ≠ j) (hid : a.id = b.id) : a.id = 0 := by
  have hle : ids s' ≤ freshIds 0 p.constructed := by
    have hadded := (run_numbers p _ _ hrun).added
    have hnone : ids (.initial joinable) = 0 := rfl
    rw [hnone, zero_add] at hadded
    exact hadded
  have hnodup : (ids s').Nodup := Multiset.nodup_of_le hle (nodup_freshIds hcount 0)
  have hpairs : s'.tasks.Pairwise fun a b => a.id ≠ 0 → b.id ≠ 0 → a.id ≠ b.id := by
    have hlist : ((s'.tasks.map TaskObject.id).filter fun id => id ≠ 0).Nodup := hnodup
    rw [List.Nodup, List.pairwise_filter, List.pairwise_map] at hlist
    simpa using hlist
  obtain ⟨hilt, rfl⟩ := List.getElem?_eq_some_iff.mp hi
  obtain ⟨hjlt, rfl⟩ := List.getElem?_eq_some_iff.mp hj
  rw [List.pairwise_iff_getElem] at hpairs
  by_contra hne
  have hne' : s'.tasks[j].id ≠ 0 := hid ▸ hne
  rcases Nat.lt_or_gt_of_ne hij with h | h
  · exact hpairs i j hilt hjlt h hne hne' hid
  · exact hpairs j i hjlt hilt h hne' hne hid.symm

/-- The first task, and one that was moved from. -/
theorem ids_distinct_moved :
    ∃ s' a b, (call .default (call .default (call (.moveConstruct 1) .done))).run
        (.initial fun _ => false) = .ok s' ∧ s'.tasks[0]? = some a ∧ s'.tasks[1]? = some b ∧
      a.id = 0 :=
  ⟨_, _, _, rfl, rfl, rfl, ids_distinct
    (call .default (call .default (call (.moveConstruct 1) .done))) (fun _ => false) _
    (by decide) rfl rfl rfl (Nat.zero_ne_one) rfl⟩

end Script

end Ytl.Concurrency
