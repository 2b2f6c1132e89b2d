/-
Tasks that start tasks.

In serial mode `execute` holds the mutex while the function of the task runs, so a
function that starts a task itself asks for it once more and never gets it.  A program
runs to its end, with every function called once, exactly when no function that a task
runs starts another.  Without the mutex, after `desynchronize`, every program does.

A program is a tree: a list of calls, each with the program that its function runs.  The mutex
is not recursive, and nobody else holds it here; a thread that asks for a mutex it holds waits
for itself.
-/
import Mathlib.Tactic.Common
import Ytl.Concurrency.Task

namespace Ytl.Concurrency

variable {r : Runtime}

/-! ### One task

The three ways to start a task differ in the state that the task is made with, and `execute`
passes over a task only if it is cancelled.
-/

/-- The state a new task is executed in. -/
def Runtime.launched (r : Runtime) : Runtime := { r with nextId := r.nextId + 1 }

/-- What a call leaves behind is what executing the new task leaves behind. -/
theorem start_eq (how : Call) (fn : Function) (r : Runtime) :
    ∃ t : Task, how.start fn r = (t.execute r.launched >>= fun r => pure (t, r)) ∧
      t.execu = fn ∧ t.state ≠ .cancelled := by
  cases how with
  | spawn => exact ⟨⟨r.nextId, .running, .function, fn⟩, rfl, rfl, nofun⟩
  | delay => exact ⟨⟨r.nextId, .suspended, .function, fn⟩, rfl, rfl, nofun⟩
  | defer => exact ⟨⟨r.nextId, .suspended, .function, fn⟩, rfl, rfl, nofun⟩

theorem execute_serial {t : Task} (hstate : t.state ≠ .cancelled) (hserial : r.serial = true) :
    t.execute r = (r.lock >>= t.execu >>= fun r => pure r.unlock) := by
  unfold Task.execute
  rw [if_neg hstate, if_pos hserial]
  cases r.lock <;> rfl

theorem execute_parallel {t : Task} (hstate : t.state ≠ .cancelled) (hserial : r.serial = false) :
    t.execute r = t.execu r := by
  unfold Task.execute
  rw [if_neg hstate, hserial]
  rfl

theorem lock_held (h : r.held = true) : r.lock = .error .noReturn := by
  unfold Runtime.lock
  rw [if_pos h]
  rfl

theorem lock_free (h : r.held = false) : r.lock = .ok { r with held := true } := by
  unfold Runtime.lock
  rw [h]
  rfl

namespace Program

/-! ### Serial mode

By induction on the tree.  A call whose function starts nothing comes back with the mutex free
again, and one whose function starts something does not come back at all.
-/

/-- **Starting a task inside a task**: the mutex is already held. -/
theorem run_held {p : Program} (hp : p ≠ .done) (hserial : r.serial = true)
    (hheld : r.held = true) : p.run r = .error .noReturn := by
  cases p with
  | done => exact absurd rfl hp
  | start how fn body rest =>
      obtain ⟨t, ht, -, hstate⟩ :=
        start_eq how (fun r => body.run { r with ran := r.ran ++ [fn] }) r
      rw [run, ht, execute_serial hstate (r := r.launched) hserial,
        lock_held (r := r.launched) hheld]
      rfl

/-- The state after a task whose function starts none. -/
def finished (r : Runtime) (fn : Nat) : Runtime :=
  { r with nextId := r.nextId + 1, ran := r.ran ++ [fn] }

theorem run_start_done {how : Call} {fn : Nat} {rest : Program} (hserial : r.serial = true)
    (hheld : r.held = false) : (start how fn .done rest).run r = rest.run (finished r fn) := by
  obtain ⟨t, ht, hexecu, hstate⟩ :=
    start_eq how (fun r => Program.done.run { r with ran := r.ran ++ [fn] }) r
  have hunlock : ({ r.launched with held := true, ran := r.ran ++ [fn] } : Runtime).unlock =
      finished r fn := by
    unfold Runtime.unlock Runtime.launched finished
    rw [hheld]
  rw [run, ht, execute_serial hstate (r := r.launched) hserial,
    lock_free (r := r.launched) hheld, bind_of_ok, hexecu]
  show rest.run (Runtime.unlock _) = _
  rw [← hunlock]
  rfl

theorem run_start_nested {how : Call} {fn : Nat} {body rest : Program} (hbody : body ≠ .done)
    (hserial : r.serial = true) (hheld : r.held = false) :
    (start how fn body rest).run r = .error .noReturn := by
  obtain ⟨t, ht, hexecu, hstate⟩ :=
    start_eq how (fun r => body.run { r with ran := r.ran ++ [fn] }) r
  rw [run, ht, execute_serial hstate (r := r.launched) hserial,
    lock_free (r := r.launched) hheld, bind_of_ok, hexecu]
  dsimp only
  rw [run_held hbody (by exact hserial) rfl]
  rfl

theorem run_flat :
    ∀ (p : Program) (r : Runtime), p.Flat → r.serial = true → r.held = false →
      ∃ r', p.run r = .ok r' ∧ r'.ran = r.ran ++ p.functions := by
  intro p
  induction p with
  | done =>
      intro r _ _ _
      exact ⟨r, rfl, (List.append_nil _).symm⟩
  | start how fn body rest _ ih =>
      intro r hflat hserial hheld
      obtain ⟨hbody, hrest⟩ := hflat
      subst hbody
      obtain ⟨r', hr', hran⟩ := ih (finished r fn) hrest hserial hheld
      refine ⟨r', ?_, ?_⟩
      · rw [run_start_done hserial hheld]
        exact hr'
      · rw [hran]
        simp [finished, functions]

theorem run_not_flat :
    ∀ (p : Program) (r : Runtime), ¬ p.Flat → r.serial = true → r.held = false →
      p.run r = .error .noReturn := by
  intro p
  induction p with
  | done =>
      intro r hflat
      exact absurd trivial hflat
  | start how fn body rest _ ih =>
      intro r hflat hserial hheld
      by_cases hbody : body = .done
      · subst hbody
        rw [run_start_done hserial hheld]
        exact ih (finished r fn) (fun hrest => hflat ⟨rfl, hrest⟩) hserial hheld
      · exact run_start_nested hbody hserial hheld

/--
**Tasks in serial mode.**  With `serial` set and the mutex free, a program of any depth
and width runs to its end with every function called exactly once, in the order of the
calls, if and only if no function that a task runs starts a task itself.
-/
theorem serial_runs_iff (p : Program) (r : Runtime) (hserial : r.serial = true)
    (hheld : r.held = false) :
    (∃ r', p.run r = .ok r' ∧ r'.ran = r.ran ++ p.functions) ↔ p.Flat := by
  constructor
  · rintro ⟨r', hr', -⟩
    by_contra hflat
    rw [run_not_flat p r hflat hserial hheld] at hr'
    cases hr'
  · intro hflat
    exact run_flat p r hflat hserial hheld

/-- Two tasks one after the other. -/
theorem serial_runs_iff_two :
    ∃ r', (start .spawn 0 .done (start .delay 1 .done .done)).run .initial = .ok r' ∧
      r'.ran = [0, 1] :=
  (serial_runs_iff (start .spawn 0 .done (start .delay 1 .done .done)) .initial rfl rfl).mpr
    ⟨rfl, rfl, trivial⟩

/-- A spawned function that spawns another never comes back. -/
theorem serial_not_runs :
    ¬ ∀ (p : Program) (r : Runtime), r.serial = true → r.held = false →
      ∃ r', p.run r = .ok r' ∧ r'.ran = r.ran ++ p.functions := by
  intro h
  obtain ⟨r', hr', -⟩ := h (start .spawn 0 (start .spawn 1 .done .done) .done) .initial rfl rfl
  have hdead : (start .spawn 0 (start .spawn 1 .done .done) .done).run .initial =
      .error .noReturn := run_start_nested nofun rfl rfl
  rw [hdead] at hr'
  cases hr'

/-! ### After `desynchronize`

Nothing is asked for, so nothing is waited for.
-/

/-- **Without the mutex every program runs**, whatever starts what. -/
theorem run_desynchronized :
    ∀ (p : Program) (r : Runtime), r.serial = false →
      ∃ r', p.run r = .ok r' ∧ r'.serial = false ∧ r'.ran = r.ran ++ p.functions := by
  intro p
  induction p with
  | done =>
      intro r hserial
      exact ⟨r, rfl, hserial, (List.append_nil _).symm⟩
  | start how fn body rest ihbody ihrest =>
      intro r hserial
      obtain ⟨t, ht, hexecu, hstate⟩ :=
        start_eq how (fun r => body.run { r with ran := r.ran ++ [fn] }) r
      obtain ⟨r₁, hr₁, hserial₁, hran₁⟩ :=
        ihbody { r.launched with ran := r.ran ++ [fn] } hserial
      obtain ⟨r', hr', hserial', hran'⟩ := ihrest r₁ hserial₁
      refine ⟨r', ?_, hserial', ?_⟩
      · rw [run, ht, execute_parallel hstate (r := r.launched) hserial, hexecu]
        show (body.run { r.launched with ran := r.ran ++ [fn] } >>= fun r => _) >>= _ = _
        rw [hr₁]
        exact hr'
      · rw [hran', hran₁]
        simp [functions]

end Program

end Ytl.Concurrency
