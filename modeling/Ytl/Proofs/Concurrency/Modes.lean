/-
Scripts that change between serial and parallel mode.

Whether a script comes back can be told from the script alone (`finalMode`): it is enough to
know whether the mutex is held and which mode is on, and a function that a task runs gets the
mutex held in serial mode and whatever it was in parallel mode.  The answer is exact for a
script that cancels no object that was moved from and hands over no null pointer (`Clean`).
-/
import Ytl.Proofs.Concurrency.Threads

namespace Ytl.Concurrency

open Threads

/-! ### What is moved from

A move leaves a null pointer behind.  Which objects that is can be told from the script, since
no call depends on what a function returns.
-/

/-- Which task objects were moved from, when `moved` says it of those that were there before. -/
def TaskOp.moved (moved : List Bool) : TaskOp → List Bool
  | .default | .spawn _ | .delay _ | .defer _ => moved ++ [false]
  | .cancel _ | .desynchronize | .synchronize => moved
  | .moveConstruct source => moved.set source true ++ [moved.getD source true]
  | .moveAssign dest source =>
      if dest = source then moved
      else (moved.set dest (moved.getD source true)).set source true

/-- The call is not given a null pointer, and does not cancel an object that was moved from. -/
def TaskOp.Clean (moved : List Bool) : TaskOp → Prop
  | .default | .desynchronize | .synchronize => True
  | .spawn thread | .delay thread => thread ≠ none
  | .defer execu => execu ≠ .thread none
  | .cancel task => moved[task]? = some false
  | .moveConstruct source => source < moved.length
  | .moveAssign dest source => dest < moved.length ∧ source < moved.length

/-- The mode the call leaves, or none if it waits for a mutex that is never given back. -/
def TaskOp.finalMode (serial held : Bool) : TaskOp → Option Bool
  | .spawn _ | .delay _ => if serial && held then none else some serial
  | .desynchronize => some false
  | .synchronize => some true
  | .default | .defer _ | .cancel _ | .moveConstruct _ | .moveAssign _ _ => some serial

namespace Script

/-- Which objects were moved from at the end of the script. -/
def moved : Script → List Bool → List Bool
  | .done, m => m
  | .start _ _ body rest, m => rest.moved (body.moved m ++ [false])
  | .call op rest, m => rest.moved (op.moved m)

/-- Every call of the script is, with the objects that were moved from before it. -/
def Clean : Script → List Bool → Prop
  | .done, _ => True
  | .start _ _ body rest, m => body.Clean m ∧ rest.Clean (body.moved m ++ [false])
  | .call op rest, m => op.Clean m ∧ rest.Clean (op.moved m)

/-- The mode at the end, or none if the script does not come back. -/
def finalMode : Script → Bool → Bool → Option Bool
  | .done, serial, _ => some serial
  | .start _ _ body rest, serial, held =>
      if serial && held then none
      else (body.finalMode serial (serial || held)).bind fun serial => rest.finalMode serial held
  | .call op rest, serial, held =>
      (op.finalMode serial held).bind fun serial => rest.finalMode serial held

end Script

/-! ### The objects that were moved from

The marks are those of the script, and they are right for the state.
-/

/-- Every object is marked, and one that is not marked holds no null pointer. -/
structure Marked (moved : List Bool) (s : Threads) : Prop where
  length : moved.length = s.tasks.length
  held : ∀ (i : Nat) (task : TaskObject), moved[i]? = some false → s.tasks[i]? = some task →
    task.execu ≠ .thread none

namespace Marked

variable {moved : List Bool} {s t : Threads}

theorem of_tasks (h : Marked moved s) (htasks : t.tasks = s.tasks) : Marked moved t :=
  ⟨htasks ▸ h.length, fun i task hi htask => h.held i task hi (htasks ▸ htask)⟩

theorem addTask (h : Marked moved s) (task : TaskObject) (mark : Bool)
    (htask : mark = false → task.execu ≠ .thread none) :
    Marked (moved ++ [mark]) (s.addTask task) := by
  refine ⟨by simp [Threads.addTask, h.length], fun i a hi ha => ?_⟩
  rcases Nat.lt_trichotomy i moved.length with hlt | rfl | hgt
  · rw [List.getElem?_append_left hlt] at hi
    have ha' : s.tasks[i]? = some a := by
      rw [← List.getElem?_append_left (h.length ▸ hlt)]
      exact ha
    exact h.held i a hi ha'
  · rw [List.getElem?_concat_length] at hi
    have ha' : (s.tasks ++ [task])[s.tasks.length]? = some a := h.length ▸ ha
    rw [List.getElem?_concat_length] at ha'
    rw [← Option.some.inj ha']
    exact htask (Option.some.inj hi)
  · rw [List.getElem?_eq_none (by simp; omega)] at hi
    cases hi

theorem setTask (h : Marked moved s) (i : Nat) (task : TaskObject) (mark : Bool)
    (htask : mark = false → task.execu ≠ .thread none) :
    Marked (moved.set i mark) (s.setTask i task) := by
  refine ⟨by simp [Threads.setTask, h.length], fun j a hj ha => ?_⟩
  unfold Threads.setTask at ha
  by_cases hij : i = j
  · subst hij
    rw [List.getElem?_set_self'] at hj ha
    obtain ⟨-, -, rfl⟩ := Option.map_eq_some_iff.mp hj
    obtain ⟨-, -, rfl⟩ := Option.map_eq_some_iff.mp ha
    exact htask rfl
  · rw [List.getElem?_set_ne hij] at hj ha
    exact h.held j a hj ha

/-- The mark of an object, and what it says. -/
theorem getD (h : Marked moved s) {i : Nat} {task : TaskObject} (hi : s.tasks[i]? = some task)
    (hmark : moved.getD i true = false) : task.execu ≠ .thread none := by
  have hlt : i < moved.length := h.length ▸ (List.getElem?_eq_some_iff.mp hi).1
  refine h.held i task ?_ hi
  rw [List.getD_eq_getElem?_getD, List.getElem?_eq_getElem hlt] at hmark
  rw [List.getElem?_eq_getElem hlt]
  exact congrArg some hmark

theorem exists_task (h : Marked moved s) {i : Nat} (hi : i < moved.length) :
    ∃ task, s.tasks[i]? = some task := by
  rw [h.length] at hi
  exact ⟨s.tasks[i], List.getElem?_eq_getElem hi⟩

end Marked

/-! ### Coming back

Two things are foretold of a piece of code at once: that it comes back in a mode, or that it
waits.
-/

variable {m m' : List Bool} {s t : Threads}

/-- What a piece of code has done when it comes back. -/
structure Ends (m : List Bool) (ran : List Nat) (serial : Bool) (s s' : Threads) : Prop where
  marked : Marked m s'
  ran : s'.ran = s.ran ++ ran
  serial : s'.serial = serial
  held : s'.held = s.held

/-- The code does what was foretold: it comes back in that mode, or it waits for ever. -/
def Foretold (x : Except Fault Threads) (mode : Option Bool) (m : List Bool) (ran : List Nat)
    (s : Threads) : Prop :=
  match mode with
  | none => x = .error .noReturn
  | some serial => ∃ s', x = .ok s' ∧ Ends m ran serial s s'

/-- The state the code starts in, when functions were called before. -/
theorem Foretold.starting {x : Except Fault Threads} {mode : Option Bool}
    {before ran : List Nat} (h : Foretold x mode m ran t) (hran : t.ran = s.ran ++ before)
    (hheld : t.held = s.held) : Foretold x mode m (before ++ ran) s := by
  cases mode with
  | none => exact h
  | some serial =>
      obtain ⟨s', hs', hends⟩ := h
      refine ⟨s', hs', hends.marked, ?_, hends.serial, hends.held.trans hheld⟩
      rw [hends.ran, hran, List.append_assoc]

/-- One piece of code after another. -/
theorem Foretold.bind {x : Except Fault Threads} {mode : Option Bool} {ran ran' : List Nat}
    {f : Threads → Except Fault Threads} {g : Bool → Option Bool} (h : Foretold x mode m ran s)
    (hrest : ∀ t, Ends m ran t.serial s t → Foretold (f t) (g t.serial) m' ran' t) :
    Foretold (x >>= f) (mode.bind g) m' (ran ++ ran') s := by
  cases mode with
  | none =>
      have hx : x = .error .noReturn := h
      rw [hx]
      rfl
  | some serial =>
      obtain ⟨t, rfl, hends⟩ := h
      obtain rfl : t.serial = serial := hends.serial
      rw [bind_of_ok, Option.bind_some]
      have hlast := hrest t hends
      cases hg : g t.serial with
      | none =>
          rw [hg] at hlast
          exact hlast
      | some serial =>
          rw [hg] at hlast
          obtain ⟨s', hs', hends'⟩ := hlast
          refine ⟨s', hs', hends'.marked, ?_, hends'.serial, hends'.held.trans hends.held⟩
          rw [hends'.ran, hends.ran, List.append_assoc]

/-! ### One call

A task that is executed in serial mode has the mutex held around its function, so what the
function does is foretold with the mutex held.
-/

section Launch

variable {state : TaskState} {type : TaskType} {execu : Executable}
  {body : Threads → Except Fault Threads}

/-- The mutex is held: no task is executed in serial mode. -/
theorem launch_blocked (hstate : state ≠ .cancelled) (h : (s.serial && s.held) = true) :
    s.launch state type execu body = .error .noReturn := by
  obtain ⟨hserial, hheld⟩ := Bool.and_eq_true_iff.mp h
  have hexec : execute (s.newTask state type execu) body s.takeId = .error .noReturn :=
    execute_held hstate hserial hheld
  show execute (s.newTask state type execu) body s.takeId >>= _ = _
  rw [hexec]
  rfl

/-- Otherwise the mutex is held in serial mode while the task is executed. -/
theorem launch_unblocked (hstate : state ≠ .cancelled) (h : (s.serial && s.held) = false) :
    s.launch state type execu body =
      (callExecu execu body (s.takeId.hold (s.serial || s.held)) >>= fun t =>
        pure ((if s.serial then t.hold false else t).addTask (s.newTask state type execu))) := by
  show execute (s.newTask state type execu) body s.takeId >>= _ = _
  cases hserial : s.serial with
  | true =>
      have hheld : s.held = false := by simpa [hserial] using h
      have hexec : execute (s.newTask state type execu) body s.takeId =
          (callExecu execu body (s.takeId.hold true) >>= fun t => pure (t.hold false)) :=
        execute_locked hstate hserial hheld
      rw [hexec, Bool.true_or]
      cases callExecu execu body (s.takeId.hold true) <;> rfl
  | false =>
      have hexec : execute (s.newTask state type execu) body s.takeId =
          callExecu execu body s.takeId := execute_unlocked hstate hserial
      rw [hexec]
      rfl

/-- A task that is executed ends as what it calls, with the mutex given back. -/
theorem launch_foretold {mode : Option Bool} {ran : List Nat} (hstate : state ≠ .cancelled)
    (hexecu : execu ≠ .thread none)
    (hcall : Foretold (callExecu execu body (s.takeId.hold (s.serial || s.held))) mode m ran
      (s.takeId.hold (s.serial || s.held))) :
    Foretold (s.launch state type execu body) (if s.serial && s.held then none else mode)
      (m ++ [false]) ran s := by
  cases hblocked : s.serial && s.held with
  | true => exact launch_blocked hstate hblocked
  | false =>
      rw [launch_unblocked hstate hblocked, if_neg Bool.false_ne_true]
      cases mode with
      | none =>
          have herror : callExecu execu body _ = .error .noReturn := hcall
          rw [herror]
          rfl
      | some serial =>
          obtain ⟨t, ht, hends⟩ := hcall
          rw [ht]
          refine ⟨_, rfl, ?_, ?_, ?_, ?_⟩
          · refine Marked.addTask ?_ _ false fun _ => hexecu
            cases s.serial with
            | true => exact hends.marked.of_tasks rfl
            | false => exact hends.marked
          · cases s.serial <;> exact hends.ran
          · cases s.serial <;> exact hends.serial
          · have hheld : t.held = (s.serial || s.held) := hends.held
            cases hserial : s.serial with
            | true =>
                rw [hserial] at hblocked
                exact (by simpa using hblocked.symm : false = s.held)
            | false =>
                rw [hserial] at hheld
                exact hheld

end Launch

/-- Joining or detaching a thread. -/
theorem settle_foretold (h : Marked m s) (k : Nat) :
    Foretold (s.settle (some k)) (some s.serial) m [] s := by
  refine ⟨_, settle_some s k, ?_⟩
  cases s.joinable k with
  | true => exact ⟨h.of_tasks rfl, (List.append_nil _).symm, rfl, rfl⟩
  | false => exact ⟨h, (List.append_nil _).symm, rfl, rfl⟩

theorem launch_thread_foretold (h : Marked m s) (state : TaskState) (hstate : state ≠ .cancelled)
    {thread : Option Nat} (hthread : thread ≠ none) :
    Foretold (s.launch state .thread (.thread thread) pure)
      (if s.serial && s.held then none else some s.serial) (m ++ [false]) [] s := by
  obtain ⟨k, rfl⟩ := Option.ne_none_iff_exists'.mp hthread
  have hmarked : Marked m (s.takeId.hold (s.serial || s.held)) := h.of_tasks rfl
  exact launch_foretold hstate nofun (settle_foretold hmarked k)

theorem cancel_foretold (h : Marked m s) {i : Nat} (hi : m[i]? = some false) :
    Foretold (s.cancel i) (some s.serial) m [] s := by
  obtain ⟨task, htask⟩ := h.exists_task (List.getElem?_eq_some_iff.mp hi).1
  have hnull := h.held i task hi htask
  unfold cancel
  rw [ref_returns.mpr htask, bind_of_ok]
  by_cases hstate : task.state ≠ .cancelled
  · rw [if_pos hstate]
    have hset : Marked m (s.setTask i { task with state := .cancelled }) := by
      obtain ⟨hlt, hget⟩ := List.getElem?_eq_some_iff.mp hi
      have hmark : m.set i false = m := by
        rw [← hget]
        exact List.set_getElem_self hlt
      rw [← hmark]
      exact h.setTask i _ false fun _ => hnull
    dsimp only
    split
    · exact ⟨_, rfl, hset, (List.append_nil _).symm, rfl, rfl⟩
    · rename_i thread hexecu
      have hthread : thread ≠ none := fun hnone => hnull (by rw [hexecu, hnone])
      obtain ⟨k, rfl⟩ := Option.ne_none_iff_exists'.mp hthread
      have hsettle : Foretold _ (some s.serial) m ([] ++ []) s :=
        (settle_foretold hset k).starting (List.append_nil _).symm rfl
      exact hsettle
  · rw [if_neg hstate]
    exact ⟨s, rfl, h, (List.append_nil _).symm, rfl, rfl⟩

theorem TaskOp.step_foretold {op : TaskOp} (h : Marked m s) (hclean : op.Clean m) :
    Foretold (op.step s) (op.finalMode s.serial s.held) (op.moved m) [] s := by
  cases op with
  | default =>
      refine ⟨_, rfl, ?_, (List.append_nil _).symm, rfl, rfl⟩
      have hmarked : Marked m s.takeId := h.of_tasks rfl
      exact hmarked.addTask (s.newTask .created .function (.function none)) false fun _ => nofun
  | spawn thread => exact launch_thread_foretold h .running nofun hclean
  | delay thread => exact launch_thread_foretold h .suspended nofun hclean
  | defer execu =>
      refine ⟨_, rfl, ?_, (List.append_nil _).symm, rfl, rfl⟩
      have hmarked : Marked m s.takeId := h.of_tasks rfl
      exact hmarked.addTask (s.newTask .suspended .thread execu) false fun _ => hclean
  | cancel i => exact cancel_foretold h hclean
  | moveConstruct i =>
      obtain ⟨task, htask⟩ := h.exists_task hclean
      refine ⟨(s.setTask i (leave task)).addTask task, ?_, ?_, (List.append_nil _).symm, rfl, rfl⟩
      · show s.moveConstruct i = _
        unfold Threads.moveConstruct
        rw [ref_returns.mpr htask]
        rfl
      · exact (h.setTask i _ true nofun).addTask task _ (h.getD htask)
  | moveAssign j i =>
      obtain ⟨dest, hdest⟩ := h.exists_task hclean.1
      obtain ⟨task, htask⟩ := h.exists_task hclean.2
      show Foretold (s.moveAssign j i) _ _ _ _
      unfold Threads.moveAssign
      rw [ref_returns.mpr htask, bind_of_ok, ref_returns.mpr hdest, bind_of_ok]
      by_cases hji : j = i
      · rw [if_neg (not_not.mpr hji)]
        refine ⟨s, rfl, ?_, (List.append_nil _).symm, rfl, rfl⟩
        simpa [TaskOp.moved, hji] using h
      · rw [if_pos hji]
        refine ⟨_, rfl, ?_, (List.append_nil _).symm, rfl, rfl⟩
        have hmarks : (moveAssign j i).moved m = (m.set j (m.getD i true)).set i true :=
          if_neg hji
        rw [hmarks]
        exact (h.setTask j task _ (h.getD htask)).setTask i _ true nofun
  | desynchronize => exact ⟨_, rfl, h.of_tasks rfl, (List.append_nil _).symm, rfl, rfl⟩
  | synchronize => exact ⟨_, rfl, h.of_tasks rfl, (List.append_nil _).symm, rfl, rfl⟩

/-! ### Scripts

By induction on the script, with the functions of its tasks as smaller scripts.
-/

namespace Script

theorem run_foretold :
    ∀ (p : Script) (m : List Bool) (s : Threads), Marked m s → p.Clean m →
      Foretold (p.run s) (p.finalMode s.serial s.held) (p.moved m) p.functions s := by
  intro p
  induction p with
  | done =>
      intro m s h _
      exact ⟨s, rfl, h, (List.append_nil _).symm, rfl, rfl⟩
  | start how fn body rest ihbody ihrest =>
      intro m s h hclean
      obtain ⟨state, hstate, heq⟩ := startFunction_eq how fn body.run s
      have hinside : Marked m ((s.takeId.hold (s.serial || s.held)).calling fn) := h.of_tasks rfl
      have hbody : Foretold
          (callExecu (.function (some fn)) body.run (s.takeId.hold (s.serial || s.held)))
          (body.finalMode s.serial (s.serial || s.held)) (body.moved m) ([fn] ++ body.functions)
          (s.takeId.hold (s.serial || s.held)) :=
        (ihbody m _ hinside hclean.1).starting rfl rfl
      have hlaunch : Foretold (s.launch state .function (.function (some fn)) body.run) _ _ _ s :=
        launch_foretold hstate nofun hbody
      rw [← heq] at hlaunch
      have hmode : (start how fn body rest).finalMode s.serial s.held =
          (if s.serial && s.held then none
            else body.finalMode s.serial (s.serial || s.held)).bind
              fun serial => rest.finalMode serial s.held := by
        rw [finalMode]
        cases s.serial && s.held <;> rfl
      rw [hmode]
      refine Foretold.bind hlaunch fun t hends => ?_
      rw [← hends.held]
      exact ihrest _ _ hends.marked hclean.2
  | call op rest ih =>
      intro m s h hclean
      refine Foretold.bind (TaskOp.step_foretold h hclean.1) fun t hends => ?_
      rw [← hends.held]
      exact ih _ _ hends.marked hclean.2

/--
**Scripts that come back.**  A clean script comes back if and only if it is foretold to, and
then every function it has a task execute was called once, in the order of the calls, whatever
was cancelled, and the mode is the one foretold.  Otherwise it waits for the mutex for ever.
-/
theorem runs_iff (p : Script) (m : List Bool) (s : Threads) (hmarked : Marked m s)
    (hclean : p.Clean m) :
    ((∃ s', p.run s = .ok s' ∧ s'.ran = s.ran ++ p.functions ∧
        p.finalMode s.serial s.held = some s'.serial) ↔ (p.finalMode s.serial s.held).isSome) ∧
      (p.run s = .error .noReturn ↔ p.finalMode s.serial s.held = none) := by
  have hforetold := run_foretold p m s hmarked hclean
  cases hmode : p.finalMode s.serial s.held with
  | none =>
      rw [hmode] at hforetold
      have hrun : p.run s = .error .noReturn := hforetold
      rw [hrun]
      simp
  | some serial =>
      rw [hmode] at hforetold
      obtain ⟨s', hrun, hends⟩ := hforetold
      rw [hrun]
      refine ⟨⟨fun _ => rfl, fun _ => ⟨s', rfl, hends.ran, ?_⟩⟩, nofun, nofun⟩
      rw [hends.serial]

theorem marked_initial (joinable : Nat → Bool) : Marked [] (.initial joinable) :=
  ⟨rfl, nofun⟩

/-- A function that leaves serial mode may start another task. -/
theorem runs_iff_nested :
    ∃ s', (start .spawn 0 (call .desynchronize (start .delay 1 .done .done)) .done).run
        (.initial fun _ => false) = .ok s' ∧ s'.ran = [0, 1] ∧ s'.serial = false := by
  obtain ⟨s', hrun, hran, hmode⟩ := (runs_iff
    (start .spawn 0 (call .desynchronize (start .delay 1 .done .done)) .done) []
    (.initial fun _ => false) (marked_initial _) ⟨⟨trivial, trivial, trivial⟩, trivial⟩).1.mpr rfl
  exact ⟨s', hrun, hran, (Option.some.inj hmode).symm⟩

end Script

end Ytl.Concurrency
