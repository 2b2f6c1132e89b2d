/-
Tasks: `concurrency/include/task.h` and `concurrency/src/task.cpp`.

A `std::function<void()>` is what calling it does to the state of the program, so a
function that starts tasks itself is one whose call starts them.  All of it happens on
one thread.  `std::mutex` is not recursive: locking it on the thread that holds it does
not come back.

Tasks that hold a `std::thread` are left out, and so is the time `delay` sleeps before
it calls its function.
-/
import Ytl.Base.Fault

namespace Ytl.Concurrency

/-- `task::state`. -/
inductive TaskState where
  | created
  | suspended
  | running
  | completed
  | cancelled
deriving DecidableEq, Repr

/-- `task::type`: what the task executes. -/
inductive TaskType where
  | function
  | thread
deriving DecidableEq, Repr

/-- The static members of `task`, and the functions that have been called so far. -/
structure Runtime where
  serial : Bool
  /-- This thread holds `mutex`. -/
  held : Bool
  nextId : BitVec 64
  ran : List Nat
deriving DecidableEq, Repr

namespace Runtime

def initial : Runtime := ⟨true, false, 0, []⟩

def desynchronize (r : Runtime) : Runtime := { r with serial := false }

def synchronize (r : Runtime) : Runtime := { r with serial := true }

/-- `mutex.lock()` -/
def lock (r : Runtime) : Except Fault Runtime :=
  if r.held then throw .noReturn else return { r with held := true }

/-- `mutex.unlock()` -/
def unlock (r : Runtime) : Runtime := { r with held := false }

end Runtime

/-- `std::function<void()>` -/
abbrev Function := Runtime → Except Fault Runtime

/-- A task whose executable is a function; a thread as the executable is in `TaskObject`. -/
structure Task where
  id : BitVec 64
  state : TaskState
  type : TaskType
  execu : Function

namespace Task

def execute (t : Task) (r : Runtime) : Except Fault Runtime := do
  if t.state = .cancelled then
    return r
  if r.serial then
    let r ← r.lock
    let r ← t.execu r
    return r.unlock
  else
    t.execu r

/-- A new task that is executed right away. -/
def launch (state : TaskState) (fn : Function) (r : Runtime) : Except Fault (Task × Runtime) := do
  let task : Task := ⟨r.nextId, state, .function, fn⟩
  let r ← task.execute { r with nextId := r.nextId + 1 }
  return (task, r)

def spawn (fn : Function) (r : Runtime) : Except Fault (Task × Runtime) := launch .running fn r

def delay (fn : Function) (r : Runtime) : Except Fault (Task × Runtime) := launch .suspended fn r

def defer (fn : Function) (r : Runtime) : Except Fault (Task × Runtime) := delay fn r

end Task

/-! ### Programs that start tasks -/

/-- The ways to start a task with a function. -/
inductive Call where
  | spawn
  | delay
  | defer
deriving DecidableEq, Repr

def Call.start : Call → Function → Runtime → Except Fault (Task × Runtime)
  | .spawn => Task.spawn
  | .delay => Task.delay
  | .defer => Task.defer

/-- The calls a piece of code makes one after the other: `start how fn body rest` has
function `fn` run by a task, which makes the calls `body`, and goes on with `rest`. -/
inductive Program where
  | done
  | start (how : Call) (fn : Nat) (body rest : Program)
deriving DecidableEq, Repr

namespace Program

def run : Program → Runtime → Except Fault Runtime
  | .done, r => return r
  | .start how fn body rest, r => do
      let (_, r) ← how.start (fun r => body.run { r with ran := r.ran ++ [fn] }) r
      rest.run r

/-- Every function of the program, in the order of the calls. -/
def functions : Program → List Nat
  | .done => []
  | .start _ fn body rest => fn :: (body.functions ++ rest.functions)

/-- No function that a task runs starts a task. -/
def Flat : Program → Prop
  | .done => True
  | .start _ _ body rest => body = .done ∧ rest.Flat

end Program

end Ytl.Concurrency
