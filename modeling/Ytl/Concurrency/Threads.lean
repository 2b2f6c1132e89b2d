/-
Task objects: the whole of `concurrency/include/task.h` and `concurrency/src/task.cpp`, with
the tasks that hold a `std::thread`, cancelling and moving.

A program and the functions it has tasks run are written together as one `Script`: what a
function does is the calls it makes.  The task objects are numbered in the order in which the
program gets them, the threads by the program; none is a pointer that points nowhere.  All
calls are made on one thread, and the threads of the program are only joined or detached by it.

`cancel` and the moves are given the objects they are called with, so they can be made on an
object that was moved from.  Objects are not destroyed, and the program keeps its own pointer
to every thread.
-/
import Ytl.Concurrency.Task

namespace Ytl.Concurrency

/-- `task::executable`: a function, which may be empty, or a pointer to a thread. -/
inductive Executable where
  | function (fn : Option Nat)
  | thread (thread : Option Nat)
deriving DecidableEq, Repr

/-- What a move leaves behind: the same alternative with nothing in it. -/
def Executable.movedFrom : Executable → Executable
  | .function _ => .function none
  | .thread _ => .thread none

/-- A task object, whatever it executes. -/
structure TaskObject where
  id : BitVec 64
  state : TaskState
  type : TaskType
  execu : Executable
deriving DecidableEq, Repr

/-- The static members, the task objects of the program and its threads. -/
structure Threads extends Runtime where
  tasks : List TaskObject := []
  joinable : Nat → Bool
  /-- The threads that were joined or detached, in order; no branch reads it. -/
  settled : List Nat := []

namespace Threads

/-- A program that has done nothing with tasks. -/
def initial (joinable : Nat → Bool) : Threads := { Runtime.initial with joinable := joinable }

def ref (s : Threads) (i : Nat) : Except Fault TaskObject :=
  match s.tasks[i]? with
  | some task => return task
  | none => throw .outOfBounds

def setTask (s : Threads) (i : Nat) (task : TaskObject) : Threads :=
  { s with tasks := s.tasks.set i task }

/-- A task is returned to the program. -/
def addTask (s : Threads) (task : TaskObject) : Threads := { s with tasks := s.tasks ++ [task] }

/-- `if (thread->joinable()) thread->join()`, and the same with `detach`. -/
def settle (s : Threads) (thread : Option Nat) : Except Fault Threads :=
  match thread with
  | none => throw .nullPointer
  | some k =>
      if s.joinable k then
        return { s with
          joinable := fun j => if j = k then false else s.joinable j
          settled := s.settled ++ [k] }
      else
        return s

/-! ### Making and executing tasks -/

/-- `task::task()` -/
def construct (s : Threads) : TaskObject × Threads :=
  (⟨s.nextId, .created, .function, .function none⟩, { s with nextId := s.nextId + 1 })

/-- Call the function or join the thread; calling an empty function throws. -/
def callExecu (execu : Executable) (body : Threads → Except Fault Threads) (s : Threads) :
    Except Fault Threads :=
  match execu with
  | .function none => throw .nullPointer
  | .function (some fn) => body { s with ran := s.ran ++ [fn] }
  | .thread thread => s.settle thread

/-- `body` is what the function of the task does. -/
def execute (task : TaskObject) (body : Threads → Except Fault Threads) (s : Threads) :
    Except Fault Threads := do
  if task.state = .cancelled then
    return s
  if s.serial then
    let r ← s.toRuntime.lock
    let s ← callExecu task.execu body { s with toRuntime := r }
    return { s with toRuntime := s.toRuntime.unlock }
  else
    callExecu task.execu body s

/-- A new task that is executed right away and then returned. -/
def launch (state : TaskState) (type : TaskType) (execu : Executable)
    (body : Threads → Except Fault Threads) (s : Threads) : Except Fault Threads := do
  let (task, s) := s.construct
  let task := { task with state := state, type := type, execu := execu }
  let s ← execute task body s
  return s.addTask task

/-- The overloads of `spawn`, `delay` and `defer` for a function. -/
def startFunction (how : Call) (fn : Nat) (body : Threads → Except Fault Threads)
    (s : Threads) : Except Fault Threads :=
  match how with
  | .spawn => s.launch .running .function (.function (some fn)) body
  | .delay => s.launch .suspended .function (.function (some fn)) body
  | .defer => s.launch .suspended .function (.function (some fn)) body

/-- The overload of `spawn` for a thread. -/
def spawnThread (s : Threads) (thread : Option Nat) : Except Fault Threads :=
  s.launch .running .thread (.thread thread) pure

/-- The overload of `delay` for a thread. -/
def delayThread (s : Threads) (thread : Option Nat) : Except Fault Threads :=
  s.launch .suspended .thread (.thread thread) pure

/-- The overload of `defer` for an executable, which does not execute it. -/
def deferExecutable (s : Threads) (execu : Executable) : Threads :=
  let (task, s) := s.construct
  s.addTask { task with state := .suspended, type := .thread, execu := execu }

/-! ### Cancelling and moving -/

def cancel (s : Threads) (i : Nat) : Except Fault Threads := do
  let task ← s.ref i
  if task.state ≠ .cancelled then
    let s := s.setTask i { task with state := .cancelled }
    match task.execu with
    | .function _ => return s
    | .thread thread => s.settle thread
  else
    return s

/-- What `task` is after it was moved from. -/
def leave (task : TaskObject) : TaskObject :=
  { task with id := 0, state := .created, execu := task.execu.movedFrom }

/-- `task::task(task &&)` -/
def moveConstruct (s : Threads) (source : Nat) : Except Fault Threads := do
  let task ← s.ref source
  return (s.setTask source (leave task)).addTask task

/-- `task &task::operator=(task &&)` -/
def moveAssign (s : Threads) (dest source : Nat) : Except Fault Threads := do
  let task ← s.ref source
  let _ ← s.ref dest
  if dest ≠ source then
    return (s.setTask dest task).setTask source (leave task)
  else
    return s

end Threads

/-! ### Scripts -/

/-- A call that starts no function. -/
inductive TaskOp where
  | default
  | spawn (thread : Option Nat)
  | delay (thread : Option Nat)
  | defer (execu : Executable)
  | cancel (task : Nat)
  | moveConstruct (source : Nat)
  | moveAssign (dest source : Nat)
  | desynchronize
  | synchronize
deriving DecidableEq, Repr

def TaskOp.step (s : Threads) : TaskOp → Except Fault Threads
  | .default => let (task, s) := s.construct; return s.addTask task
  | .spawn thread => s.spawnThread thread
  | .delay thread => s.delayThread thread
  | .defer execu => return s.deferExecutable execu
  | .cancel task => s.cancel task
  | .moveConstruct source => s.moveConstruct source
  | .moveAssign dest source => s.moveAssign dest source
  | .desynchronize => return { s with toRuntime := s.toRuntime.desynchronize }
  | .synchronize => return { s with toRuntime := s.toRuntime.synchronize }

/-- How many tasks a call has constructed. -/
def TaskOp.constructed : TaskOp → Nat
  | .default | .spawn _ | .delay _ | .defer _ => 1
  | .cancel _ | .moveConstruct _ | .moveAssign _ _ | .desynchronize | .synchronize => 0

/-- The calls a piece of code makes one after the other: `start how fn body rest` has function
`fn`, which makes the calls `body`, run by a task and goes on with `rest`. -/
inductive Script where
  | done
  | start (how : Call) (fn : Nat) (body rest : Script)
  | call (op : TaskOp) (rest : Script)
deriving DecidableEq, Repr

namespace Script

def run : Script → Threads → Except Fault Threads
  | .done, s => return s
  | .start how fn body rest, s => do
      let s ← s.startFunction how fn body.run
      rest.run s
  | .call op rest, s => do
      let s ← op.step s
      rest.run s

/-- The functions of the tasks that are executed, in the order of the calls. -/
def functions : Script → List Nat
  | .done => []
  | .start _ fn body rest => fn :: (body.functions ++ rest.functions)
  | .call _ rest => rest.functions

/-- How many times the script has a task constructed. -/
def constructed : Script → Nat
  | .done => 0
  | .start _ _ body rest => body.constructed + rest.constructed + 1
  | .call op rest => op.constructed + rest.constructed

end Script

end Ytl.Concurrency
