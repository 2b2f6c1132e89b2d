/-
What the request pool is for: a table of requests that do not know of each other.

A request is a row with the name libcurl has for it, its state, the options that were set for
it and the bytes that have come in.  Every operation of the pool is one on the rows, and what
concerns one transfer changes the row of that name only.  There are no slots, no generations
and no shared vector of bytes.
-/
import Ytl.Network.Https

namespace Ytl.Https

/-- A request as its maker sees it. -/
structure Request where
  /-- The easy handle of the transfer. -/
  key : Nat
  state : HttpsState := .pending
  error : Error := .none
  headers : List String := []
  postFields : Option (List UInt8) := none
  received : List UInt8 := []
  /-- libcurl has taken the transfer, and it has not ended. -/
  running : Bool := false
deriving DecidableEq

namespace Request

def receive (r : Request) (chunk : List UInt8) : Request :=
  { r with received := r.received ++ chunk }

def finish (r : Request) (result : CurlCode) : Request :=
  { r with
    state := if result = .ok then .complete else .error
    error := if result = .ok then r.error else curlToError result
    running := false }

end Request

/-! ### Operations -/

/-- The public operations, with the answers of libcurl. -/
inductive ApiOp where
  | create (url : List UInt8) (method : HttpsMethod) (spare : List UInt8)
  | setHeaders (handle : RequestHandle) (headers : List String)
  | setPostData (handle : RequestHandle) (data : List UInt8)
  | start (handle : RequestHandle) (accepts : Bool)
  | startBatch (handles : List (RequestHandle × Bool))
  | update (os : PerformAnswers)
  | updateBatch (handles : List RequestHandle) (os : PerformAnswers)

abbrev RequestTable := List Request

namespace RequestTable

/-- The row a handle stands for. -/
def find (t : RequestTable) (handle : RequestHandle) : Option Request :=
  if handle.generation = 0 then t[handle.index]? else none

/-- Change the rows of a name. -/
def change (t : RequestTable) (key : Nat) (f : Request → Request) : RequestTable :=
  t.map fun r => if r.key = key then f r else r

/-- Change the row a handle stands for. -/
def changeAt (t : RequestTable) (handle : RequestHandle) (f : Request → Request) :
    RequestTable :=
  match t.find handle with
  | none => t
  | some r => t.change r.key f

def create (t : RequestTable) (key : Nat) : RequestTable := t ++ [{ key := key }]

/-- A transfer that libcurl does not take stays as it is. -/
def start (t : RequestTable) (handle : RequestHandle) (accepts : Bool) : RequestTable :=
  t.changeAt handle fun r => { r with running := r.running || accepts }

def deliver (t : RequestTable) (write : Nat × List UInt8) : RequestTable :=
  t.change write.1 fun r => r.receive write.2

def finish (t : RequestTable) (msg : CurlMsg) : RequestTable :=
  match msg.done, msg.easyHandle with
  | true, some key => t.change key fun r => r.finish msg.result
  | _, _ => t

def update (t : RequestTable) (os : PerformAnswers) : RequestTable :=
  os.messages.foldl finish (os.writes.foldl deliver t)

/-- The request behind the handle is waiting for its answer. -/
def isPending (t : RequestTable) (handle : RequestHandle) : Bool :=
  (t.find handle).any fun r => r.state = .pending

/-- `easy` gives the name of the transfer of each new row. -/
def step (easy : Nat → Nat) (t : RequestTable) : ApiOp → RequestTable
  | .create _ _ _ => t.create (easy t.length)
  | .setHeaders handle headers => t.changeAt handle fun r => { r with headers := headers }
  | .setPostData handle data => t.changeAt handle fun r => { r with postFields := some data }
  | .start handle accepts => t.start handle accepts
  | .startBatch handles => handles.foldl (fun t handle => t.start handle.1 handle.2) t
  | .update os => t.update os
  | .updateBatch handles os => if handles.any t.isPending then t.update os else t

end RequestTable

end Ytl.Https
