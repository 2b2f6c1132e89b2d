/-
The request pool: `network/include/https.h` and `network/src/https.cpp`.

All requests share one vector for the URLs and one for the response bytes; a
request knows its part of each by an offset and a length.  Transfers are done by
libcurl, of which the model keeps what the pool can see: which easy handles are
added to the multi handle and what has been set on each.

The rest of libcurl is answers, given with the calls that ask for them.  Whether
`curl_multi_add_handle` takes a handle is an argument of `start`, which does not
look at it; what a call of `curl_multi_perform` delivers and which messages are
read afterwards are arguments of `update`.  Options are taken to be set: the pool
looks at no answer of `curl_easy_setopt` either, and nothing is proved of a
transfer whose options libcurl had no memory for.

`std::vector::back` of an empty vector, an index past an array and an insertion
past the end of a vector have no result.
-/
import Mathlib.Algebra.Order.Ring.Int
import Mathlib.Data.List.FinRange
import Mathlib.Logic.Function.Basic
import Ytl.Base.Fault

namespace Ytl.Https

/-! ### Constants and enumerations -/

-- kept folded, so that no proof runs through all the slots by accident
@[irreducible] def maxConcurrentRequests : Nat := 512

theorem maxConcurrentRequests_eq : maxConcurrentRequests = 512 := by
  unfold maxConcurrentRequests; rfl

instance : NeZero maxConcurrentRequests := ⟨by rw [maxConcurrentRequests_eq]; decide⟩

def requestTimeoutMs : Nat := 30000

/-- `HTTPS_STATE`. -/
inductive HttpsState where
  | free | pending | complete | error
deriving DecidableEq, Repr

/-- `HTTPS_METHOD`. -/
inductive HttpsMethod where
  | get | post | put | delete | head | options
deriving DecidableEq, Repr

/-- `ERROR` of the requests. -/
inductive Error where
  | none | invalidUrl | connectionFailed | timeout | outOfMemory | sslError | networkError
  | internalError
deriving DecidableEq, Repr

/-- The codes of libcurl the pool tells apart. -/
inductive CurlCode where
  | ok | urlMalformat | couldntConnect | operationTimedout | outOfMemory | sslConnectError
  | couldntResolveHost | other (code : Nat)
deriving DecidableEq, Repr

def curlToError : CurlCode → Error
  | .ok => .none
  | .urlMalformat => .invalidUrl
  | .couldntConnect => .connectionFailed
  | .operationTimedout => .timeout
  | .outOfMemory => .outOfMemory
  | .sslConnectError => .sslError
  | .couldntResolveHost => .networkError
  | .other _ => .internalError

/-! ### The data of the pool -/

/-- What a caller holds of a request: its slot, and the generation the pool was in. -/
structure RequestHandle where
  index : Nat
  generation : Nat
deriving DecidableEq, Repr

/-- An easy handle is a pointer; `none` is the null pointer. -/
structure RequestData where
  state : HttpsState := .free
  error : Error := .none
  statusCode : Nat := 0
  urlOffset : Nat := 0
  urlLength : Nat := 0
  dataOffset : Nat := 0
  dataLength : Nat := 0
  curl : Option Nat := none

/-- `RequestPool`; what its multi handle knows is kept in `Client`. -/
structure RequestPool where
  requests : Fin maxConcurrentRequests → RequestData := fun _ => {}
  freeIndices : List Nat := []
  urls : List UInt8 := []
  responses : List UInt8 := []
  generation : Nat := 0
  activeCount : Nat := 0
  curlHandles : Fin maxConcurrentRequests → Option Nat
  nextCurlHandle : Nat := 0

/-- What has been set on an easy handle.  `CURLOPT_URL` copies the string it is given;
`CURLOPT_WRITEDATA` is a pointer to a request. -/
structure Easy where
  url : List UInt8 := []
  writeData : Option (Fin maxConcurrentRequests) := none
  timeoutMs : Nat := 0
  followLocation : Bool := false
  verifyPeer : Bool := true
  verifyHost : Nat := 2
  headers : List String := []
  postFields : Option (List UInt8) := none

/-- The pool and what libcurl knows of it. -/
structure Client extends RequestPool where
  /-- The easy handles that are added to the multi handle. -/
  added : List Nat := []
  easy : Nat → Easy := fun _ => {}

/-- One message of `curl_multi_info_read`. -/
structure CurlMsg where
  done : Bool := true
  easyHandle : Option Nat
  result : CurlCode := .ok

/-- What `update` meets: the bytes delivered to easy handles while
`curl_multi_perform` runs, and the messages read afterwards. -/
structure PerformAnswers where
  writes : List (Nat × List UInt8) := []
  messages : List CurlMsg := []

namespace Client

/-! ### References -/

/-- `requests[i]` and `curl_handles[i]`. -/
def ref (i : Nat) : Except Fault (Fin maxConcurrentRequests) :=
  if h : i < maxConcurrentRequests then .ok ⟨i, h⟩ else .error .outOfBounds

def setRequest (s : Client) (i : Fin maxConcurrentRequests) (r : RequestData) : Client :=
  { s with requests := Function.update s.requests i r }

/-- An option of libcurl; on a null handle it is an error that is not looked at. -/
def setopt (s : Client) (curl : Option Nat) (f : Easy → Easy) : Client :=
  match curl with
  | none => s
  | some h => { s with easy := Function.update s.easy h (f (s.easy h)) }

/-! ### Construction -/

/-- `easyInit` is what the calls of `curl_easy_init` return. -/
def construct (easyInit : Fin maxConcurrentRequests → Option Nat) : Client where
  freeIndices := (List.range maxConcurrentRequests).map fun i => maxConcurrentRequests - i - 1
  curlHandles := easyInit

/-! ### Slots -/

/-- The slots `alloc_slot` looks for when the free list is empty. -/
def freeSlots (s : Client) : List Nat :=
  ((List.finRange maxConcurrentRequests).filter fun i => (s.requests i).state = .free).map Fin.val

def allocSlot (s : Client) : Except Fault (Nat × Client) :=
  let s :=
    if s.freeIndices = [] then
      { s with generation := (s.generation + 1) % 2 ^ 32, freeIndices := s.freeSlots }
    else s
  match s.freeIndices.getLast? with
  | none => throw .outOfBounds
  | some index => return (index, { s with freeIndices := s.freeIndices.dropLast })

def freeSlot (s : Client) (index : Nat) : Except Fault Client := do
  let i ← ref index
  let s := s.setRequest i { s.requests i with state := .free }
  return { s with freeIndices := s.freeIndices ++ [index] }

def validHandle (s : Client) (handle : RequestHandle) : Bool :=
  if h : handle.index < maxConcurrentRequests then
    handle.generation = s.generation && (s.requests ⟨handle.index, h⟩).state != .free
  else false

/-! ### Making requests -/

/-- The bytes up to the first 0, as a C string is read. -/
def cString (bytes : List UInt8) : List UInt8 := bytes.takeWhile fun b => b != 0

/-- `spare` is what lies in memory behind the last byte of `urls`. -/
def initCurlHandle (s : Client) (curl : Option Nat) (i : Fin maxConcurrentRequests)
    (spare : List UInt8) : Client :=
  s.setopt curl fun _ =>
    { url := cString (s.urls.drop (s.requests i).urlOffset ++ spare)
      writeData := some i
      timeoutMs := requestTimeoutMs
      followLocation := true
      verifyPeer := true
      verifyHost := 2 }

def create (s : Client) (url : List UInt8) (_method : HttpsMethod) (spare : List UInt8) :
    Except Fault (RequestHandle × Client) := do
  let (index, s) ← s.allocSlot
  let i ← ref index
  let next ← ref s.nextCurlHandle
  let curl := s.curlHandles next
  let s := s.setRequest i
    { state := .pending
      error := .none
      statusCode := 0
      urlOffset := s.urls.length % 2 ^ 32
      urlLength := url.length % 2 ^ 32
      dataOffset := 0
      dataLength := 0
      curl := curl }
  let s := { s with
    urls := s.urls ++ url
    nextCurlHandle :=
      if s.nextCurlHandle + 1 ≥ maxConcurrentRequests then 0 else s.nextCurlHandle + 1 }
  return (⟨index, s.generation⟩, s.initCurlHandle curl i spare)

/-- An option on the easy handle of the request behind a handle; any other handle is passed
over. -/
def setOption (s : Client) (handle : RequestHandle) (f : Easy → Easy) : Except Fault Client :=
  if s.validHandle handle then do
    let i ← ref handle.index
    return s.setopt (s.requests i).curl f
  else
    return s

def setHeaders (s : Client) (handle : RequestHandle) (headers : List String) :
    Except Fault Client :=
  s.setOption handle fun e => { e with headers := headers }

def setPostData (s : Client) (handle : RequestHandle) (data : List UInt8) :
    Except Fault Client :=
  s.setOption handle fun e => { e with postFields := some data }

/-! ### Running requests -/

/-- `curl_multi_add_handle` takes neither a null handle nor one that is already added.
Whether it takes any other is its answer `accepts`: it refuses all of them where there is no
multi handle, and one where there is no memory. -/
def multiAdd (s : Client) (curl : Option Nat) (accepts : Bool) : Client :=
  match curl with
  | none => s
  | some h => if h ∈ s.added ∨ accepts = false then s else { s with added := s.added ++ [h] }

/-- `curl_multi_remove_handle` is called for handles of this multi handle, which it removes. -/
def multiRemove (s : Client) : Option Nat → Client
  | none => s
  | some h => { s with added := s.added.erase h }

/-- `accepts` is what libcurl answers; it is not looked at. -/
def start (s : Client) (handle : RequestHandle) (accepts : Bool) : Except Fault Client :=
  if s.validHandle handle then do
    let i ← ref handle.index
    let s := s.multiAdd (s.requests i).curl accepts
    return { s with activeCount := (s.activeCount + 1) % 2 ^ 32 }
  else
    return s

/-- `write_cb`, called with the request that was set as its user data. -/
def writeCb (s : Client) (req : Fin maxConcurrentRequests) (chunk : List UInt8) :
    Except Fault Client :=
  let r := s.requests req
  let pos := r.dataOffset + r.dataLength
  if pos ≤ s.responses.length then
    let s := { s with responses := s.responses.take pos ++ chunk ++ s.responses.drop pos }
    return s.setRequest req { r with dataLength := (r.dataLength + chunk.length) % 2 ^ 32 }
  else throw .outOfBounds

/-- A delivery goes to the request that was set on the easy handle. -/
def deliver (s : Client) (write : Nat × List UInt8) : Except Fault Client :=
  match (s.easy write.1).writeData with
  | none => return s
  | some req => s.writeCb req write.2

/-- The request a message is taken to be about: the first with that easy handle. -/
def requestOf (s : Client) (easyHandle : Option Nat) : Option (Fin maxConcurrentRequests) :=
  (List.finRange maxConcurrentRequests).find? fun i => (s.requests i).curl = easyHandle

def finish (s : Client) (msg : CurlMsg) : Client :=
  if msg.done then
    match s.requestOf msg.easyHandle with
    | none => s
    | some i =>
        let r := s.requests i
        let state := if msg.result = .ok then HttpsState.complete else .error
        let s := s.setRequest i
          { r with
            state := state
            error := if state = .error then curlToError msg.result else r.error }
        let s := s.multiRemove r.curl
        { s with activeCount := (s.activeCount + 2 ^ 32 - 1) % 2 ^ 32 }
  else s

def update (s : Client) (os : PerformAnswers) : Except Fault Client := do
  let s ← os.writes.foldlM deliver s
  return os.messages.foldl finish s

/-! ### Reading requests -/

/-- What is read of the request behind a handle, and what is said of any other handle. -/
def lookup {α : Type} (s : Client) (handle : RequestHandle) (field : RequestData → α)
    (invalid : α) : Except Fault α :=
  if s.validHandle handle then do
    let i ← ref handle.index
    return field (s.requests i)
  else
    return invalid

def getState (s : Client) (handle : RequestHandle) : Except Fault HttpsState :=
  s.lookup handle RequestData.state .error

def getError (s : Client) (handle : RequestHandle) : Except Fault Error :=
  s.lookup handle RequestData.error .internalError

def getStatusCode (s : Client) (handle : RequestHandle) : Except Fault Nat :=
  s.lookup handle RequestData.statusCode 0

/-- A span past the end of the vector has no bytes to read. -/
def getResponse (s : Client) (handle : RequestHandle) : Except Fault (List UInt8) :=
  if s.validHandle handle then do
    let i ← ref handle.index
    let r := s.requests i
    if r.dataOffset + r.dataLength ≤ s.responses.length then
      return (s.responses.drop r.dataOffset).take r.dataLength
    else throw .outOfBounds
  else
    return []

/-! ### Batches -/

/-- Each handle of the batch comes with what libcurl answers when it is started. -/
def startBatch (s : Client) (handles : List (RequestHandle × Bool)) : Except Fault Client :=
  handles.foldlM (fun s handle => s.start handle.1 handle.2) s

/-- The first pending request of the batch has everything updated, once. -/
def updateBatch (s : Client) (os : PerformAnswers) : List RequestHandle → Except Fault Client
  | [] => return s
  | handle :: rest => do
      let state ← s.getState handle
      if state = .pending then
        s.update os
      else
        updateBatch s os rest

end Client

end Ytl.Https
