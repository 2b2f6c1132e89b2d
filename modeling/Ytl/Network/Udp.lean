/-
The UDP pool: `network/include/udp.h` and `network/src/udp.cpp`.

Every operation is a function of the pool and of the answers the operating
system and the allocator give while it runs; a label of a run is a call with its
answers.  An operation that indexes past `conns_`, writes through a null pointer
or recurses for ever has no result, which is what `Except Fault` is for.

Two things in the source look like calls of the operating system and are not.
Inside the class the unqualified name `close` is the member function, so
`free_slot`, the destructor and `send_oneshot` hand a descriptor number to the
pool as if it were a slot index; and no descriptor is ever given back to the
operating system.

`Process` adds to the fields of the class what the proofs have to remember and
the class does not: the descriptors opened, the blocks released, the datagrams
handed over, and for each ring slot which accepted datagram it holds.  No branch
of the model reads any of it.
-/
import Mathlib.Algebra.Order.Ring.Int
import Mathlib.Data.List.FinRange
import Mathlib.Logic.Function.Basic
import Ytl.Base.Fault

namespace Ytl.Udp

/-! ### Constants and enumerations -/

def maxBufferedPackets : Nat := 8
def defaultPacketSize : Nat := 1024

-- kept folded, so that no proof runs through all the slots by accident
@[irreducible] def maxConnections : Nat := 1024

theorem maxConnections_eq : maxConnections = 1024 := by unfold maxConnections; rfl

instance : NeZero maxBufferedPackets := ⟨by decide⟩
instance : NeZero maxConnections := ⟨by rw [maxConnections_eq]; decide⟩

/-- `UDP_STATE`. -/
inductive UdpState where
  | free | pending | active | error
deriving DecidableEq, Repr

/-- `ERROR` of the connections. -/
inductive Error where
  | none | socketCreationFailed | sendFailed | bindFailed | connectFailed | asyncifyFailed
  | getaddrinfoFailed | recvFailed | pollFailed | failedToReadIoLen | invalidAddr
deriving DecidableEq, Repr

/-- `SEND_RESULT`. -/
inductive SendResult where
  | ok | buffered | failed
deriving DecidableEq, Repr

/-! ### The data of the pool -/

/-- The conversion of a signed number to an unsigned one of the given width. -/
def toUnsigned (bits : Nat) (x : Int) : Nat := (x % 2 ^ bits).toNat

/-- `Address`: the bytes of a socket address, and how many of them count. -/
structure Address where
  storage : Vector UInt8 28 := Vector.replicate 28 0
  addrLen : Int := 0
deriving DecidableEq

def Address.valid (a : Address) : Bool := 0 < a.addrLen

/-- A block of the C heap.  The number tells apart blocks that different calls of
the allocator returned, also where the allocator reused an address. -/
structure Block where
  id : Nat
  bytes : List UInt8
deriving DecidableEq

/-- `PacketData`: an entry of the ring. -/
structure PacketData where
  data : Option Block := none
  /-- `to` points into `addr_storage`; the pointer is the position of the entry. -/
  toAddr : Option Nat := none
  len : Nat := 0
  maxLen : Nat := 0

/-- The bytes a queued packet hands to the operating system. -/
def PacketData.payload (packet : PacketData) : List UInt8 :=
  ((packet.data.map Block.bytes).getD []).take packet.len

/-- `ConnectionData`: a slot of the pool. -/
structure ConnectionData where
  socket : Int := -1
  recvBuffer : Option Block := none
  maxPacketSize : Nat := defaultPacketSize
  dataLen : Nat := 0
  fromAddr : Address := {}
  error : Error := .none
  state : UdpState := .free
deriving DecidableEq

/-- `PacketQueue`: the ring, and beside it the addresses of the packets. -/
structure PacketQueue where
  packets : Fin maxBufferedPackets → PacketData := fun _ => {}
  length : Nat := 0
  addrStorage : List Address := []

/-- `UDPPool`: the slots, the free ones among them, and the ring. -/
structure UDPPool where
  conns : Fin maxConnections → ConnectionData := fun _ => {}
  freeIndices : List Nat := []
  packetQueue : PacketQueue := {}

/-! ### What happens around the pool -/

/-- A connection together with the descriptor it has. -/
structure Endpoint where
  conn : Option Nat
  fd : Int
deriving DecidableEq

/-- What the operating system does with a datagram. -/
inductive SendOutcome where
  | sent | wouldBlock | failed
deriving DecidableEq, Repr

/-- One call of `send` or `sendto`. -/
structure SendCall where
  /-- The connection whose socket the call is made on. -/
  via : Endpoint
  /-- The connection the datagram was given to the pool for. -/
  owner : Endpoint
  /-- The place of the datagram among all queued ones; none if it was not queued. -/
  serial : Option Nat
  bytes : List UInt8
  dest : Option Address
  outcome : SendOutcome
deriving DecidableEq

/-- A datagram `queue_packet` has taken. -/
structure Datagram where
  owner : Endpoint
  dest : Option Address
  data : List UInt8
deriving DecidableEq

/-- Which queued datagram a ring slot holds. -/
structure Tag where
  serial : Nat := 0
  owner : Endpoint := ⟨none, -1⟩

/-- The pool and the record of what it asked of the system. -/
structure Process extends UDPPool where
  /-- The descriptors `socket` returned; all of them stay open. -/
  sockets : List Int := []
  /-- How many blocks the allocator has handed out: the number of the next one. -/
  blocks : Nat := 0
  /-- The blocks passed to `std::free`, in order. -/
  freed : List Nat := []
  /-- The datagrams offered to the operating system, in order. -/
  sends : List SendCall := []
  /-- The datagrams `queue_packet` took, in order. -/
  queued : List Datagram := []
  tags : Fin maxBufferedPackets → Tag := fun _ => {}
  /-- How many datagrams had been queued when the queue was last drained. -/
  drained : Nat := 0

/-- The allocator's answer: whether it grants the block, and what a fresh one holds. -/
structure Alloc where
  granted : Bool := true
  junk : Nat → UInt8 := fun _ => 0

/-- The answers to the calls of `create` and `serve`. -/
structure OpenAnswers where
  malloc : Alloc := {}
  getaddrinfo : String → String → Bool → Option Address := fun _ _ _ => none
  /-- The new descriptor, or -1. -/
  socket : Int
  /-- `connect` did not fail. -/
  connect : Bool := true
  /-- `bind` did not fail. -/
  bind : Bool := true
  /-- `fcntl(F_GETFL)` did not fail. -/
  getfl : Bool := true

/-- The answers to the calls of the sending operations.  `outcome` goes by the number of the
call of the system.  `send` asks for memory at most once, and only after a call of its own was
told to wait, so `realloc` goes by the calls made before the `send`: no two requests share one. -/
structure SendAnswers where
  outcome : Nat → SendOutcome := fun _ => .sent
  realloc : Nat → Alloc := fun _ => {}

/-- The answers to the calls of one receiving operation. -/
structure RecvAnswers where
  fionread : Option Nat
  realloc : Alloc := {}
  received : Option (List UInt8)
  sender : Address := {}

/-- What the system says to one `recv_from_all`, connection by connection. -/
structure PollAnswers where
  poll : Option (Nat → Bool)
  recv : Nat → RecvAnswers

/-- What the system says to one `send_oneshot`. -/
structure OneshotAnswers where
  socket : Int
  getaddrinfo : String → String → Bool → Option Address := fun _ _ _ => none
  outcome : SendOutcome := .sent

namespace Process

/-! ### Memory and references -/

/-- `conns_[i]`: the slot a reference is bound to. -/
def ref (i : Nat) : Except Fault (Fin maxConnections) :=
  if h : i < maxConnections then .ok ⟨i, h⟩ else .error .outOfBounds

def setConn (s : Process) (i : Fin maxConnections) (c : ConnectionData) : Process :=
  { s with conns := Function.update s.conns i c }

def setError (s : Process) (i : Fin maxConnections) (e : Error) : Process :=
  s.setConn i { s.conns i with error := e }

def setPacket (s : Process) (k : Fin maxBufferedPackets) (p : PacketData) : Process :=
  { s with packetQueue.packets := Function.update s.packetQueue.packets k p }

/-- The connection a slot holds, as an endpoint. -/
def endpoint (s : Process) (i : Fin maxConnections) : Endpoint :=
  ⟨some i.val, (s.conns i).socket⟩

def malloc (s : Process) (size : Nat) (a : Alloc) : Option Block × Process :=
  if a.granted then
    (some ⟨s.blocks, (List.range size).map a.junk⟩, { s with blocks := s.blocks + 1 })
  else (none, s)

/-- The new block starts with the bytes of the old one, as far as it had any. -/
def realloc (s : Process) (old : Option Block) (size : Nat) (a : Alloc) :
    Option Block × Process :=
  s.malloc size { a with junk := fun i => (old.bind fun b => b.bytes[i]?).getD (a.junk i) }

def free (s : Process) : Option Block → Process
  | none => s
  | some b => { s with freed := s.freed ++ [b.id] }

/-! ### Slots -/

def allocSlot (s : Process) : Nat × Process :=
  match s.freeIndices.getLast? with
  | none => (maxConnections, s)
  | some index => (index, { s with freeIndices := s.freeIndices.dropLast })

/-- What `free_slot` does to its own slot once the inner `close` has returned. -/
def release (s : Process) (conn : Fin maxConnections) : Process :=
  let s := s.free (s.conns conn).recvBuffer
  let s := s.setConn conn {}
  { s with freeIndices := s.freeIndices ++ [conn.val] }

/-- `free_slot` calls `close` with the descriptor, and the member `close` is
`free_slot` again.  The first argument bounds the depth of that recursion. -/
def freeSlot : Nat → Process → Nat → Except Fault Process
  | 0, _, _ => .error .noReturn
  | fuel + 1, s, index => do
      let conn ← ref index
      if (s.conns conn).state ≠ .free then
        let s ← freeSlot fuel s (toUnsigned 32 (s.conns conn).socket)
        return s.release conn
      else
        return s

/-- More nested calls than there are slots: a recursion that is deeper never ends
(`freeSlot_eq_close`). -/
@[irreducible] def closeDepth : Nat := maxConnections + 2

def close (s : Process) (connId : Nat) : Except Fault Process :=
  freeSlot closeDepth s connId

/-! ### Opening connections -/

def resolveHost (getaddrinfo : String → String → Bool → Option Address)
    (hostname port : String) (ipv4 : Bool) : Address :=
  match getaddrinfo hostname port ipv4 with
  | none => {}
  | some addr => addr

/-- The failure branch writes to the slot whose index is the descriptor. -/
def initSocket (s : Process) (sock : Int) (getfl : Bool) : Except Fault Process :=
  if getfl then
    return s
  else do
    let conn ← ref (toUnsigned 64 sock)
    return s.setError conn .asyncifyFailed

/-- `conn.socket = socket(...)`; a descriptor that was returned is open from then on. -/
def openSocket (s : Process) (conn : Fin maxConnections) (fd : Int) : Process :=
  let s := s.setConn conn { s.conns conn with socket := fd }
  if fd = -1 then s else { s with sockets := s.sockets ++ [fd] }

/-- The receive buffer of a slot that was just taken. -/
def allocBuffer (s : Process) (conn : Fin maxConnections) (a : Alloc) : Process :=
  let (buffer, s) := s.malloc defaultPacketSize a
  s.setConn conn { s.conns conn with recvBuffer := buffer, maxPacketSize := defaultPacketSize }

def create (s : Process) (host port : String) (connect : Bool) (os : OpenAnswers) :
    Except Fault (Nat × Process) := do
  let (index, s) := s.allocSlot
  if index = maxConnections then
    return (maxConnections, s)
  let conn ← ref index
  let s := s.allocBuffer conn os.malloc
  let addr := resolveHost os.getaddrinfo host port true
  if !addr.valid then
    return (index, s.setError conn .invalidAddr)
  let s := s.openSocket conn os.socket
  if os.socket = -1 then
    return (index, s.setError conn .socketCreationFailed)
  if connect && !os.connect then
    return (index, s.setError conn .connectFailed)
  if !connect && !os.bind then
    return (index, s.setError conn .bindFailed)
  let s ← s.initSocket os.socket os.getfl
  return (index, s.setConn conn { s.conns conn with fromAddr := addr, state := .active })

def serve (s : Process) (_port : Nat) (os : OpenAnswers) : Except Fault (Nat × Process) := do
  let (index, s) := s.allocSlot
  if index = maxConnections then
    return (maxConnections, s)
  let conn ← ref index
  let s := s.allocBuffer conn os.malloc
  let s := s.openSocket conn os.socket
  if os.socket = -1 then
    return (index, s.setError conn .socketCreationFailed)
  if !os.bind then
    return (index, s.setError conn .bindFailed)
  let s ← s.initSocket os.socket os.getfl
  return (index, s.setConn conn { s.conns conn with state := .active })

/-- The pool before the constructor looks at its argument. -/
def empty : Process :=
  { freeIndices := (List.range maxConnections).map fun i => maxConnections - i - 1 }

/-- The constructor serves its port unless it is 0; `serve` takes 16 bits of it. -/
def construct (port : Nat) (os : OpenAnswers) : Except Fault Process :=
  if 0 < port then do
    let (_, s) ← empty.serve (port % 2 ^ 16) os
    return s
  else
    return empty

/-- One round of the destructor.  The slot is not reset. -/
def destroyOne (s : Process) (conn : Fin maxConnections) : Except Fault Process :=
  if (s.conns conn).state ≠ .free then do
    let s ← s.close (toUnsigned 32 (s.conns conn).socket)
    return s.free (s.conns conn).recvBuffer
  else
    return s

def destroy (s : Process) : Except Fault Process :=
  (List.finRange maxConnections).foldlM destroyOne s

/-! ### The packet queue -/

/-- `i & (MAX_BUFFERED_PACKETS - 1)`. -/
def ringSlot (i : Nat) : Fin maxBufferedPackets :=
  ⟨i &&& (maxBufferedPackets - 1), Nat.lt_succ_of_le Nat.and_le_right⟩

/-- Where a queued packet goes: an address, or the peer of the socket. -/
def destination (s : Process) (packet : PacketData) : Except Fault (Option Address) :=
  match packet.toAddr with
  | none => return none
  | some k =>
    match s.packetQueue.addrStorage[k]? with
    | none => throw .outOfBounds
    | some a => return if 0 < a.addrLen then some a else none

/-- The loop of `try_flush_queue`: `remaining` rounds are left, the next at `i`. -/
def flushLoop (conn : Fin maxConnections) (outcome : Nat → SendOutcome) :
    Nat → Nat → Process → Except Fault (Bool × Process)
  | 0, _, s =>
      return (false, { s with packetQueue.length := 0, drained := s.queued.length })
  | remaining + 1, i, s => do
      let packet := s.packetQueue.packets (ringSlot i)
      if packet.len = 0 then
        flushLoop conn outcome remaining (i + 1) s
      else
        let dest ← s.destination packet
        let ret := outcome s.sends.length
        let call : SendCall :=
          { via := s.endpoint conn
            owner := (s.tags (ringSlot i)).owner
            serial := some (s.tags (ringSlot i)).serial
            bytes := packet.payload
            dest := dest
            outcome := ret }
        let s := { s with sends := s.sends ++ [call] }
        match ret with
        | .wouldBlock => return (true, s)
        | .failed => return (false, s.setError conn .sendFailed)
        | .sent =>
            flushLoop conn outcome remaining (i + 1)
              (s.setPacket (ringSlot i) { packet with len := 0 })

def tryFlushQueue (s : Process) (connId : Nat) (outcome : Nat → SendOutcome) :
    Except Fault (Bool × Process) := do
  if s.packetQueue.length = 0 then
    return (false, s)
  let conn ← ref connId
  if (s.conns conn).error ≠ .none then
    return (false, s)
  let start :=
    if s.packetQueue.length > maxBufferedPackets then
      s.packetQueue.length - maxBufferedPackets
    else 0
  flushLoop conn outcome (s.packetQueue.length - start) start s

/-- Make room for `size` bytes in a slot; false when the allocator refuses. -/
def reservePacket (s : Process) (k : Fin maxBufferedPackets) (size : Nat) (a : Alloc) :
    Bool × Process :=
  let packet := s.packetQueue.packets k
  if packet.maxLen < size then
    let (block, s) := s.realloc packet.data size a
    if block.isNone then
      (false, s.setPacket k { packet with data := none })
    else
      (true, s.setPacket k { packet with data := block, maxLen := size % 2 ^ 16 })
  else (true, s)

/-- `std::memcpy` into the slot's buffer, and the new `len`. -/
def storePacket (s : Process) (k : Fin maxBufferedPackets) (data : List UInt8) :
    Except Fault Process :=
  let packet := s.packetQueue.packets k
  match packet.data with
  | none =>
      if data.length = 0 then return s.setPacket k { packet with len := 0 }
      else throw .nullPointer
  | some b =>
      if data.length ≤ b.bytes.length then
        return s.setPacket k { packet with
          data := some { b with bytes := data ++ b.bytes.drop data.length }
          len := data.length % 2 ^ 16 }
      else throw .outOfBounds

/-- Write the `addr_storage` entry that `to` points at. -/
def writeAddr (s : Process) (k : Nat) (f : Address → Address) : Except Fault Process :=
  match s.packetQueue.addrStorage[k]? with
  | none => throw .outOfBounds
  | some a =>
      return { s with packetQueue.addrStorage := s.packetQueue.addrStorage.set k (f a) }

/-- The destination of a slot: its entry of `addr_storage` is made on first use,
and a packet without an address only clears the length of the entry. -/
def addressPacket (s : Process) (k : Fin maxBufferedPackets) (addr : Option Address) :
    Except Fault Process :=
  let packet := s.packetQueue.packets k
  match addr, packet.toAddr with
  | some a, some entry => s.writeAddr entry fun _ => a
  | some a, none =>
      let entry := s.packetQueue.addrStorage.length
      let s := { s with packetQueue.addrStorage := s.packetQueue.addrStorage ++ [({} : Address)] }
      (s.setPacket k { packet with toAddr := some entry }).writeAddr entry fun _ => a
  | none, some entry => s.writeAddr entry fun a => { a with addrLen := 0 }
  | none, none => return s

/-- The record of a datagram that was queued. -/
def noteQueued (s : Process) (k : Fin maxBufferedPackets) (d : Datagram) : Process :=
  { s with
    tags := Function.update s.tags k ⟨s.queued.length, d.owner⟩
    queued := s.queued ++ [d] }

/-- `owner` is for the record only: `queue_packet` is not told the connection. -/
def queuePacket (s : Process) (owner : Endpoint) (addr : Option Address) (data : List UInt8)
    (a : Alloc) : Except Fault (SendResult × Process) := do
  let slot := ringSlot s.packetQueue.length
  let s := { s with packetQueue.length := (s.packetQueue.length + 1) % 2 ^ 32 }
  let (room, s) := s.reservePacket slot data.length a
  if !room then
    return (.failed, s)
  let s ← s.storePacket slot data
  let s ← s.addressPacket slot addr
  return (.buffered, s.noteQueued slot ⟨owner, addr, data⟩)

/-! ### Sending -/

/-- `send` and `send_to` differ in the destination only. -/
def sendVia (s : Process) (connId : Nat) (addr : Option Address) (data : List UInt8)
    (os : SendAnswers) : Except Fault (SendResult × Process) := do
  let conn ← ref connId
  if (s.conns conn).error ≠ .none ∨ (s.conns conn).state ≠ .active then
    return (.failed, s)
  let memory := os.realloc s.sends.length
  let (blocked, s) ← s.tryFlushQueue connId os.outcome
  if blocked then
    s.queuePacket (s.endpoint conn) addr data memory
  else
    let ret := os.outcome s.sends.length
    let call : SendCall :=
      { via := s.endpoint conn
        owner := s.endpoint conn
        serial := none
        bytes := data
        dest := addr
        outcome := ret }
    let s := { s with sends := s.sends ++ [call] }
    match ret with
    | .sent => return (.ok, s)
    | .wouldBlock => s.queuePacket (s.endpoint conn) addr data memory
    | .failed => return (.failed, s.setError conn .sendFailed)

def send (s : Process) (connId : Nat) (data : List UInt8) (os : SendAnswers) :
    Except Fault (SendResult × Process) :=
  s.sendVia connId none data os

def sendTo (s : Process) (connId : Nat) (addr : Address) (data : List UInt8)
    (os : SendAnswers) : Except Fault (SendResult × Process) :=
  s.sendVia connId (some addr) data os

def sendToAll (s : Process) (connIds : List Nat) (data : List UInt8) (os : SendAnswers) :
    Except Fault Process :=
  connIds.foldlM (fun s id => do let (_, s) ← s.send id data os; return s) s

def updateOne (outcome : Nat → SendOutcome) (s : Process) (i : Fin maxConnections) :
    Except Fault Process :=
  if (s.conns i).state ≠ .active then
    return s
  else do
    let (_, s) ← s.tryFlushQueue i.val outcome
    return s

def update (s : Process) (os : SendAnswers) : Except Fault Process :=
  (List.finRange maxConnections).foldlM (updateOne os.outcome) s

/-! ### Receiving -/

/-- The bytes the operating system writes at the start of the receive buffer. -/
def fillBuffer (buffer : Option Block) (received : List UInt8) : Except Fault (Option Block) :=
  match buffer with
  | none => throw .nullPointer
  | some b =>
      if received.length ≤ b.bytes.length then
        return some { b with bytes := received ++ b.bytes.drop received.length }
      else throw .outOfBounds

/-- `recv` and `recv_from` differ in what they do to `from`: before the call of
the operating system, and when it succeeds. -/
def receive (s : Process) (connId : Nat) (os : RecvAnswers)
    (before : Address → Address) (after : Address → Address) :
    Except Fault (Bool × Process) := do
  let conn ← ref connId
  let c := s.conns conn
  if c.error ≠ .none ∨ c.state ≠ .active then
    return (false, s)
  match os.fionread with
  | none => return (false, s.setConn conn { c with error := .failedToReadIoLen })
  | some n =>
      let c := { c with dataLen := n }
      if n = 0 then
        return (false, s.setConn conn c)
      let (block, s) :=
        if n > c.maxPacketSize then s.realloc c.recvBuffer n os.realloc
        else (c.recvBuffer, s)
      if n > c.maxPacketSize ∧ block.isNone then
        return (false, s.setConn conn { c with error := .failedToReadIoLen })
      let c := { c with
        recvBuffer := block
        maxPacketSize := if n > c.maxPacketSize then n else c.maxPacketSize
        fromAddr := before c.fromAddr }
      match os.received with
      | none => return (false, s.setConn conn { c with error := .recvFailed, dataLen := 0 })
      | some bytes =>
          let filled ← fillBuffer c.recvBuffer bytes
          return (true, s.setConn conn
            { c with recvBuffer := filled, dataLen := bytes.length, fromAddr := after c.fromAddr })

def recv (s : Process) (connId : Nat) (os : RecvAnswers) : Except Fault (Bool × Process) :=
  s.receive connId os (fun a => a) (fun a => a)

def recvFrom (s : Process) (connId : Nat) (os : RecvAnswers) : Except Fault (Bool × Process) :=
  s.receive connId os (fun a => { a with addrLen := 28 }) (fun _ => os.sender)

/-- The span `get_data` returns: where it begins and how many bytes it has. -/
def getData (s : Process) (connId : Nat) : Except Fault (Option Block × Nat) := do
  let conn ← ref connId
  return ((s.conns conn).recvBuffer, (s.conns conn).dataLen)

/-- The descriptors `recv_from_all` polls: those of the usable connections. -/
def pollSet (s : Process) : List Nat → Except Fault (List Int)
  | [] => return []
  | id :: rest => do
      let conn ← ref id
      let fds ← pollSet s rest
      if (s.conns conn).error ≠ .none ∨ (s.conns conn).state ≠ .active then
        return fds
      else
        return (s.conns conn).socket :: fds

/-- The loop over the poll result: entry `i` of the set is read as entry `i` of the
caller's list. -/
def recvReady (connIds : List Nat) (revents : Nat → Bool) (os : Nat → RecvAnswers)
    (s : Process) (i : Nat) : Except Fault Process :=
  if revents i then
    match connIds[i]? with
    | none => throw .outOfBounds
    | some id => do
        let (_, s) ← s.recvFrom id (os i)
        return s
  else
    return s

def recvFromAll (s : Process) (connIds : List Nat) (os : PollAnswers) :
    Except Fault Process := do
  let fds ← s.pollSet connIds
  match os.poll with
  | none =>
      connIds.foldlM (fun s id => do let conn ← ref id; return s.setError conn .pollFailed) s
  | some revents =>
      (List.range fds.length).foldlM (recvReady connIds revents os.recv) s

/-! ### Sending without a connection -/

def sendOneshot (s : Process) (host port : String) (data : List UInt8) (os : OneshotAnswers) :
    Except Fault (Error × Process) := do
  if os.socket = -1 then
    return (.socketCreationFailed, s)
  let s := { s with sockets := s.sockets ++ [os.socket] }
  let addr := resolveHost os.getaddrinfo host port true
  if !addr.valid then
    let s ← s.close (toUnsigned 32 os.socket)
    return (.invalidAddr, s)
  let call : SendCall :=
    { via := ⟨none, os.socket⟩
      owner := ⟨none, os.socket⟩
      serial := none
      bytes := data
      dest := some addr
      outcome := os.outcome }
  let s := { s with sends := s.sends ++ [call] }
  let s ← s.close (toUnsigned 32 os.socket)
  return (if os.outcome = .sent then .none else .sendFailed, s)

end Process

end Ytl.Udp
