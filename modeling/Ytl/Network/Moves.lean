/-
Moving the pools: the defaulted move operations in `network/include/udp.h` and
`network/include/https.h`, and what the destructor of a request pool does.

A defaulted move goes from member to member.  A vector is handed over; an array, a number
or a pointer is copied, and the pool that was moved from keeps what it had.  The destructors
do not know that: they act on every connection that is not `FREE`, and on every handle that
is not null.

A vector that a vector was constructed from is empty.  What an assignment leaves in one is
not specified, and given with the move.
-/
import Ytl.Network.Https
import Ytl.Network.Udp

namespace Ytl

namespace Udp

/-- What is left in the vectors of a pool that was moved from. -/
structure Remains where
  freeIndices : List Nat := []
  addrStorage : List Address := []

namespace UDPPool

/-- The pool that was moved from: only its vectors have changed. -/
def movedFrom (p : UDPPool) (left : Remains) : UDPPool :=
  { conns := p.conns
    freeIndices := left.freeIndices
    packetQueue :=
      { packets := p.packetQueue.packets
        length := p.packetQueue.length
        addrStorage := left.addrStorage } }

/-- The new pool, and the one that was moved from. -/
def moveConstruct (p : UDPPool) : UDPPool × UDPPool :=
  ({ conns := p.conns, freeIndices := p.freeIndices, packetQueue := p.packetQueue },
    p.movedFrom {})

/-- Every member of the first pool is assigned to; what it had is not released. -/
def moveAssign (q p : UDPPool) (left : Remains) : UDPPool × UDPPool :=
  ({ q with conns := p.conns, freeIndices := p.freeIndices, packetQueue := p.packetQueue },
    p.movedFrom left)

end UDPPool

/-- The two ways to move a pool: into a new one, or into a pool that there is already. -/
inductive Move where
  | construct
  | assign (q : UDPPool) (left : Remains)

def Move.apply (p : UDPPool) : Move → UDPPool × UDPPool
  | .construct => p.moveConstruct
  | .assign q left => q.moveAssign p left

/-- Several pools of one process are destroyed, one after the other. -/
def Process.destroyPools (s : Process) (pools : List UDPPool) : Except Fault Process :=
  pools.foldlM (fun t pool => { t with toUDPPool := pool }.destroy) s

end Udp

namespace Https

/-- A request pool with the multi handle it has. -/
structure OwningPool extends RequestPool where
  multiHandle : Option Nat

/-- What is left in the vectors of a request pool. -/
structure Remains where
  freeIndices : List Nat := []
  urls : List UInt8 := []
  responses : List UInt8 := []

namespace OwningPool

def movedFrom (p : OwningPool) (left : Remains) : OwningPool :=
  { requests := p.requests
    freeIndices := left.freeIndices
    urls := left.urls
    responses := left.responses
    multiHandle := p.multiHandle
    generation := p.generation
    activeCount := p.activeCount
    curlHandles := p.curlHandles
    nextCurlHandle := p.nextCurlHandle }

def moveConstruct (p : OwningPool) : OwningPool × OwningPool :=
  ({ toRequestPool := p.toRequestPool, multiHandle := p.multiHandle }, p.movedFrom {})

def moveAssign (q p : OwningPool) (left : Remains) : OwningPool × OwningPool :=
  ({ q with toRequestPool := p.toRequestPool, multiHandle := p.multiHandle }, p.movedFrom left)

end OwningPool

/-- The same two ways; a member that is moved from is left with `left`. -/
inductive Move where
  | construct
  | assign (q : OwningPool) (left : Remains)

def Move.apply (p : OwningPool) : Move → OwningPool × OwningPool
  | .construct => p.moveConstruct
  | .assign q left => q.moveAssign p left

/-- A call of `curl_easy_cleanup` or of `curl_multi_cleanup`. -/
inductive Cleanup where
  | easy (handle : Nat)
  | multi (handle : Nat)
deriving DecidableEq

/-- What the destructor cleans up. -/
def OwningPool.destroy (p : OwningPool) : List Cleanup :=
  (List.finRange maxConcurrentRequests).filterMap (fun k => (p.curlHandles k).map .easy) ++
    (p.multiHandle.map .multi).toList

end Https

end Ytl
