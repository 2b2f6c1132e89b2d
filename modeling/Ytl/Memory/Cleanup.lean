/-
The end of a thread: `cleanup` of `memory/include/allocator.inl`.

What is deleted is given back in order.  The pool manager is deleted after its pools; it has no
address of its own here.
-/
import Ytl.Memory.Pool

namespace Ytl.Memory.Allocator.Arena

/-- The loop over the pools of a class: `remaining` rounds are left, the next at `i`. -/
def deletePools (mgr : PoolManager) (c : Fin sizeClasses) : Nat → Nat → Except Trap (List Addr)
  | 0, _ => return []
  | remaining + 1, i => do
      let k ← poolRef i
      let rest ← deletePools mgr c remaining (i + 1)
      return (mgr.pools c k).pool :: rest

/-- The pools of all classes; the manager, and with it every count, is gone then. -/
def deleteManager (s : Arena) : Except Trap (List Addr) :=
  match s.poolMgr with
  | none => return []
  | some mgr => do
      let pools ← (List.finRange sizeClasses).mapM fun c => deletePools mgr c (mgr.counts c) 0
      return pools.flatten

def cleanup (s : Arena) : Except Trap Arena := do
  let tiny := (List.finRange tinyClasses).filterMap s.tinyPools
  let small ← s.deleteManager
  return { s with
    tinyPools := fun _ => none
    poolMgr := none
    cachedTinyCount := fun _ => 0
    deleted := s.deleted ++ (tiny ++ small) }

end Ytl.Memory.Allocator.Arena
