/-
Runs of a UDP pool.

A label is one public call with the answers the system gives while it runs.  What
is promised about the descriptors `socket` returns is a parameter: some facts
hold whatever they are, others need the operating system to hand out numbers
that are not in use.
-/
import Ytl.Base.Machine
import Ytl.Network.Udp

namespace Ytl.Udp

open Process

/-- A call of the pool with the answers it meets. -/
inductive Op where
  | create (host port : String) (connect : Bool) (os : OpenAnswers)
  | serve (port : Nat) (os : OpenAnswers)
  | send (connId : Nat) (data : List UInt8) (os : SendAnswers)
  | sendTo (connId : Nat) (addr : Address) (data : List UInt8) (os : SendAnswers)
  | sendToAll (connIds : List Nat) (data : List UInt8) (os : SendAnswers)
  | recv (connId : Nat) (os : RecvAnswers)
  | recvFrom (connId : Nat) (os : RecvAnswers)
  | recvFromAll (connIds : List Nat) (os : PollAnswers)
  | update (os : SendAnswers)
  | close (connId : Nat)
  | sendOneshot (host port : String) (data : List UInt8) (os : OneshotAnswers)

def Op.step (s : Process) : Op → Except Fault Process
  | .create host port connect os => Prod.snd <$> s.create host port connect os
  | .serve port os => Prod.snd <$> s.serve port os
  | .send connId data os => Prod.snd <$> s.send connId data os
  | .sendTo connId addr data os => Prod.snd <$> s.sendTo connId addr data os
  | .sendToAll connIds data os => s.sendToAll connIds data os
  | .recv connId os => Prod.snd <$> s.recv connId os
  | .recvFrom connId os => Prod.snd <$> s.recvFrom connId os
  | .recvFromAll connIds os => s.recvFromAll connIds os
  | .update os => s.update os
  | .close connId => s.close connId
  | .sendOneshot host port data os => Prod.snd <$> s.sendOneshot host port data os

/-- What `socket` answers during the call. -/
def Op.descriptor : Op → Option Int
  | .create _ _ _ os => some os.socket
  | .serve _ os => some os.socket
  | .sendOneshot _ _ _ os => some os.socket
  | _ => none

/-- `socket` fails, or returns a number that is not open. -/
def Fresh (s : Process) (fd : Int) : Prop := fd = -1 ∨ (0 ≤ fd ∧ fd < 2 ^ 31 ∧ fd ∉ s.sockets)

instance (s : Process) (fd : Int) : Decidable (Fresh s fd) :=
  inferInstanceAs (Decidable (_ ∨ _))

/-- The pool under a promise about descriptors. -/
def pool (promise : Process → Int → Prop) : Machine Process Op Fault where
  start s := ∃ port os, promise Process.empty os.socket ∧ construct port os = .ok s
  admits s op := ∀ fd ∈ op.descriptor, promise s fd
  step := Op.step

instance (s : Process) (op : Op) : Decidable ((pool Fresh).admits s op) :=
  inferInstanceAs (Decidable (∀ fd ∈ op.descriptor, Fresh s fd))

/-- A pool built with port 0 serves nothing. -/
theorem start_empty : (pool Fresh).start Process.empty :=
  ⟨0, { socket := -1 }, Or.inl rfl, rfl⟩

end Ytl.Udp
