import DistributedSystems.KvRaft.Servers
import DistributedSystems.Rsm.Replicated

-- The servers of `kvraft1` with all that is below them.
namespace KvRaft

open KvSrv KvTest

structure Stack (n : Nat) (K V : Type) where
  replicas : Replicated n (KVServer K V) (Req K V) (Resp V) (K → Option (Data V))
  calls    : Nat → Option (Rsm.Call (Fin n) (Req K V))

namespace Stack

inductive Action (n : Nat) (K V : Type)
  -- The request arrives at a server.
  | handle (k : Nat) (p : Fin n)
  | step (a : Replicated.Action n (Req K V) (K → Option (Data V)))

variable {n : Nat} {K V : Type} [DecidableEq K]

def handle (s : Stack n K V) (k : Nat) (p : Fin n) (req : Req K V) : Stack n K V :=
  let rsm := s.replicas.rsm.rsm p
  { replicas := s.replicas.submit (stateMachine K V) p req
    calls    := Function.update s.calls k (some ⟨rsm.op p req, rsm.incarnation⟩) }

variable [DecidableEq V] [DecidableEq (K → Option (Data V))]

def next (sent : List (KvInput K V)) (s : Stack n K V) : Action n K V → Option (Stack n K V)
  | .handle k p => do
    let input ← sent[k]?
    if (s.calls k).isNone then some (s.handle k p (.of input)) else none
  | .step (.submit ..) => none
  | .step a => (s.replicas.next (stateMachine K V) a).map fun replicas => { s with replicas }

end Stack

def stack (n : Nat) (K V : Type) [DecidableEq K] [DecidableEq V]
    [DecidableEq (K → Option (Data V))] :
    Backend (Stack n K V) (Stack.Action n K V) (KvInput K V) (KvOutput V) where
  init := ⟨(replicated n (stateMachine K V)).init, fun _ => none⟩
  next := Stack.next
  answers s k out :=
    s.replicas.rsm.returned.any fun r => s.calls k = some r.call ∧ reply r = some out

end KvRaft
