import DistributedSystems.KvRaft
import DistributedSystems.KvTest.Basic

-- The servers of `kvraft1`, which pass on the requests of the clients to their RSMs. Of Raft only
-- the order of the operations is known.
namespace KvRaft

open KvSrv KvTest

variable {P K V : Type}

-- What the handlers `Get` and `Put` submit.
def Req.of : KvInput K V → Req K V
  | .get key               => .get key
  | .put key value version => .put key value version

def Resp.output : Resp V → KvOutput V
  | .get reply => reply
  | .put err   => ⟨none, 0, err⟩

-- The reply of a handler whose call of `Submit` has returned. There is none if the type assertion
-- panics.
def reply (r : Rsm.Return P (Req K V) (Resp V)) : Option (KvOutput V) :=
  if r.err = .ok then
    match r.call.op.req, r.result with
    | .get _, some (.get reply) => some reply
    | .put .., some (.put err)  => some ⟨none, 0, err⟩
    | _, _                      => none
  else
    some ⟨none, 0, r.err⟩

structure Servers (P K V : Type) where
  rsm       : Rsm.State (KVServer K V) P (Req K V) (Resp V)
  -- The call of `Submit` that the handler of a request has made.
  calls     : Nat → Option (Rsm.Call P (Req K V))
  -- What has been passed to `Snapshot`.
  snapshots : List (Nat × (K → Option (Data V)))

namespace Servers

inductive Event (P K V : Type)
  -- The request arrives at a server, whose `Start` returns `start`.
  | handle (k : Nat) (p : P) (start : Option (Nat × Nat))
  | rsm (e : Rsm.Event P (Req K V) (K → Option (Data V)))
  | snapshot (p : P)
  -- The message or the persister has the given one of the snapshots.
  | restore (p : P) (j : Nat)
  | restart (p : P) (j : Option Nat)

variable [DecidableEq P] [DecidableEq K]

def handle (s : Servers P K V) (k : Nat) (p : P) (req : Req K V) (start : Option (Nat × Nat)) :
    Servers P K V :=
  let call := ⟨(s.rsm.rsm p).op p req, (s.rsm.rsm p).incarnation⟩
  { s with rsm := s.rsm.submit p req start, calls := Function.update s.calls k (some call) }

def step (s : Servers P K V) (e : Rsm.Event P (Req K V) (K → Option (Data V))) :
    Option (Servers P K V) :=
  (s.rsm.next (stateMachine K V) e).map fun rsm => { s with rsm }

def next (sent : List (KvInput K V)) (s : Servers P K V) : Event P K V → Option (Servers P K V)
  | .handle k p start => do
    let input ← sent[k]?
    if (s.calls k).isNone then some (s.handle k p (.of input) start) else none
  | .rsm (.submit ..) | .rsm (.restore ..) | .rsm (.restart ..) => none
  | .rsm e => s.step e
  | .snapshot p =>
    match (s.rsm.rsm p).reader with
    | .receiving =>
      let snapshot := ((s.rsm.rsm p).lastApplied, (s.rsm.rsm p).sm.snapshot)
      some { s with snapshots := s.snapshots ++ [snapshot] }
    | _ => none
  | .restore p j => do
    let (index, data) ← s.snapshots[j]?
    s.step (.restore p index data)
  | .restart p none     => s.step (.restart p 0 none)
  | .restart p (some j) => do
    let (index, data) ← s.snapshots[j]?
    s.step (.restart p index (some data))

-- See `Rsm.State.Reused`.
def Reused (_ : List (KvInput K V)) (s : Servers P K V) : Event P K V → Prop
  | .handle _ p (some (index, _)) =>
    ∃ x ∈ s.rsm.started, x.fst = index ∧ x.snd.op.me = p ∧ x.snd.op.id = (s.rsm.rsm p).id
  | _ => False

end Servers

def servers (P K V : Type) [DecidableEq P] [DecidableEq K] [DecidableEq V] :
    Backend (Servers P K V) (Servers.Event P K V) (KvInput K V) (KvOutput V) where
  init := ⟨.init (stateMachine K V), fun _ => none, []⟩
  next := Servers.next
  answers s k out :=
    s.rsm.returned.any fun r => s.calls k = some r.call ∧ reply r = some out

def clerks (servers : Nat) : Clerks (Fin servers) (Clerk servers) Unit where
  get := getClerk servers
  put := clerk servers

end KvRaft
