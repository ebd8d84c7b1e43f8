import DistributedSystems.Raft.Cluster

-- A single server in an arbitrary environment: requests, replies and calls of the service may come
-- at any time and with any contents.

namespace Server

inductive Input (n : Nat) (C D : Type)
  | start (command : C)
  | startElection
  | heartbeat
  | snapshot (index : Nat) (data : D)
  | applyTicker
  | receive
  | serve (request : Request n C D)
  | returned (q : Fin n) (request : Request n C D) (reply : Reply)
  | failed (request : Request n C D)
  | restart

end Server

open Server

variable {n : Nat} {C D : Type}

namespace Node

-- The end of a critical section with a deferred `persist`, which is also executed by a panic.
def conclude (nd : Node n C D) : Except (Crash n C D) (Raft n C D) → Node n C D
  | .ok rf   => nd.finish rf
  | .error c => nd.restart c.rf.persist

def next (nd : Node n C D) : Input n C D → Option (Node n C D)
  | .start command              => nd.conclude <| (nd.rf.start command).map Prod.fst
  | .startElection              => nd.conclude <| nd.rf.startElection.map Prod.fst
  | .heartbeat                  =>
    if nd.rf.state ≠ .leader then none else
    some <| if nd.rf.startSendEntries.isOk then nd else nd.restart nd.persister
  | .snapshot index data        => nd.conclude <| nd.rf.makeSnapshot index data
  | .applyTicker                =>
    (nd.rf.applyTicker nd.applier).map fun
      | .ok (rf, applier) => { nd with rf, applier }
      | .error _          => nd.restart nd.persister
  | .receive                    =>
    match nd.applier with
    | .offering msg => some { nd with applier := .sent msg, applyCh := nd.applyCh ++ [msg] }
    | _             => none
  | .serve request              => nd.conclude <| (nd.rf.serve request).map Prod.fst
  | .returned q request reply   => (nd.rf.returned q request reply).map nd.conclude
  | .failed (.requestVote _)    => nd
  | .failed _                   => nd.finish nd.rf
  | .restart                    => nd.restart nd.persister

end Node

def server (C D : Type) (me : Fin n) : System (Node n C D) (Input n C D) where
  init := .boot me ⟨none, none⟩ 0
  next := Node.next

-- What an action of the cluster is for one of its servers, if it concerns this server.
def Cluster.input (s : Cluster n C D) (p : Fin n) : Event n C D → Option (Input n C D)
  | .start q command      => if q = p then some (.start command) else none
  | .startElection q      => if q = p then some .startElection else none
  | .heartbeat q          => if q = p then some .heartbeat else none
  | .snapshot q data      => if q = p then (s.node p).received.map (.snapshot · data) else none
  | .applyTicker q        => if q = p then some .applyTicker else none
  | .receive q            => if q = p then some .receive else none
  | .serve call           => if call.callee = p then some (.serve call.request) else none
  | .returned call reply  =>
    if call.caller = p then some (.returned call.callee call.request reply) else none
  | .failed call          => if call.caller = p then some (.failed call.request) else none
  | .restart q            => if q = p then some .restart else none
