import DistributedSystems.Library.Behavior
import DistributedSystems.Raft.Handlers

-- A cluster of `n` servers, each with its persister and its service, and the messages between them.

-- A call of one incarnation of `caller`. Only that incarnation waits for the reply.
structure Call (n : Nat) (C D : Type) where
  caller      : Fin n
  callee      : Fin n
  incarnation : Nat
  request     : Request n C D
  deriving DecidableEq

inductive Message (n : Nat) (C D : Type)
  | request (call : Call n C D)
  | reply (call : Call n C D) (reply : Reply)
  deriving DecidableEq

structure Node (n : Nat) (C D : Type) where
  rf          : Raft n C D
  persister   : Persister n C D
  incarnation : Nat
  applier     : Applier C D
  -- All messages that this incarnation has sent on `applyCh`, the latest one last. The channel is
  -- unbuffered, so these are also the messages that its service has received.
  applyCh     : List (ApplyMsg C D)

-- The network never forgets a message: it may be delivered at any later moment, any number of times
-- and in any order, or never.
structure Cluster (n : Nat) (C D : Type) where
  node    : Fin n → Node n C D
  network : List (Message n C D)

inductive Event (n : Nat) (C D : Type)
  | start (p : Fin n) (command : C)
  | startElection (p : Fin n)
  | heartbeat (p : Fin n)
  | snapshot (p : Fin n) (data : D)
  | applyTicker (p : Fin n)
  | receive (p : Fin n)
  | serve (call : Call n C D)
  | returned (call : Call n C D) (reply : Reply)
  | failed (call : Call n C D)
  | restart (p : Fin n)

variable {n : Nat} {C D : Type}

namespace Node

def boot (me : Fin n) (persister : Persister n C D) (incarnation : Nat) : Node n C D where
  rf          := .make me persister
  persister   := persister
  incarnation := incarnation
  applier     := .sleeping
  applyCh     := []

def restart (nd : Node n C D) (persister : Persister n C D) : Node n C D :=
  boot nd.rf.me persister (nd.incarnation + 1)

-- The end of a critical section with a deferred `persist`.
def finish (nd : Node n C D) (rf : Raft n C D) : Node n C D :=
  { nd with rf, persister := rf.persist }

-- The index that the service may pass to `Snapshot`: the one of the command that it received last,
-- if it has not received anything since.
def received (nd : Node n C D) : Option Nat :=
  match nd.applyCh.getLast? with
  | some (.command _ index) => index
  | _                       => none

end Node

namespace Cluster

def init (n : Nat) (C D : Type) : Cluster n C D where
  node p  := .boot p ⟨none, none⟩ 0
  network := []

def update (s : Cluster n C D) (p : Fin n) (nd : Node n C D) (sent : List (Message n C D)) :
    Cluster n C D where
  node    := Function.update s.node p nd
  network := s.network ++ sent

def calls (s : Cluster n C D) (p : Fin n) (requests : List (Fin n × Request n C D)) :
    List (Message n C D) :=
  requests.map fun (q, request) => .request ⟨p, q, (s.node p).incarnation, request⟩

-- A panic takes the whole process down. It comes back with whatever its persister holds.
def crash (s : Cluster n C D) (p : Fin n) (c : Crash n C D) : Cluster n C D :=
  s.update p ((s.node p).restart c.rf.persist) (s.calls p c.sent)

def start (s : Cluster n C D) (p : Fin n) (command : C) : Cluster n C D :=
  match (s.node p).rf.start command with
  | .ok (rf, requests, _) => s.update p ((s.node p).finish rf) (s.calls p requests)
  | .error c              => s.crash p c

def startElection (s : Cluster n C D) (p : Fin n) : Cluster n C D :=
  match (s.node p).rf.startElection with
  | .ok (rf, requests) => s.update p ((s.node p).finish rf) (s.calls p requests)
  | .error c           => s.crash p c

-- One round of `runHeartbeatCycle`, which has nothing to persist.
def heartbeat (s : Cluster n C D) (p : Fin n) : Option (Cluster n C D) :=
  if (s.node p).rf.state ≠ .leader then none else
  match (s.node p).rf.startSendEntries with
  | .ok requests => s.update p (s.node p) (s.calls p requests)
  | .error c     => s.update p ((s.node p).restart (s.node p).persister) (s.calls p c.sent)

def snapshot (s : Cluster n C D) (p : Fin n) (data : D) : Option (Cluster n C D) :=
  (s.node p).received.map fun index =>
    match (s.node p).rf.makeSnapshot index data with
    | .ok rf   => s.update p ((s.node p).finish rf) []
    | .error c => s.crash p c

def applyTicker (s : Cluster n C D) (p : Fin n) : Option (Cluster n C D) :=
  ((s.node p).rf.applyTicker (s.node p).applier).map fun
    | .ok (rf, applier) => s.update p { s.node p with rf, applier } []
    | .error _          => s.update p ((s.node p).restart (s.node p).persister) []

def receive (s : Cluster n C D) (p : Fin n) : Option (Cluster n C D) :=
  match (s.node p).applier with
  | .offering msg => s.update p { s.node p with
      applier := .sent msg, applyCh := (s.node p).applyCh ++ [msg] } []
  | _ => none

def serve (s : Cluster n C D) (call : Call n C D) : Cluster n C D :=
  match (s.node call.callee).rf.serve call.request with
  | .ok (rf, reply) => s.update call.callee ((s.node call.callee).finish rf) [.reply call reply]
  | .error c        => s.crash call.callee c

def returned (s : Cluster n C D) (call : Call n C D) (reply : Reply) : Option (Cluster n C D) :=
  if call.incarnation ≠ (s.node call.caller).incarnation then none else
  ((s.node call.caller).rf.returned call.callee call.request reply).map fun
    | .ok rf   => s.update call.caller ((s.node call.caller).finish rf) []
    | .error c => s.crash call.caller c

-- `Call` returned false: apart from a deferred `persist` nothing happens.
def failed (s : Cluster n C D) (call : Call n C D) : Option (Cluster n C D) :=
  if call.incarnation ≠ (s.node call.caller).incarnation then none else
  match call.request with
  | .requestVote _ => s
  | _              => s.update call.caller ((s.node call.caller).finish (s.node call.caller).rf) []

def restart (s : Cluster n C D) (p : Fin n) : Cluster n C D :=
  s.update p ((s.node p).restart (s.node p).persister) []

-- The action would end in a panic.
def panics (s : Cluster n C D) : Event n C D → Bool
  | .start p command     => !((s.node p).rf.start command).isOk
  | .startElection p     => !(s.node p).rf.startElection.isOk
  | .heartbeat p         => (s.node p).rf.state = .leader && !(s.node p).rf.startSendEntries.isOk
  | .snapshot p data     =>
    (s.node p).received.any fun index => !((s.node p).rf.makeSnapshot index data).isOk
  | .applyTicker p       => ((s.node p).rf.applyTicker (s.node p).applier).any (!·.isOk)
  | .serve call          => !((s.node call.callee).rf.serve call.request).isOk
  | .returned call reply =>
    ((s.node call.caller).rf.returned call.callee call.request reply).any (!·.isOk)
  | _                    => false

variable [DecidableEq C] [DecidableEq D]

def next (s : Cluster n C D) : Event n C D → Option (Cluster n C D)
  | .start p command      => s.start p command
  | .startElection p      => s.startElection p
  | .heartbeat p          => s.heartbeat p
  | .snapshot p data      => s.snapshot p data
  | .applyTicker p        => s.applyTicker p
  | .receive p            => s.receive p
  | .serve call           => if .request call ∈ s.network then s.serve call else none
  | .returned call reply  => if .reply call reply ∈ s.network then s.returned call reply else none
  | .failed call          => if .request call ∈ s.network then s.failed call else none
  | .restart p            => s.restart p

end Cluster

variable [DecidableEq C] [DecidableEq D]

def raft (n : Nat) (C D : Type) [DecidableEq C] [DecidableEq D] :
    System (Cluster n C D) (Event n C D) where
  init := .init n C D
  next := Cluster.next

abbrev Execution (n : Nat) (C D : Type) [DecidableEq C] [DecidableEq D] :=
  (raft n C D).Behavior

-- The states of the servers at the moments of a run.
abbrev History (n : Nat) (C D : Type) :=
  Nat → Fin n → Node n C D

abbrev Execution.history (e : Execution n C D) : History n C D :=
  fun i => (e.state i).node
