import DistributedSystems.Library.Nodes
import DistributedSystems.Raft.Cluster

-- The daemon `raft1d`: a peer of Raft, and the server of `raft1/server.go` that reads from its
-- `applyCh`.

variable {n : Nat} {C : Type}

namespace Rfsrv

-- A map of the commands by their indices. A command may be `nil`.
abbrev Log (C : Type) :=
  Nat → Option (Option C)

-- What `applierSnap` encodes.
structure Snapshot (C : Type) where
  lastIncludedIndex : Nat
  xlog              : List (Option C)
  deriving DecidableEq

-- The error messages, with their arguments.
inductive Error (n : Nat) (C : Type)
  | nilSnapshot
  | snapshotMismatch (me : Fin n)
  | unexpected (me : Fin n) (expected got : Nat)
  | outOfOrder (me : Fin n) (index : Nat)
  | mismatch (index : Nat) (i : Fin n) (command : Option C) (j : Fin n) (old : Option C)
  deriving DecidableEq

-- Where the goroutine that reads from `applyCh` stands.
inductive Applier (C : Type)
  -- The log has been read from the persister, the tester is told about it.
  | starting
  | reading
  | received (m : ApplyMsg C (Snapshot C))
  | snapshotting (index : Nat)

end Rfsrv

open Rfsrv

structure Rfsrv (C : Type) where
  applier     : Rfsrv.Applier C
  lastApplied : Nat
  log         : Log C

namespace Rfsrv

def restore (rs : Rfsrv C) (snapshot : Snapshot C) : Rfsrv C :=
  { rs with log := (snapshot.xlog[·]?), lastApplied := snapshot.lastIncludedIndex }

def ingestSnap (rs : Rfsrv C) (me : Fin n) (index : Nat) :
    Option (Snapshot C) → Except (Error n C) (Rfsrv C)
  | none          => .error .nilSnapshot
  | some snapshot =>
    if index ≠ snapshot.lastIncludedIndex then .error (.snapshotMismatch me)
    else .ok (rs.restore snapshot)

-- The parameter `snapshot` says whether the servers of this test take snapshots.
def make (snapshot : Bool) (sn : Option (Snapshot C)) : Rfsrv C :=
  let rs : Rfsrv C := ⟨.reading, 0, fun _ => none⟩
  match snapshot, sn with
  -- There is no index that the snapshot has to match.
  | true, some sn => { rs.restore sn with applier := .starting }
  | _, _          => rs

def snapShotInterval : Nat :=
  10

-- What a round of the loop in `applierSnap` does to the server itself.
def applierSnap (rs : Rfsrv C) (me : Fin n) : ApplyMsg C (Snapshot C) → Rfsrv C
  | .snapshot data _ index =>
    match rs.ingestSnap me index data with
    | .ok rs   => { rs with applier := .reading }
    | .error _ => { rs with applier := .reading }
  | .command command index =>
    let applier := if (index + 1) % snapShotInterval = 0 then .snapshotting index else .reading
    { rs with applier, lastApplied := index, log := Function.update rs.log index (some command) }

-- Missing entries are encoded as `nil`.
def encode (rs : Rfsrv C) (index : Nat) : Snapshot C :=
  ⟨index, (List.range (index + 1)).map fun j => (rs.log j).getD none⟩

end Rfsrv

structure Peer (n : Nat) (C : Type) where
  node : Node n C (Snapshot C)
  rs   : Rfsrv C

namespace Peer

inductive Act (C : Type)
  | start (command : C)
  | startElection
  | heartbeat
  | applyTicker
  -- `rfsrv` reads a message, reports it to the tester, and may take a snapshot.
  | receive
  | report
  | snapshot

def act (snapshot : Bool) (peer : Peer n C) :
    Act C → Option (Option (Peer n C) × List (Fin n × Request n C (Snapshot C)))
  | .start command =>
    match peer.node.rf.start command with
    | .ok (rf, requests, _) => some (some { peer with node := peer.node.finish rf }, requests)
    | .error c              => some (none, c.sent)
  | .startElection =>
    match peer.node.rf.startElection with
    | .ok (rf, requests) => some (some { peer with node := peer.node.finish rf }, requests)
    | .error c           => some (none, c.sent)
  | .heartbeat =>
    if peer.node.rf.state ≠ .leader then none else
    match peer.node.rf.startSendEntries with
    | .ok requests => some (some peer, requests)
    | .error c     => some (none, c.sent)
  | .applyTicker =>
    (peer.node.rf.applyTicker peer.node.applier).map fun
      | .ok (rf, applier) => (some { peer with node := { peer.node with rf, applier } }, [])
      | .error _          => (none, [])
  | .receive =>
    match peer.rs.applier, peer.node.applier with
    | .reading, .offering m =>
      let node := { peer.node with applier := .sent m, applyCh := peer.node.applyCh ++ [m] }
      some (some ⟨node, { peer.rs with applier := .received m }⟩, [])
    | _, _ => none
  | .report =>
    match peer.rs.applier with
    | .starting   => some (some { peer with rs := { peer.rs with applier := .reading } }, [])
    | .received m =>
      let rs := if snapshot then peer.rs.applierSnap peer.node.rf.me m
        else { peer.rs with applier := .reading }
      some (some { peer with rs }, [])
    | _ => none
  | .snapshot =>
    match peer.rs.applier with
    | .snapshotting index =>
      match peer.node.rf.makeSnapshot index (peer.rs.encode index) with
      | .ok rf   => some (some ⟨peer.node.finish rf, { peer.rs with applier := .reading }⟩, [])
      | .error c => some (none, c.sent)
    | _ => none

def handle (peer : Peer n C) (request : Request n C (Snapshot C)) : Option (Peer n C × Reply) :=
  match peer.node.rf.serve request with
  | .ok (rf, reply) => some ({ peer with node := peer.node.finish rf }, reply)
  | .error _        => none

def resume (peer : Peer n C) (q : Fin n) (request : Request n C (Snapshot C)) :
    Option Reply → Option (Option (Peer n C))
  | some reply =>
    (peer.node.rf.returned q request reply).map fun
      | .ok rf   => some { peer with node := peer.node.finish rf }
      | .error _ => none
  | none =>
    match request with
    | .requestVote _ => some (some peer)
    | _              => some (some { peer with node := peer.node.finish peer.node.rf })

end Peer

-- A daemon does not know how often it has been restarted.
def raft1d (n : Nat) (C : Type) (snapshot : Bool) :
    Program (Fin n) (Peer n C) (Persister n C (Snapshot C)) (Peer.Act C)
      (Request n C (Snapshot C)) Reply where
  persister         := ⟨none, none⟩
  start p persister := ⟨.boot p persister 0, .make snapshot persister.snapshot⟩
  persisted peer    := peer.node.persister
  act               := Peer.act snapshot
  handle            := Peer.handle
  resume            := Peer.resume
