import DistributedSystems.Raft.Daemon
import DistributedSystems.Tester.Group

-- The tester of `raft1/test.go`. The daemons report to it what they read from `applyCh`.

open Rfsrv Tester

variable {n : Nat} {C : Type}

-- What is known about a server. It does not change when the server is restarted.
structure RaftServer (n : Nat) (C : Type) where
  applyErr : Option (Error n C)
  logs     : Log C

namespace RaftServer

variable [DecidableEq C]

-- All servers are compared, so the error is about the last one that differs.
def disagreement (srvs : Fin n → RaftServer n C) (i : Fin n) (command : Option C) (index : Nat) :
    Option (Error n C) :=
  (List.finRange n).foldl (fun err j =>
    match (srvs j).logs index with
    | some old => if old ≠ command then some (.mismatch index i command j old) else err
    | none     => err) none

def checkLogs (srvs : Fin n → RaftServer n C) (i : Fin n) (command : Option C) (index : Nat) :
    (Fin n → RaftServer n C) × Option (Error n C) × Bool :=
  let logs := Function.update (srvs i).logs index (some command)
  (Function.update srvs i { srvs i with logs }, disagreement srvs i command index,
    0 < index && ((srvs i).logs (index - 1)).isSome)

def ingestLog (srvs : Fin n → RaftServer n C) (i : Fin n) (xlog : Log C) : Fin n → RaftServer n C :=
  Function.update srvs i { srvs i with logs := xlog }

def setErr (srvs : Fin n → RaftServer n C) (i : Fin n) (err : Error n C) : Fin n → RaftServer n C :=
  Function.update srvs i { srvs i with applyErr := some err }

-- The calls that a round of `applier` or `applierSnap` makes, and the error that it finds.
def report (snapshot : Bool) (srvs : Fin n → RaftServer n C) (me : Fin n) (rs : Rfsrv C) :
    (Fin n → RaftServer n C) × Option (Error n C) :=
  match rs.applier with
  | .starting => (ingestLog srvs me rs.log, none)
  | .received (.command command index) =>
    if snapshot ∧ index ≠ rs.lastApplied + 1 then
      (srvs, some (.unexpected me (rs.lastApplied + 1) index))
    else
      let (srvs, err, prevok) := checkLogs srvs me command index
      (srvs, if 1 < index ∧ !prevok then some (.outOfOrder me index) else err)
  | .received (.snapshot data _ index) =>
    if !snapshot then (srvs, none) else
    match rs.ingestSnap me index data with
    | .ok rs     => (ingestLog srvs me rs.log, none)
    | .error err => (ingestLog srvs me rs.log, some err)
  | _ => (srvs, none)

end RaftServer

structure RaftTest (n : Nat) (C : Type) where
  group   : Group (Fin n) (Peer n C) (Persister n C (Snapshot C)) (Request n C (Snapshot C)) Reply
  srvs    : Fin n → RaftServer n C
  -- Calls that may be executed late, when the daemon has given up on them.
  reports : List (Fin n × Rfsrv C)
  -- All that `checkOneLeader` has heard about leaders: the term and the server.
  leaders : List (Nat × Fin n)

namespace RaftTest

open RaftServer

inductive Event (n : Nat) (C : Type)
  | group (e : Group.Event (Fin n) (Peer.Act C))
  | send (p : Fin n)
  | deliver (k : Nat)
  | getState (p : Fin n)

variable [DecidableEq C]

-- A daemon whose connection to the tester is closed cannot report an error any more.
def reported (snapshot : Bool) (ts : RaftTest n C) (p : Fin n) : Fin n → RaftServer n C :=
  match (ts.group.server p).running with
  | none      => ts.srvs
  | some peer =>
    let (srvs, err) := report snapshot ts.srvs p peer.rs
    err.elim srvs (setErr srvs p)

def next (snapshot : Bool) (ts : RaftTest n C) : Event n C → Option (RaftTest n C)
  | .group (.act p .report) =>
    (ts.group.next (raft1d n C snapshot) (.act p .report)).map fun group =>
      { ts with group, srvs := ts.reported snapshot p }
  | .group e => (ts.group.next (raft1d n C snapshot) e).map fun group => { ts with group }
  | .send p  =>
    (ts.group.server p).running.map fun peer => { ts with reports := ts.reports ++ [(p, peer.rs)] }
  | .deliver k =>
    ts.reports[k]?.map fun (p, rs) => { ts with srvs := (report snapshot ts.srvs p rs).fst }
  | .getState p =>
    (ts.group.server p).running.map fun peer =>
      if peer.node.rf.state = .leader then
        { ts with leaders := ts.leaders ++ [(peer.node.rf.currentTerm, p)] }
      else
        ts

end RaftTest

def raftTest (n : Nat) (C : Type) (snapshot : Bool) [DecidableEq C] :
    System (RaftTest n C) (RaftTest.Event n C) where
  init := ⟨(group (raft1d n C snapshot)).init, fun _ => ⟨none, fun _ => none⟩, [], []⟩
  next := RaftTest.next snapshot
