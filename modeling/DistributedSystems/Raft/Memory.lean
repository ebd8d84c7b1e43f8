import DistributedSystems.Library.Slice
import DistributedSystems.Raft.Cluster

-- The arrays behind the logs of a cluster. `StartSendEntries` passes a slice of `rf.log` to each
-- goroutine of `sendEntries`, and `Call` marshals it without holding `rf.mu`. Until it has done so,
-- the server may write to the same array.

-- A goroutine of `sendEntries` with the arguments that the `go` statement has evaluated.
structure Sender (n : Nat) (C : Type) where
  callee  : Fin n
  -- The entries here are those that the slice had at the `go` statement.
  args    : AppendEntriesArgs n C
  entries : Slice
  encoded : List (LogEntry C)

structure Process (n : Nat) (C : Type) where
  log     : Backing (LogEntry C)
  senders : List (Sender n C)

structure LiveCluster (n : Nat) (C D : Type) extends Cluster n C D where
  process : Fin n → Process n C

inductive LiveEvent (n : Nat) (C D : Type)
  | act (event : Event n C D)
  | encode (p : Fin n) (k : Nat)

variable {n : Nat} {C D : Type}

-- The server in whose process the event takes place.
def Event.actor : Event n C D → Fin n
  | .start p _       => p
  | .startElection p => p
  | .heartbeat p     => p
  | .snapshot p _    => p
  | .applyTicker p   => p
  | .receive p       => p
  | .serve call      => call.callee
  | .returned call _ => call.caller
  | .failed call     => call.caller
  | .restart p       => p

def Message.appendEntries? : Message n C D → Option (Fin n × AppendEntriesArgs n C)
  | .request ⟨_, callee, _, .appendEntries args⟩ => some (callee, args)
  | _                                            => none

namespace Process

variable (growth : Nat → Nat → Nat)

def boot (rf : Raft n C D) : Process n C where
  log     := .new (growth 0 rf.log.length) rf.log
  senders := []

-- `Snapshot` and `InstallSnapshot` build a new log, all other changes are made by `append`.
def write (ps : Process n C) (rf rf' : Raft n C D) : Process n C :=
  { ps with
    log :=
      if rf'.snapshotLastIndex = rf.snapshotLastIndex
      then ps.log.store growth rf'.log
      else ps.log.move (growth 0 rf'.log.length) rf'.log }

def spawn (ps : Process n C) (rf : Raft n C D) (calls : List (Fin n × AppendEntriesArgs n C)) :
    Process n C :=
  { ps with senders := ps.senders ++ calls.map fun (callee, args) => {
      callee, args
      entries := ps.log.slice (args.prevLogIndex + 1 - rf.snapshotLastIndex) args.entries.length
      encoded := [] } }

def next (ps : Process n C) (nd nd' : Node n C D) (sent : List (Message n C D)) : Process n C :=
  if nd'.incarnation = nd.incarnation
  then (ps.write growth nd.rf nd'.rf).spawn nd'.rf (sent.filterMap Message.appendEntries?)
  else .boot growth nd'.rf

def progress (ps : Process n C) (k : Nat) (g : Sender n C) (entry : LogEntry C) : Process n C :=
  { ps with senders := ps.senders.set k { g with encoded := g.encoded ++ [entry] } }

end Process

namespace LiveCluster

variable (growth : Nat → Nat → Nat)

def init (n : Nat) (C D : Type) : LiveCluster n C D where
  toCluster := .init n C D
  process p := .boot growth ((Cluster.init n C D).node p).rf

-- A step of `p`. The requests for `AppendEntries` are left to their goroutines, but those that a
-- process has started before it dies may have been sent.
def become (s : LiveCluster n C D) (p : Fin n) (t : Cluster n C D) : LiveCluster n C D :=
  let sent := t.network.drop s.network.length
  let died := (t.node p).incarnation ≠ (s.node p).incarnation
  { node    := t.node
    network := s.network ++ sent.filter fun m => died ∨ m.appendEntries?.isNone
    process := Function.update s.process p ((s.process p).next growth (s.node p) (t.node p) sent) }

-- `Call` encodes the entries one after the other and then sends the request.
def encode (s : LiveCluster n C D) (p : Fin n) (k : Nat) : Option (LiveCluster n C D) :=
  let ps := s.process p
  ps.senders[k]?.bind fun g =>
    if g.encoded.length < g.entries.length then
      (ps.log.read g.entries g.encoded.length).map fun entry =>
        { s with process := Function.update s.process p (ps.progress k g entry) }
    else
      let args := { g.args with entries := g.encoded }
      let call : Call n C D := ⟨p, g.callee, (s.node p).incarnation, .appendEntries args⟩
      some { s with network := s.network ++ [.request call] }

variable [DecidableEq C] [DecidableEq D]

def next (s : LiveCluster n C D) : LiveEvent n C D → Option (LiveCluster n C D)
  | .act event  => (s.toCluster.next event).map (s.become growth event.actor)
  | .encode p k => s.encode p k

end LiveCluster

variable [DecidableEq C] [DecidableEq D]

def liveRaft (growth : Nat → Nat → Nat) (n : Nat) (C D : Type) [DecidableEq C] [DecidableEq D] :
    System (LiveCluster n C D) (LiveEvent n C D) where
  init := .init growth n C D
  next := LiveCluster.next growth

abbrev LiveExecution (growth : Nat → Nat → Nat) (n : Nat) (C D : Type) [DecidableEq C]
    [DecidableEq D] :=
  (liveRaft growth n C D).Behavior
