import DistributedSystems.Raft.Basic

-- The critical sections of `raft1/raft.go`. Each one runs under `rf.mu`, so a handler is a function
-- on the state of its server. The `send` functions are the parts that follow the return of `Call`.

namespace Raft

variable {n : Nat} {C D : Type}

-- Log replication

def sendTo (rf : Raft n C D) (q : Fin n) : Except (Crash n C D) (Request n C D) :=
  let commonIndex := rf.nextIndex q
  if rf.snapshotLastIndex < commonIndex then do
    let logIndex := rf.absoluteIndexToLogIndex commonIndex
    let prev ← rf.logAt (logIndex - 1)
    let entries ← rf.logFrom logIndex
    return .appendEntries {
      term         := rf.currentTerm
      leaderId     := rf.me
      leaderCommit := rf.commitIndex
      prevLogIndex := commonIndex - 1
      prevLogTerm  := prev.term
      entries }
  else
    .ok <| .installSnapshot {
      term              := rf.currentTerm
      leaderId          := rf.me
      lastIncludedIndex := rf.snapshotLastIndex
      lastIncludedTerm  := rf.snapshotLastTerm
      data              := rf.snapshot }

def startSendEntries (rf : Raft n C D) : Except (Crash n C D) (List (Fin n × Request n C D)) :=
  go ((List.finRange n).filter (· ≠ rf.me)) []
where
  go : List (Fin n) → List (Fin n × Request n C D) →
      Except (Crash n C D) (List (Fin n × Request n C D))
    | [], sent => .ok sent
    | q :: qs, sent =>
      match rf.sendTo q with
      | .ok request => go qs (sent ++ [(q, request)])
      | .error _    => .error { rf, sent }

-- The index of the first entry with term `t` among the first `i + 1` entries, if there is one.
def firstWithTerm (log : List (LogEntry C)) (t : Nat) : Nat → Nat → Nat
  | 0,     first => if log[0]?.map (·.term) = some t then 0 else first
  | i + 1, first =>
    firstWithTerm log t i (if log[i + 1]?.map (·.term) = some t then i + 1 else first)

def buildFailedReply (rf : Raft n C D) (realStartIndex : Int) (reply : AppendEntriesReply) :
    Except (Crash n C D) AppendEntriesReply := do
  let entry ← rf.logAt realStartIndex
  let failedFirstIndex :=
    if entry.term = rf.snapshotLastTerm
    then rf.snapshotLastIndex
    else firstWithTerm rf.log entry.term realStartIndex.toNat realStartIndex.toNat
      + rf.snapshotLastIndex
  return { reply with
    success := false, failedTerm := entry.term, failedFirstIndex := max failedFirstIndex 1 }

-- The loop over `logPointer`, followed by the append of the entries that it did not reach.
def mergeEntries (rf : Raft n C D) (logPointer : Nat) :
    List (LogEntry C) → Except (Crash n C D) (Raft n C D)
  | [] => .ok rf
  | entry :: entries =>
    if logPointer < rf.logLength then do
      let old ← rf.logAt (rf.absoluteIndexToLogIndex logPointer)
      if old.term ≠ entry.term then
        let log ← rf.logTo (rf.absoluteIndexToLogIndex logPointer)
        return { rf with log := log ++ entry :: entries }
      else rf.mergeEntries (logPointer + 1) entries
    else .ok { rf with log := rf.log ++ entry :: entries }

def followLeader (rf : Raft n C D) (term : Nat) : Raft n C D :=
  let rf := { rf with state := .follower }
  if rf.currentTerm < term then rf.becomeFollower term else rf

def followCommit (rf : Raft n C D) (leaderCommit : Nat) : Raft n C D :=
  if rf.commitIndex < leaderCommit
  then { rf with commitIndex := min leaderCommit (rf.logLength - 1) }
  else rf

def appendEntries (rf : Raft n C D) (args : AppendEntriesArgs n C) :
    Except (Crash n C D) (Raft n C D × AppendEntriesReply) :=
  let reply : AppendEntriesReply := { term := rf.currentTerm }
  if args.term < rf.currentTerm then .ok (rf, reply) else
  let rf := rf.followLeader args.term
  if rf.logLength ≤ args.prevLogIndex then do
    let reply ← rf.buildFailedReply (rf.log.length - 1) reply
    return (rf, reply)
  else if args.prevLogIndex < rf.snapshotLastIndex then
    .ok (rf, { reply with
      failedTerm := rf.snapshotLastTerm, failedFirstIndex := rf.snapshotLastIndex })
  else do
    let realIndex := rf.absoluteIndexToLogIndex args.prevLogIndex
    let prev ← rf.logAt realIndex
    if prev.term ≠ args.prevLogTerm then
      let reply ← rf.buildFailedReply realIndex reply
      return (rf, reply)
    else
      let rf ← rf.mergeEntries (args.prevLogIndex + 1) args.entries
      return (rf.followCommit args.leaderCommit, { reply with success := true })

def sendEntries (rf : Raft n C D) (requestedServerId : Fin n) (args : AppendEntriesArgs n C)
    (reply : AppendEntriesReply) : Except (Crash n C D) (Raft n C D) :=
  if rf.currentTerm < reply.term then .ok (rf.becomeFollower reply.term)
  else if rf.state ≠ .leader ∨ rf.currentTerm ≠ args.term ∨
      args.prevLogIndex + 1 ≠ rf.nextIndex requestedServerId then .ok rf
  else if !reply.success then
    .ok { rf with
      nextIndex := Function.update rf.nextIndex requestedServerId reply.failedFirstIndex }
  else
    let last := args.prevLogIndex + args.entries.length
    updateCommitIndex { rf with
      nextIndex  := Function.update rf.nextIndex requestedServerId (last + 1)
      matchIndex := Function.update rf.matchIndex requestedServerId last }

-- Leader election

def myLogOlder (rf : Raft n C D) (myLastLogTerm : Nat) (args : RequestVoteArgs n) : Bool :=
  if args.lastLogTerm < myLastLogTerm then true
  else if myLastLogTerm = args.lastLogTerm then args.lastLogIndex < rf.logLength - 1
  else false

def requestVote (rf : Raft n C D) (args : RequestVoteArgs n) :
    Except (Crash n C D) (Raft n C D × RequestVoteReply) :=
  let reply : RequestVoteReply := { term := rf.currentTerm, voteGranted := false }
  if args.term < rf.currentTerm then .ok (rf, reply) else
  let rf := if rf.currentTerm < args.term then rf.becomeFollower args.term else rf
  do
    let myLast ← rf.logAt (rf.log.length - 1)
    if (rf.votedFor = none ∨ rf.votedFor = some args.candidateId) ∧
        !rf.myLogOlder myLast.term args then
      return ({ rf with votedFor := args.candidateId }, { reply with voteGranted := true })
    else
      return (rf, reply)

-- The winner takes over with what it knows to be committed as the match index of every peer.
def becomeLeader (rf : Raft n C D) : Raft n C D :=
  { rf with
    state      := .leader
    nextIndex  := fun _ => rf.logLength
    matchIndex := Function.update (fun _ => rf.commitIndex) rf.me (rf.logLength - 1) }

def sendRequestVote (rf : Raft n C D) (requestedServerId : Fin n) (term : Nat)
    (reply : RequestVoteReply) : Raft n C D :=
  if rf.currentTerm < reply.term then rf.becomeFollower reply.term
  else if rf.state = .leader ∨ term ≠ rf.currentTerm then rf
  else if reply.voteGranted then
    let rf := { rf with votesReceived := Function.update rf.votesReceived requestedServerId true }
    if rf.majorityThreshold ≤ rf.countVotes then rf.becomeLeader else rf
  else rf

def startElection (rf : Raft n C D) :
    Except (Crash n C D) (Raft n C D × List (Fin n × Request n C D)) := do
  let rf := { rf with
    currentTerm   := rf.currentTerm + 1
    state         := .candidate
    votedFor      := rf.me
    votesReceived := Function.update (fun _ => false) rf.me true }
  let last ← rf.logAt (rf.log.length - 1)
  let args : RequestVoteArgs n := {
    term         := rf.currentTerm
    candidateId  := rf.me
    lastLogIndex := rf.logLength - 1
    lastLogTerm  := last.term }
  return (rf, ((List.finRange n).filter (· ≠ rf.me)).map ((·, .requestVote args)))

-- Client interface

def start (rf : Raft n C D) (command : C) :
    Except (Crash n C D) (Raft n C D × List (Fin n × Request n C D) × (Nat × Nat × Bool)) :=
  if rf.state ≠ .leader then .ok (rf, [], (rf.commitIndex, rf.currentTerm, false)) else
  let entry : LogEntry C := { term := rf.currentTerm, command := some command }
  let rf := { rf with log := rf.log ++ [entry] }
  let rf := { rf with matchIndex := Function.update rf.matchIndex rf.me (rf.logLength - 1) }
  do
    let sent ← rf.startSendEntries
    return (rf, sent, (rf.logLength - 1, rf.currentTerm, true))

-- Install snapshot

-- The log keeps the entries behind the snapshot only if it contains the snapshot's last entry.
def installLog (rf : Raft n C D) (args : InstallSnapshotArgs n D) :
    Except (Crash n C D) (Raft n C D) :=
  let logIndex := rf.absoluteIndexToLogIndex args.lastIncludedIndex
  if logIndex < rf.log.length ∧ rf.log[logIndex.toNat]?.map (·.term) = some args.lastIncludedTerm
  then rf.trimLogFrom args.lastIncludedIndex args.lastIncludedTerm
  else .ok { rf with log := [{ term := args.lastIncludedTerm, command := none }] }

def installSnapshot (rf : Raft n C D) (args : InstallSnapshotArgs n D) :
    Except (Crash n C D) (Raft n C D × InstallSnapshotReply) :=
  let reply : InstallSnapshotReply := { term := rf.currentTerm }
  if args.term < rf.currentTerm then .ok (rf, reply)
  else if args.lastIncludedIndex ≤ rf.snapshotLastIndex then .ok (rf, reply)
  else do
    let rf ← rf.installLog args
    return ({ rf with
      commitIndex       := max rf.commitIndex args.lastIncludedIndex
      snapshotLastIndex := args.lastIncludedIndex
      snapshotLastTerm  := args.lastIncludedTerm
      snapshot          := args.data
      isSnapshotApplied := false }, reply)

def sendInstallSnapshot (rf : Raft n C D) (requestedServerId : Fin n)
    (args : InstallSnapshotArgs n D) (reply : InstallSnapshotReply) :
    Except (Crash n C D) (Raft n C D) :=
  if rf.currentTerm < reply.term then .ok (rf.becomeFollower reply.term)
  else if rf.state ≠ .leader ∨ rf.currentTerm ≠ args.term ∨
      args.lastIncludedIndex ≠ rf.snapshotLastIndex then .ok rf
  else
    let q := requestedServerId
    let index := args.lastIncludedIndex
    updateCommitIndex { rf with
      nextIndex  := Function.update rf.nextIndex q (max (index + 1) (rf.nextIndex q))
      matchIndex := Function.update rf.matchIndex q (max index (rf.matchIndex q)) }

-- Dispatch

def serve (rf : Raft n C D) : Request n C D → Except (Crash n C D) (Raft n C D × Reply)
  | .requestVote args     => return (← rf.requestVote args).map id .requestVote
  | .appendEntries args   => return (← rf.appendEntries args).map id .appendEntries
  | .installSnapshot args => return (← rf.installSnapshot args).map id .installSnapshot

def returned (rf : Raft n C D) (q : Fin n) :
    Request n C D → Reply → Option (Except (Crash n C D) (Raft n C D))
  | .requestVote args,     .requestVote reply     =>
    some <| .ok <| rf.sendRequestVote q args.term reply
  | .appendEntries args,   .appendEntries reply   => some <| rf.sendEntries q args reply
  | .installSnapshot args, .installSnapshot reply => some <| rf.sendInstallSnapshot q args reply
  | _,                     _                      => none

end Raft

-- Apply

-- Where `applyTicker` stands between two of its critical sections: asleep, blocked in the send of a
-- message, or back from that send and about to lock the mutex again.
inductive Applier (C D : Type)
  | sleeping
  | offering (msg : ApplyMsg C D)
  | sent (msg : ApplyMsg C D)

namespace Raft

variable {n : Nat} {C D : Type}

-- The loop over `rf.commitIndex > rf.lastApplied`, up to the next `Unlock`.
def applyCommands (rf : Raft n C D) : Except (Crash n C D) (Raft n C D × Applier C D) :=
  if rf.lastApplied < rf.commitIndex then do
    let rf := { rf with lastApplied := rf.lastApplied + 1 }
    let entry ← rf.logAt (rf.absoluteIndexToLogIndex rf.lastApplied)
    return (rf, .offering (.command entry.command rf.lastApplied))
  else .ok (rf, .sleeping)

-- The loop over `!rf.isSnapshotApplied`, up to the next `Unlock`.
def applySnapshots (rf : Raft n C D) : Except (Crash n C D) (Raft n C D × Applier C D) :=
  if !rf.isSnapshotApplied then
    .ok ({ rf with lastApplied := rf.snapshotLastIndex },
      .offering (.snapshot rf.snapshot rf.snapshotLastTerm rf.snapshotLastIndex))
  else rf.applyCommands

def applyTicker (rf : Raft n C D) :
    Applier C D → Option (Except (Crash n C D) (Raft n C D × Applier C D))
  | .sleeping   => some rf.applySnapshots
  | .offering _ => none
  | .sent (.snapshot _ _ index) =>
    let rf := if index = rf.snapshotLastIndex then { rf with isSnapshotApplied := true } else rf
    some rf.applySnapshots
  | .sent (.command ..) =>
    some <| if !rf.isSnapshotApplied then .ok (rf, .sleeping) else rf.applyCommands

end Raft
