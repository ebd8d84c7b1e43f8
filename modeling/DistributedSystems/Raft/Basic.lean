import Mathlib.Data.List.Sort
import Mathlib.Tactic

-- The data of `raft1/raft.go`. Servers are numbered by `Fin n`, `C` is the type of commands and `D`
-- the type of snapshots. Times only decide when an election is started and are left out.

-- The servers of a small cluster are given by literals.
instance neZero_three : NeZero 3 :=
  ⟨by decide⟩

-- `unset` is the zero value, which `Make` leaves in place.
inductive RaftState
  | unset
  | follower
  | candidate
  | leader
  deriving DecidableEq

structure LogEntry (C : Type) where
  term    : Nat
  command : Option C
  deriving DecidableEq

structure Raft (n : Nat) (C D : Type) where
  me                : Fin n
  majorityThreshold : Nat
  votesReceived     : Fin n → Bool
  state             : RaftState
  currentTerm       : Nat
  votedFor          : Option (Fin n)
  log               : List (LogEntry C)
  commitIndex       : Nat
  lastApplied       : Nat
  nextIndex         : Fin n → Nat
  matchIndex        : Fin n → Nat
  isSnapshotApplied : Bool
  snapshotLastIndex : Nat
  snapshotLastTerm  : Nat
  snapshot          : Option D

structure RequestVoteArgs (n : Nat) where
  term         : Nat
  candidateId  : Fin n
  lastLogIndex : Nat
  lastLogTerm  : Nat
  deriving DecidableEq

structure RequestVoteReply where
  term        : Nat
  voteGranted : Bool
  deriving DecidableEq

structure AppendEntriesArgs (n : Nat) (C : Type) where
  term         : Nat
  leaderId     : Fin n
  leaderCommit : Nat
  prevLogIndex : Nat
  prevLogTerm  : Nat
  entries      : List (LogEntry C)
  deriving DecidableEq

structure AppendEntriesReply where
  term             : Nat
  success          : Bool := false
  failedTerm       : Nat := 0
  failedFirstIndex : Nat := 0
  deriving DecidableEq

structure InstallSnapshotArgs (n : Nat) (D : Type) where
  term              : Nat
  leaderId          : Fin n
  lastIncludedIndex : Nat
  lastIncludedTerm  : Nat
  data              : Option D
  deriving DecidableEq

structure InstallSnapshotReply where
  term : Nat
  deriving DecidableEq

inductive Request (n : Nat) (C D : Type)
  | requestVote (args : RequestVoteArgs n)
  | appendEntries (args : AppendEntriesArgs n C)
  | installSnapshot (args : InstallSnapshotArgs n D)
  deriving DecidableEq

inductive Reply
  | requestVote (reply : RequestVoteReply)
  | appendEntries (reply : AppendEntriesReply)
  | installSnapshot (reply : InstallSnapshotReply)
  deriving DecidableEq

-- Exactly one of `CommandValid` and `SnapshotValid` is set.
inductive ApplyMsg (C D : Type)
  | command (command : Option C) (commandIndex : Nat)
  | snapshot (snapshot : Option D) (snapshotTerm snapshotIndex : Nat)
  deriving DecidableEq

def ApplyMsg.index {C D : Type} : ApplyMsg C D → Nat
  | command _ i    => i
  | snapshot _ _ i => i

-- What `persist` writes with `labgob`.
structure RaftStateBytes (n : Nat) (C : Type) where
  currentTerm       : Nat
  votedFor          : Option (Fin n)
  log               : List (LogEntry C)
  snapshotLastIndex : Nat
  snapshotLastTerm  : Nat

structure Persister (n : Nat) (C D : Type) where
  raftstate : Option (RaftStateBytes n C)
  snapshot  : Option D

-- A panic unwinds the handler. Its deferred `persist` still sees the state at that point, and the
-- goroutines started so far may have sent their requests.
structure Crash (n : Nat) (C D : Type) where
  rf   : Raft n C D
  sent : List (Fin n × Request n C D) := []

namespace Raft

variable {n : Nat} {C D : Type}

def absoluteIndexToLogIndex (rf : Raft n C D) (index : Nat) : Int :=
  index - rf.snapshotLastIndex

def logLength (rf : Raft n C D) : Nat :=
  rf.log.length + rf.snapshotLastIndex

-- The expressions `rf.log[i]`, `rf.log[i:]` and `rf.log[:i]`, which panic out of range.
def logAt (rf : Raft n C D) (i : Int) : Except (Crash n C D) (LogEntry C) :=
  if i < 0 then .error { rf } else rf.log[i.toNat]?.elim (.error { rf }) .ok

def logFrom (rf : Raft n C D) (i : Int) : Except (Crash n C D) (List (LogEntry C)) :=
  if 0 ≤ i ∧ i ≤ rf.log.length then .ok (rf.log.drop i.toNat) else .error { rf }

def logTo (rf : Raft n C D) (i : Int) : Except (Crash n C D) (List (LogEntry C)) :=
  if 0 ≤ i ∧ i ≤ rf.log.length then .ok (rf.log.take i.toNat) else .error { rf }

def becomeFollower (rf : Raft n C D) (term : Nat) : Raft n C D :=
  { rf with currentTerm := term, votedFor := none, state := .follower }

def countVotes (rf : Raft n C D) : Nat :=
  (List.finRange n).countP rf.votesReceived

def trimLogFrom (rf : Raft n C D) (absoluteIndex term : Nat) :
    Except (Crash n C D) (Raft n C D) := do
  let tail ← rf.logFrom (rf.absoluteIndexToLogIndex absoluteIndex + 1)
  return { rf with log := { term, command := none } :: tail }

def median (matchIndex : Fin n → Nat) : Nat :=
  let tmp := (List.ofFn matchIndex).insertionSort (· ≤ ·)
  tmp[(tmp.length - 1) / 2]?.getD 0

def updateCommitIndex (rf : Raft n C D) : Except (Crash n C D) (Raft n C D) := do
  let median := median rf.matchIndex
  let entry ← rf.logAt (rf.absoluteIndexToLogIndex median)
  return if entry.term = rf.currentTerm then { rf with commitIndex := median } else rf

-- State and persistence

def persist (rf : Raft n C D) : Persister n C D where
  snapshot  := rf.snapshot
  raftstate := some {
    currentTerm       := rf.currentTerm
    votedFor          := rf.votedFor
    log               := rf.log
    snapshotLastIndex := rf.snapshotLastIndex
    snapshotLastTerm  := rf.snapshotLastTerm }

def readPersist (rf : Raft n C D) : Option (RaftStateBytes n C) → Raft n C D
  | none => rf
  | some data => { rf with
      currentTerm       := data.currentTerm
      votedFor          := data.votedFor
      log               := data.log
      snapshotLastIndex := data.snapshotLastIndex
      snapshotLastTerm  := data.snapshotLastTerm
      lastApplied       := data.snapshotLastIndex
      commitIndex       := data.snapshotLastIndex }

def make (me : Fin n) (persister : Persister n C D) : Raft n C D :=
  let rf : Raft n C D := {
    me
    majorityThreshold := (n + 1) / 2
    votesReceived _   := false
    state             := .unset
    currentTerm       := 0
    votedFor          := none
    log               := [{ term := 0, command := none }]
    commitIndex       := 0
    lastApplied       := 0
    nextIndex _       := 0
    matchIndex _      := 0
    isSnapshotApplied := true
    snapshotLastIndex := 0
    snapshotLastTerm  := 0
    snapshot          := none }
  { rf.readPersist persister.raftstate with snapshot := persister.snapshot }

def makeSnapshot (rf : Raft n C D) (index : Nat) (snapshot : D) :
    Except (Crash n C D) (Raft n C D) :=
  if index ≤ rf.snapshotLastIndex then .ok rf else do
    let entry ← rf.logAt (rf.absoluteIndexToLogIndex index)
    let rf := { rf with snapshotLastTerm := entry.term, snapshot := some snapshot }
    let rf ← rf.trimLogFrom index rf.snapshotLastTerm
    return { rf with snapshotLastIndex := index }

end Raft
