import DistributedSystems.Raft.Cluster
import DistributedSystems.Rsm.Basic

-- The replicated state machines of package `rsm`, each one on top of its peer of package `raft1`.

open Rsm (StateMachine)

structure Replicated (n : Nat) (σ Req Res D : Type) where
  raft      : Cluster n (Rsm.Call (Fin n) Req) D
  -- The operations in `sequence` are those that have been read by some server.
  rsm       : Rsm.State σ (Fin n) Req Res
  -- What has been passed to `Snapshot`.
  snapshots : List (Nat × D)

namespace Replicated

inductive Action (n : Nat) (Req D : Type)
  | submit (p : Fin n) (req : Req)
  | receive (p : Fin n) (id : Nat)
  | poll (p : Fin n) (id : Nat)
  -- `Read` takes a message from `applyCh`.
  | read (p : Fin n)
  | lookup (p : Fin n)
  | deliver (p : Fin n)
  -- `PersistBytes` has reached `maxraftstate`.
  | maybeSnapshot (p : Fin n)
  -- What Raft does on its own. This includes crashes of the server.
  | raft (e : Event n (Rsm.Call (Fin n) Req) D)

variable {n : Nat} {σ Req Res D : Type}

-- The servers that have crashed are made again by `MakeRSM`.
def follow (sm : StateMachine σ Req Res D) (s : Replicated n σ Req Res D)
    (raft : Cluster n (Rsm.Call (Fin n) Req) D) : Replicated n σ Req Res D :=
  let rsm p :=
    if (raft.node p).incarnation = (s.raft.node p).incarnation then s.rsm.rsm p else
    .make sm (raft.node p).incarnation (raft.node p).rf.snapshotLastIndex
      (raft.node p).persister.snapshot
  { s with raft, rsm := { s.rsm with rsm } }

def submit (sm : StateMachine σ Req Res D) (s : Replicated n σ Req Res D) (p : Fin n) (req : Req) :
    Replicated n σ Req Res D :=
  let call : Rsm.Call (Fin n) Req := ⟨(s.rsm.rsm p).op p req, (s.rsm.rsm p).incarnation⟩
  match (s.raft.node p).rf.start call with
  | .ok (_, _, index, initialTerm, isLeader) =>
    let start := if isLeader then some (index, initialTerm) else none
    { s with raft := s.raft.start p call, rsm := s.rsm.submit p req start }
  | .error _ => s.follow sm (s.raft.start p call)

-- One round of the loop of `Read`, up to the lookup of the channel. There is no result if it
-- panics.
def read (sm : StateMachine σ Req Res D) (s : Rsm.State σ (Fin n) Req Res) (p : Fin n) :
    ApplyMsg (Rsm.Call (Fin n) Req) D → Option (Rsm.State σ (Fin n) Req Res)
  | .command (some call) index => do
    let (after, opResult) ← sm.doOp (s.rsm p).sm call.op.req
    let reader := .executed index call opResult
    let application := ⟨p, (s.rsm p).incarnation, index, call, (s.rsm p).sm, opResult⟩
    let sequence := if index = s.sequence.length + 1 then s.sequence ++ [call] else s.sequence
    some { s.set p { s.rsm p with sm := after, reader, lastApplied := index } with
      sequence, applied := application :: s.applied }
  | .snapshot (some data) _ index =>
    some (s.set p { s.rsm p with sm := sm.restore (s.rsm p).sm data, lastApplied := index })
  | _ => none

variable [DecidableEq Req] [DecidableEq D]

def next (sm : StateMachine σ Req Res D) (s : Replicated n σ Req Res D) :
    Action n Req D → Option (Replicated n σ Req Res D)
  | .submit p req => some (s.submit sm p req)
  | .receive p id => (s.rsm.next sm (.receive p id)).map fun rsm => { s with rsm }
  -- The call of `GetState`.
  | .poll p id =>
    let rf := (s.raft.node p).rf
    (s.rsm.next sm (.poll p id rf.currentTerm (rf.state = .leader))).map fun rsm => { s with rsm }
  | .read p =>
    match (s.rsm.rsm p).reader, (s.raft.node p).applier with
    | .receiving, .offering msg =>
      match read sm s.rsm p msg with
      | some rsm => (s.raft.receive p).map fun raft => { s with raft, rsm }
      | none     => some (s.follow sm (s.raft.restart p))
    | _, _ => none
  | .lookup p  => (s.rsm.next sm (.lookup p)).map fun rsm => { s with rsm }
  | .deliver p => (s.rsm.next sm (.deliver p)).map fun rsm => { s with rsm }
  | .maybeSnapshot p =>
    match (s.rsm.rsm p).reader with
    | .receiving =>
      let smSnapshot := sm.snapshot (s.rsm.rsm p).sm
      (s.raft.snapshot p smSnapshot).map fun raft =>
        { s.follow sm raft with
          snapshots := s.snapshots ++ [((s.rsm.rsm p).lastApplied, smSnapshot)] }
    | _ => none
  | .raft (.start ..) | .raft (.snapshot ..) | .raft (.receive _) => none
  | .raft e => (s.raft.next e).map (s.follow sm)

end Replicated

def replicated (n : Nat) {σ Req Res D : Type} [DecidableEq Req] [DecidableEq D]
    (sm : StateMachine σ Req Res D) :
    System (Replicated n σ Req Res D) (Replicated.Action n Req D) where
  init := ⟨.init n _ D, .init sm, []⟩
  next := Replicated.next sm
