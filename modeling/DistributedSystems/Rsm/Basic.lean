import DistributedSystems.KvSrv
import DistributedSystems.Library.Behavior

-- The replicated state machines of package `rsm`, over a Raft of which only the order is known in
-- which it applies the operations.
namespace Rsm

open KvSrv

-- The interface `StateMachine`, together with its initial state. There is no result if the server
-- panics.
structure StateMachine (σ Req Res D : Type) where
  init     : σ
  doOp     : σ → Req → Option (σ × Res)
  snapshot : σ → D
  restore  : σ → D → σ

-- The messages that Raft sends to the RSM.
inductive ApplyMsg (Req D : Type)
  | command (req : Req) (index : Nat)
  | snapshot (data : D) (index : Nat)

def ApplyMsg.index {Req D : Type} : ApplyMsg Req D → Nat
  | command _ index | snapshot _ index => index

structure Op (P Req : Type) where
  req : Req
  id  : Nat
  me  : P
  deriving DecidableEq

structure Key (P : Type) where
  id    : Nat
  me    : P
  index : Nat
  deriving DecidableEq

-- The operation of one call of `Submit`. Operations of different incarnations of a server may be
-- equal, so the incarnation tells their calls apart. The code does not know it.
structure Call (P Req : Type) where
  op          : Op P Req
  incarnation : Nat
  deriving DecidableEq

-- A call of `Submit` that waits for its result.
structure Pending (P Req : Type) where
  op          : Op P Req
  index       : Nat
  initialTerm : Nat

-- Where the loop of `Read` is.
inductive Reader (P Req Res : Type)
  | receiving
  -- `applyCommand` has executed the operation.
  | executed (index : Nat) (call : Call P Req) (opResult : Res)
  -- It sends the result to the channel of the call with the given id.
  | delivering (id : Nat) (opResult : Res)

structure RSM (σ P Req Res : Type) where
  sm          : σ
  id          : Nat
  incarnation : Nat
  -- Each call of `Submit` makes one channel, which is named by the call's id here.
  results     : Key P → Option Nat
  channel     : Nat → Option Res
  pending     : Nat → Option (Pending P Req)
  reader      : Reader P Req Res
  lastApplied : Nat

-- What `Submit` has returned. Without a leader there is no index.
structure Return (P Req Res : Type) where
  call   : Call P Req
  index  : Option Nat
  err    : Err
  result : Option Res
  deriving DecidableEq

-- An execution of `DoOp` by `applyCommand`.
structure Application (σ P Req Res : Type) where
  server      : P
  incarnation : Nat
  index       : Nat
  call        : Call P Req
  before      : σ
  opResult    : Res

structure State (σ P Req Res : Type) where
  rsm      : P → RSM σ P Req Res
  -- All indices that `Start` has returned, with the operations for which it did.
  started  : List (Nat × Call P Req)
  -- The operations that all servers apply, the first one has index 1.
  sequence : List (Call P Req)
  returned : List (Return P Req Res)
  applied  : List (Application σ P Req Res)

inductive Event (P Req D : Type)
  -- A call of `Submit` runs until it waits for the first time. `Start` returns `start` if the
  -- server is a leader.
  | submit (p : P) (req : Req) (start : Option (Nat × Nat))
  | receive (p : P) (id : Nat)
  -- The 20 ms are over. `GetState` returns `currentTerm` and `isLeader`.
  | poll (p : P) (id : Nat) (currentTerm : Nat) (isLeader : Bool)
  -- The next operation to be applied is the one of the `k`-th entry of `started`.
  | commit (k : Nat)
  | execute (p : P)
  | lookup (p : P)
  | deliver (p : P)
  -- `Read` receives a snapshot.
  | restore (p : P) (index : Nat) (data : D)
  -- The server crashes and `MakeRSM` starts it again, with the snapshot of its persister.
  | restart (p : P) (index : Nat) (data : Option D)

variable {σ P Req Res D : Type}

namespace RSM

def constructKey (op : Op P Req) (index : Nat) : Key P where
  id    := op.id
  me    := op.me
  index := index

def make (sm : StateMachine σ Req Res D) (incarnation index : Nat) (data : Option D) :
    RSM σ P Req Res where
  sm          := data.elim sm.init (sm.restore sm.init)
  id          := 0
  incarnation := incarnation
  results _   := none
  channel _   := none
  pending _   := none
  reader      := .receiving
  lastApplied := index

def op (rsm : RSM σ P Req Res) (p : P) (req : Req) : Op P Req where
  req := req
  id  := rsm.id
  me  := p

variable [DecidableEq P]

-- `Submit` until it waits for its result.
def register (rsm : RSM σ P Req Res) (op : Op P Req) (index initialTerm : Nat) : RSM σ P Req Res :=
  { rsm with
    id      := rsm.id + 1
    results := Function.update rsm.results (constructKey op index) (some op.id)
    pending := Function.update rsm.pending op.id (some ⟨op, index, initialTerm⟩) }

-- `Submit` deletes its channel before it returns.
def unregister (rsm : RSM σ P Req Res) (w : Pending P Req) : RSM σ P Req Res :=
  { rsm with
    results := Function.update rsm.results (constructKey w.op w.index) none
    pending := Function.update rsm.pending w.op.id none }

end RSM

namespace State

def init (sm : StateMachine σ Req Res D) : State σ P Req Res where
  rsm _    := .make sm 0 0 none
  started  := []
  sequence := []
  returned := []
  applied  := []

variable [DecidableEq P]

def set (s : State σ P Req Res) (p : P) (rsm : RSM σ P Req Res) : State σ P Req Res :=
  { s with rsm := Function.update s.rsm p rsm }

def submit (s : State σ P Req Res) (p : P) (req : Req) : Option (Nat × Nat) → State σ P Req Res
  | none =>
    let call : Call P Req := ⟨(s.rsm p).op p req, (s.rsm p).incarnation⟩
    { s.set p { s.rsm p with id := (s.rsm p).id + 1 } with
      returned := ⟨call, none, .errWrongLeader, none⟩ :: s.returned }
  | some (index, initialTerm) =>
    let op := (s.rsm p).op p req
    { s.set p ((s.rsm p).register op index initialTerm) with
      started := (index, ⟨op, (s.rsm p).incarnation⟩) :: s.started }

-- A waiting call of `Submit` returns.
def respond (s : State σ P Req Res) (p : P) (w : Pending P Req) (err : Err) (result : Option Res) :
    State σ P Req Res :=
  { s.set p ((s.rsm p).unregister w) with
    returned := ⟨⟨w.op, (s.rsm p).incarnation⟩, w.index, err, result⟩ :: s.returned }

def next (sm : StateMachine σ Req Res D) (s : State σ P Req Res) :
    Event P Req D → Option (State σ P Req Res)
  | .submit p req start => some (s.submit p req start)
  | .receive p id => do
    let w ← (s.rsm p).pending id
    let result ← (s.rsm p).channel id
    let channel := Function.update (s.rsm p).channel id none
    some ((s.set p { s.rsm p with channel }).respond p w .ok (some result))
  | .poll p id currentTerm isLeader => do
    let w ← (s.rsm p).pending id
    if !isLeader ∨ w.initialTerm ≠ currentTerm then
      some (s.respond p w .errWrongLeader none)
    else
      some s
  | .commit k => do
    let (index, call) ← s.started[k]?
    if index = s.sequence.length + 1 then
      some { s with sequence := s.sequence ++ [call] }
    else
      none
  | .execute p =>
    match (s.rsm p).reader with
    | .receiving => do
      let index := (s.rsm p).lastApplied + 1
      let call ← s.sequence[(s.rsm p).lastApplied]?
      let (after, opResult) ← sm.doOp (s.rsm p).sm call.op.req
      let reader := .executed index call opResult
      let application := ⟨p, (s.rsm p).incarnation, index, call, (s.rsm p).sm, opResult⟩
      some { s.set p { s.rsm p with sm := after, reader, lastApplied := index } with
        applied := application :: s.applied }
    | _ => none
  | .lookup p =>
    match (s.rsm p).reader with
    | .executed index call opResult =>
      let reader :=
        match (s.rsm p).results (RSM.constructKey call.op index) with
        | some id => .delivering id opResult
        | none    => .receiving
      some (s.set p { s.rsm p with reader })
    | _ => none
  | .deliver p =>
    match (s.rsm p).reader with
    | .delivering id opResult =>
      match (s.rsm p).channel id with
      | none =>
        let channel := Function.update (s.rsm p).channel id (some opResult)
        some (s.set p { s.rsm p with channel, reader := .receiving })
      -- The channel has room for one result.
      | some _ => none
    | _ => none
  | .restore p index data =>
    match (s.rsm p).reader with
    | .receiving =>
      if (s.rsm p).lastApplied ≤ index ∧ index ≤ s.sequence.length then
        some (s.set p { s.rsm p with sm := sm.restore (s.rsm p).sm data, lastApplied := index })
      else
        none
    | _ => none
  | .restart p index data =>
    if index ≤ s.sequence.length then
      some (s.set p (.make sm ((s.rsm p).incarnation + 1) index data))
    else
      none

end State

def rsm (P : Type) [DecidableEq P] (sm : StateMachine σ Req Res D) :
    System (State σ P Req Res) (Event P Req D) where
  init := .init sm
  next := State.next sm

abbrev Execution (P : Type) [DecidableEq P] (sm : StateMachine σ Req Res D) :=
  (rsm P sm).Behavior

-- What the loop of `Read` makes of the state machine.
def StateMachine.read (sm : StateMachine σ Req Res D) (st : σ) : ApplyMsg Req D → Option σ
  | .command req _   => (sm.doOp st req).map Prod.fst
  | .snapshot data _ => some (sm.restore st data)

def StateMachine.replay (sm : StateMachine σ Req Res D) (log : List Req) : Option σ :=
  log.foldlM (fun st req => (sm.doOp st req).map Prod.fst) sm.init

-- A replica, with the index of the last message that it has processed.
structure Replica (σ : Type) where
  sm    : σ
  index : Nat

inductive Message
  | command
  -- The snapshot of another replica, which has executed the given number of operations.
  | snapshot (index : Nat)

-- The messages that Raft may send for a log after the message with the given index.
def Message.applyMsg (sm : StateMachine σ Req Res D) (log : List Req) (index : Nat) :
    Message → Option (ApplyMsg Req D)
  | command    => log[index]?.map (.command · (index + 1))
  | snapshot i =>
    if i ≤ log.length then
      (sm.replay (log.take i)).map fun st => .snapshot (sm.snapshot st) i
    else
      none

def replica (sm : StateMachine σ Req Res D) (log : List Req) : System (Replica σ) Message where
  init := ⟨sm.init, 0⟩
  next s m := do
    let msg ← m.applyMsg sm log s.index
    let st ← sm.read s.sm msg
    some ⟨st, msg.index⟩

end Rsm
