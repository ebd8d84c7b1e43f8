import DistributedSystems.KvSrv
import DistributedSystems.Library.Behavior

-- The `Put` of the clerks of `kvsrv1`, `kvraft1` and `shardkv1`, over a network that may execute a
-- request long after its clerk has given up on it.
namespace KvSrv

-- What a clerk does until it needs the network again.
inductive Outcome (σ : Type)
  -- It calls `KVServer.Put` and goes on in the given state as soon as the call returns.
  | call (s : σ)
  | done (err : Err)
  | panic
  deriving DecidableEq

structure Clerk (σ ι : Type) where
  start    : Outcome σ
  -- A call that has failed has no reply. What else the clerk gets to know is an input.
  proceed  : σ → Option Err → ι → Outcome σ
  -- What the service may answer instead of an error of its map.
  refusals : List Err

structure PutArgs (K V : Type) where
  key     : K
  value   : V
  version : Nat

-- What has become of a request, with the entry of its key before and after its execution.
inductive Attempt (V : Type)
  | sent
  | executed (before after : Option (Data V)) (err : Err)
  | rejected

def Attempt.changes {V : Type} [DecidableEq V] : Attempt V → Bool
  | executed before after _ => before ≠ after
  | _                       => false

-- A call of a clerk's `Put`, the clerk waits for the last attempt.
structure Call (σ K V : Type) where
  args     : PutArgs K V
  attempts : List (Attempt V)
  outcome  : Outcome σ

namespace Call

variable {σ ι K V : Type}

inductive Event (ι : Type)
  | execute (k : Nat)
  -- The clerk receives the reply to its last attempt.
  | respond (i : ι)
  | lose (i : ι)
  -- The last attempt may be executed nevertheless.
  | wrongLeader (i : ι)
  | wrongGroup (i : ι)
  deriving DecidableEq

def follow (call : Call σ K V) (outcome : Outcome σ) : Call σ K V where
  args     := call.args
  attempts := match outcome with
    | .call _ => call.attempts ++ [.sent]
    | _       => call.attempts
  outcome  := outcome

def make (C : Clerk σ ι) (args : PutArgs K V) : Call σ K V :=
  follow ⟨args, [], C.start⟩ C.start

def set (call : Call σ K V) (k : Nat) (attempt : Attempt V) : Call σ K V :=
  { call with attempts := call.attempts.set k attempt }

def changes [DecidableEq V] (call : Call σ K V) : Nat :=
  call.attempts.countP Attempt.changes

variable [DecidableEq K]

def next (C : Clerk σ ι) (kv : KVServer K V) (call : Call σ K V) :
    Event ι → Option (KVServer K V × Call σ K V)
  | .execute k =>
    match call.attempts[k]? with
    | some .sent =>
      let (kv', err) := kv.put call.args.key call.args.value call.args.version
      some (kv', call.set k (.executed (kv call.args.key) (kv' call.args.key) err))
    | _ => none
  | .respond i =>
    match call.outcome, call.attempts.getLast? with
    | .call s, some (.executed _ _ err) => some (kv, call.follow (C.proceed s (some err) i))
    | _, _                              => none
  | .lose i =>
    match call.outcome with
    | .call s => some (kv, call.follow (C.proceed s none i))
    | _       => none
  | .wrongLeader i =>
    match call.outcome with
    | .call s =>
      if .errWrongLeader ∈ C.refusals then
        some (kv, call.follow (C.proceed s (some .errWrongLeader) i))
      else
        none
    | _ => none
  | .wrongGroup i =>
    match call.outcome, call.attempts.getLast? with
    | .call s, some .sent =>
      if .errWrongGroup ∈ C.refusals then
        let call := call.set (call.attempts.length - 1) .rejected
        some (kv, call.follow (C.proceed s (some .errWrongGroup) i))
      else
        none
    | _, _ => none

end Call

-- A call of `Put` among all the other clients of the service.
structure Service (σ K V : Type) where
  kv   : KVServer K V
  call : Option (Call σ K V)

namespace Service

variable {σ ι K V : Type} [DecidableEq K]

inductive Event (ι K V : Type)
  | put
  | call (e : Call.Event ι)
  -- Any other client.
  | other (args : PutArgs K V)

def next (C : Clerk σ ι) (args : PutArgs K V) (s : Service σ K V) :
    Event ι K V → Option (Service σ K V)
  | .put =>
    match s.call with
    | none   => some { s with call := some (.make C args) }
    | some _ => none
  | .call e => do
    let call ← s.call
    let (kv, call) ← call.next C s.kv e
    some ⟨kv, some call⟩
  | .other args => some { s with kv := (s.kv.put args.key args.value args.version).fst }

end Service

def service {σ ι K V : Type} [DecidableEq K] (C : Clerk σ ι) (args : PutArgs K V) :
    System (Service σ K V) (Service.Event ι K V) where
  init := ⟨fun _ => none, none⟩
  next := Service.next C args

-- The clerk of `kvsrv1`, its state is `isFirstTry`.
def clerk : Clerk Bool Unit where
  start := .call true
  proceed isFirstTry reply _ :=
    match reply with
    | none     => .call false
    | some err => .done (Clerk.err isFirstTry err)
  refusals := []

end KvSrv

namespace KvRaft

open KvSrv

structure Clerk (servers : Nat) where
  leader     : Fin servers
  isFirstTry : Bool

-- The leader is the one that the clerk's earlier calls have left.
def clerk (servers : Nat) (leader : Fin servers) : KvSrv.Clerk (Clerk servers) Unit where
  start := .call ⟨leader, true⟩
  proceed ck reply _ :=
    let retry := .call ⟨⟨(ck.leader + 1) % servers, Nat.mod_lt _ ck.leader.pos⟩, false⟩
    match reply with
    | none     => retry
    | some err => if err = .errWrongLeader then retry else .done (Clerk.err ck.isFirstTry err)
  refusals := [.errWrongLeader]

end KvRaft

-- The clerk of a shard group, as long as one call of its `loop` takes.
namespace Shardgrp

open KvSrv

structure Clerk where
  servers       : Nat
  leader        : Fin servers
  initialServer : Fin servers
  isFirstTry    : Bool
  -- `reply.Err`, which is empty at first and keeps its value if a call fails.
  reply         : Option Err

-- Without servers there is none to be called.
def makeClerk : Nat → Option Clerk
  | 0           => none
  | servers + 1 => some ⟨servers + 1, 0, 0, true, none⟩

-- What `Put` returns, it has no error after `ErrorNoResponse`.
abbrev Result :=
  Option Err

namespace Clerk

-- The context of `loop` may be done whenever it tries another server.
def select (ck : Clerk) (done : Bool) : Clerk ⊕ Result :=
  if done then .inr none else .inl ck

-- One round of `loop`. All methods of the clerk go through it, and read `reply` after it.
def loop (ck : Clerk) (answer : Option Err) (done : Bool) : Clerk ⊕ Result :=
  let reply  := answer.or ck.reply
  let leader := ⟨(ck.leader + 1) % ck.servers, Nat.mod_lt _ ck.leader.pos⟩
  if answer = none ∨ reply = some .errWrongLeader then
    if reply = some .errWrongLeader then
      select { ck with leader, initialServer := leader, isFirstTry := false, reply } done
    else if ck.initialServer = leader then
      .inr none
    else
      select { ck with leader, isFirstTry := false, reply } done
  else
    .inr reply

-- `Put` looks at the error once more.
def proceed (ck : Clerk) (answer : Option Err) (done : Bool) : Clerk ⊕ Result :=
  (ck.loop answer done).map id (·.map (Clerk.err ck.isFirstTry))

end Clerk
end Shardgrp

namespace ShardKv

open KvSrv

structure Clerk where
  isFirstTry       : Bool
  shardGroupClient : Shardgrp.Clerk

-- What happens besides the call: the context of `loop` is done, and the next query finds a group
-- with so many servers.
structure Clerk.Input where
  done    : Bool
  servers : Nat

-- One round of the loop of `Put`, until the first call.
def Clerk.begin (isFirstTry : Bool) (servers : Nat) : Outcome Clerk :=
  match Shardgrp.makeClerk servers with
  | none                  => .panic
  | some shardGroupClient => .call ⟨isFirstTry, shardGroupClient⟩

-- The number of servers is the one that the first query finds.
def clerk (servers : Nat) : KvSrv.Clerk Clerk Clerk.Input where
  start := Clerk.begin true servers
  proceed ck reply input :=
    match ck.shardGroupClient.proceed reply input.done with
    | .inl shardGroupClient       => .call { ck with shardGroupClient }
    | .inr none                   => Clerk.begin false input.servers
    | .inr (some .errWrongGroup)  => Clerk.begin false input.servers
    | .inr (some err)             => .done (Clerk.err ck.isFirstTry err)
  refusals := [.errWrongLeader, .errWrongGroup]

end ShardKv
