import DistributedSystems.Rsm.Basic

-- The replicated key/value server of `kvraft1`.
namespace KvRaft

open KvSrv

inductive Req (K V : Type)
  | put (key : K) (value : V) (version : Nat)
  | get (key : K)
  deriving DecidableEq

inductive Resp (V : Type)
  | put (err : Err)
  | get (reply : GetReply V)
  deriving DecidableEq

-- The map `keyValue`.
abbrev KVServer (K V : Type) :=
  K → Option (Data V)

variable {K V : Type}

namespace KVServer

def start : KVServer K V :=
  fun _ => none

def doOp [DecidableEq K] (kv : KVServer K V) : Req K V → KVServer K V × Resp V
  | .put key value version =>
    match kv key with
    | none =>
      if version ≠ 0 then
        (kv, .put .errNoKey)
      else
        (Function.update kv key (some ⟨version + 1, value⟩), .put .ok)
    | some data =>
      if version ≠ data.version then
        (kv, .put .errVersion)
      else
        (Function.update kv key (some ⟨version + 1, value⟩), .put .ok)
  | .get key =>
    match kv key with
    | none      => (kv, .get ⟨none, 0, .errNoKey⟩)
    | some data => (kv, .get ⟨data.value, data.version, .ok⟩)

-- The bytes of a snapshot are represented by the map that they encode.
def snapshot (kv : KVServer K V) : K → Option (Data V) :=
  kv

-- Decoding into the existing map only sets the keys of the snapshot.
def restore (kv : KVServer K V) (data : K → Option (Data V)) : KVServer K V :=
  fun key => (data key).or (kv key)

end KVServer

def stateMachine (K V : Type) [DecidableEq K] :
    Rsm.StateMachine (KVServer K V) (Req K V) (Resp V) (K → Option (Data V)) where
  init        := .start
  doOp kv req := some (kv.doOp req)
  snapshot    := KVServer.snapshot
  restore     := KVServer.restore

end KvRaft
