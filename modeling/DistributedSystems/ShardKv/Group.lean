import DistributedSystems.Rsm.Basic

-- The shards of package `shardcfg` and the servers of package `shardgrp`. A group is its replicated
-- state machine: it executes one request at a time.
namespace ShardKv

open KvSrv

-- `NShards` is 12.
abbrev Shard := Fin 12

instance neZero_twelve : NeZero 12 :=
  ⟨by decide⟩

-- The group `Gid1` has all shards in the beginning.
abbrev Gid := Int

def gid1 : Gid := 1

def numFirst : Nat := 1

class Sharded (K : Type) where
  key2Shard : K → Shard

-- The keys of the source are strings, which are sequences of bytes in Go. They are distributed by
-- their FNV-1a hash.
instance : Sharded (List UInt8) where
  key2Shard key :=
    let sum32 := key.foldl (fun (h : UInt32) c => (h ^^^ c.toUInt32) * 16777619) 2166136261
    ⟨sum32.toNat % 12, Nat.mod_lt _ (by decide)⟩

inductive ShardState
  | dontOwnState
  | frozenState
  | workingState
  deriving DecidableEq

structure Config where
  state         : ShardState
  configVersion : Nat
  deriving DecidableEq

-- The contents of a `map[string]Data` that is not nil.
abbrev Table (K V : Type) :=
  K → Option (Data V)

def Table.empty {K V : Type} : Table K V :=
  fun _ => none

structure KVServer (K V : Type) where
  shardConfiguration : Shard → Option Config
  -- An inner `none` is a nil map.
  keyValue           : Shard → Option (Option (Table K V))

-- The state of an `installShard` are the bytes of an encoded map or, as `none`, no bytes at all.
inductive Req (K V : Type)
  | put (key : K) (value : V) (version : Nat)
  | get (key : K)
  | freezeShard (shardId : Shard) (configVersion : Nat)
  | installShard (shardId : Shard) (state : Option (Table K V)) (configVersion : Nat)
  | deleteShard (shardId : Shard) (configVersion : Nat)

inductive Resp (K V : Type)
  | put (err : Err)
  | get (reply : GetReply V)
  | freezeShard (state : Option (Table K V)) (num : Nat) (err : Err)
  | installShard (err : Err)
  | deleteShard (err : Err)

variable {K V : Type}

namespace Req

def isClient : Req K V → Bool
  | put .. | get _ => true
  | _              => false

end Req

namespace Resp

def err : Resp K V → Err
  | put err | freezeShard _ _ err | installShard err | deleteShard err => err
  | get reply => reply.err

end Resp

namespace KVServer

def start (gid : Gid) : KVServer K V where
  shardConfiguration _ := if gid = gid1 then some ⟨.workingState, numFirst⟩ else none
  keyValue _           := none

-- Looking up a missing key of a Go map yields the zero value.
def config (kv : KVServer K V) (shardId : Shard) : Config :=
  (kv.shardConfiguration shardId).getD ⟨.dontOwnState, 0⟩

def setConfig (kv : KVServer K V) (shardId : Shard) (config : Config) : KVServer K V :=
  { kv with shardConfiguration := Function.update kv.shardConfiguration shardId (some config) }

def setMap (kv : KVServer K V) (shardId : Shard) (shardMap : Option (Table K V)) : KVServer K V :=
  { kv with keyValue := Function.update kv.keyValue shardId (some shardMap) }

-- Whether the group rejects the clients' requests for the shard.
def rejects (kv : KVServer K V) (shardId : Shard) : Bool :=
  (kv.config shardId).state = .dontOwnState ∨ (kv.config shardId).state = .frozenState

-- Writing to a nil map panics.
def assign [DecidableEq K] (kv : KVServer K V) (shardId : Shard) (shardMap : Option (Table K V))
    (key : K) (data : Data V) :
    Option (KVServer K V) :=
  shardMap.map fun m => kv.setMap shardId (some (Function.update m key (some data)))

variable [DecidableEq K] [Sharded K]

open Sharded

def doPut (kv : KVServer K V) (key : K) (value : V) (version : Nat) :
    Option (KVServer K V × Resp K V) :=
  let shardId := key2Shard key
  if kv.rejects shardId then
    some (kv, .put .errWrongGroup)
  else
    -- A missing inner map is made before the version is looked at.
    let shardMap := (kv.keyValue shardId).getD (some .empty)
    let kv := kv.setMap shardId shardMap
    match shardMap.bind (· key) with
    | none =>
      if version ≠ 0 then
        some (kv, .put .errNoKey)
      else
        (kv.assign shardId shardMap key ⟨version + 1, value⟩).map (·, .put .ok)
    | some data =>
      if version ≠ data.version then
        some (kv, .put .errVersion)
      else
        (kv.assign shardId shardMap key ⟨version + 1, value⟩).map (·, .put .ok)

def doGet (kv : KVServer K V) (key : K) : Resp K V :=
  let shardId := key2Shard key
  if kv.rejects shardId then
    .get ⟨none, 0, .errWrongGroup⟩
  else
    match kv.keyValue shardId with
    | none          => .get ⟨none, 0, .errNoKey⟩
    | some shardMap =>
      match shardMap.bind (· key) with
      | none      => .get ⟨none, 0, .errNoKey⟩
      | some data => .get ⟨data.value, data.version, .ok⟩

-- The state that is handed out are the bytes of the encoded map. A nil map is encoded like an empty
-- one.
def doFreezeShard (kv : KVServer K V) (shardId : Shard) (configVersion : Nat) :
    KVServer K V × Resp K V :=
  let config := kv.config shardId
  if config.configVersion > configVersion then
    (kv, .freezeShard none config.configVersion .errVersion)
  else if config.state = .dontOwnState then
    (kv, .freezeShard none config.configVersion .errVersion)
  else
    let state := ((kv.keyValue shardId).getD none).getD .empty
    (kv.setConfig shardId ⟨.frozenState, configVersion⟩,
      .freezeShard (some state) configVersion .ok)

-- The result of decoding is not checked: without any bytes the map stays nil.
def doInstallShard (kv : KVServer K V) (shardId : Shard) (state : Option (Table K V))
    (configVersion : Nat) : KVServer K V × Resp K V :=
  if (kv.config shardId).configVersion ≥ configVersion then
    (kv, .installShard .errVersion)
  else
    ((kv.setConfig shardId ⟨.workingState, configVersion⟩).setMap shardId state, .installShard .ok)

def doDeleteShard (kv : KVServer K V) (shardId : Shard) (configVersion : Nat) :
    KVServer K V × Resp K V :=
  if (kv.config shardId).configVersion > configVersion then
    (kv, .deleteShard .errVersion)
  else
    let kv := kv.setConfig shardId ⟨.dontOwnState, configVersion⟩
    ({ kv with keyValue := Function.update kv.keyValue shardId none }, .deleteShard .ok)

-- There is no result if the replicas panic.
def doOp (kv : KVServer K V) : Req K V → Option (KVServer K V × Resp K V)
  | .put key value version               => kv.doPut key value version
  | .get key                             => some (kv, kv.doGet key)
  | .freezeShard shardId configVersion   => some (kv.doFreezeShard shardId configVersion)
  | .installShard shardId state configVersion =>
    some (kv.doInstallShard shardId state configVersion)
  | .deleteShard shardId configVersion   => some (kv.doDeleteShard shardId configVersion)

omit [DecidableEq K] [Sharded K]

-- The contents of the maps of maps. A nil map has the contents of an empty one.
def tables (kv : KVServer K V) (shardId : Shard) : Option (Table K V) :=
  (kv.keyValue shardId).map (·.getD .empty)

-- The bytes of a snapshot are represented by the maps that they encode. A nil map is encoded like
-- an empty one.
def snapshot (kv : KVServer K V) : (Shard → Option (Table K V)) × (Shard → Option Config) :=
  (kv.tables, kv.shardConfiguration)

-- Decoding into the existing maps only sets the keys of the snapshot.
def restore (kv : KVServer K V) (data : (Shard → Option (Table K V)) × (Shard → Option Config)) :
    KVServer K V where
  keyValue shardId           := ((data.fst shardId).map some).or (kv.keyValue shardId)
  shardConfiguration shardId := (data.snd shardId).or (kv.shardConfiguration shardId)

end KVServer

def stateMachine (K V : Type) [DecidableEq K] [Sharded K] (gid : Gid) :
    Rsm.StateMachine (KVServer K V) (Req K V) (Resp K V)
      ((Shard → Option (Table K V)) × (Shard → Option Config)) where
  init     := .start gid
  doOp     := KVServer.doOp
  snapshot := KVServer.snapshot
  restore  := KVServer.restore

end ShardKv
