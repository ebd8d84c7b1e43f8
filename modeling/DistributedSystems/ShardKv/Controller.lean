import DistributedSystems.Library.Behavior
import DistributedSystems.ShardKv.Lease
import DistributedSystems.Shardcfg.Basic

-- The controllers of package `shardctrler`, the servers that they use, and all of them together.
namespace ShardKv

open KvSrv

-- The number of a configuration is not negative, since the first one is `NumFirst` and the tester
-- counts up from there.
def ShardConfig :=
  { cfg : Shardcfg.ShardConfig // 0 ≤ cfg.num }

namespace ShardConfig

instance : DecidableEq ShardConfig :=
  inferInstanceAs (DecidableEq { cfg : Shardcfg.ShardConfig // 0 ≤ cfg.num })

def num (cfg : ShardConfig) : Nat :=
  cfg.val.num.toNat

def shards (cfg : ShardConfig) : Shard → Gid :=
  cfg.val.shards

-- The servers of the group that has the shard.
def servers (cfg : ShardConfig) (shardId : Shard) : List String :=
  (cfg.val.groups.lookup (cfg.shards shardId)).getD []

-- What `setupKVService` calls `InitConfig` with.
def first : ShardConfig where
  val := {
    num      := numFirst
    shards _ := gid1
    groups   := .singleton gid1 ["server-1-0", "server-1-1", "server-1-2"] }
  property := by decide

end ShardConfig

-- A change of configuration, as a controller found it after it had acquired the lock.
structure Job where
  oldCfg : ShardConfig
  newCfg : ShardConfig
  deriving DecidableEq

-- The three loops of `moveShardToGroup`.
inductive Move (K V : Type)
  | freezeShard
  | installShard (shardState : Option (Table K V))
  | deleteShard

-- Where `acquireLock` is called from.
inductive Caller (K V : Type)
  -- At the start of `changeConfiguration`.
  | changeConfiguration
  -- From one of the loops of `moveShardToGroup`, after `ErrorNoResponse`.
  | moveShardToGroup (job : Job) (shardId : Shard) (move : Move K V)
  -- After each shard. Whether the shard has been moved is not known to the controller, it forgets
  -- that `moveShardToGroup` has given up.
  | nextShard (job : Job) (shardId : Shard) (moved : Bool)

-- The next RPC of a controller.
inductive Pc (K V : Type)
  | idle
  | saveApplyConfigGet (new : ShardConfig)
  | saveApplyConfigPut (new : ShardConfig) (saveConfigVersion : Nat)
  | acquireLockPut (caller : Caller K V)
  | acquireLockGet (caller : Caller K V)
  | query
  | getConfigToApply (oldCfg : ShardConfig)
  | moveShardToGroup (job : Job) (shardId : Shard) (move : Move K V)
  | publishQuery (newCfg : ShardConfig)
  | publishPut (newCfg : ShardConfig)
  | releaseLock

structure ShardCtrler (K V : Type) extends Lease.Fields where
  currentVersion : Nat
  -- Whether the clerk has not had to resend the current `Put`.
  isFirstTry     : Bool
  pc             : Pc K V

-- The RPCs. In place of a lock's value, `none` is `LockAvailable`.
inductive Rpc (K V Id : Type)
  | getConfig
  | putConfig (cfg : ShardConfig) (version : Nat)
  | getApplyConfig
  | putApplyConfig (cfg : ShardConfig) (version : Nat)
  | getLock
  | putLock (value : Option Id) (version : Nat)
  | group (gid : Gid) (req : Req K V)

inductive Reply (K V Id : Type)
  | config (data : Data ShardConfig)
  | lock (entry : Option (Data (Option Id)))
  | put (err : Err)
  | group (resp : Resp K V)

variable {K V Id : Type}

namespace Job

-- The group that a move turns to.
def gid (job : Job) (shardId : Shard) : Move K V → Gid
  | .freezeShard | .deleteShard => job.oldCfg.shards shardId
  | .installShard _             => job.newCfg.shards shardId

def req (job : Job) (shardId : Shard) : Move K V → Req K V
  | .freezeShard             => .freezeShard shardId job.newCfg.num
  | .installShard shardState => .installShard shardId shardState job.newCfg.num
  | .deleteShard             => .deleteShard shardId job.newCfg.num

-- The clerk of a group without servers panics.
def hasServers (job : Job) (shardId : Shard) : Move K V → Bool
  | .freezeShard | .deleteShard => job.oldCfg.servers shardId ≠ []
  | .installShard _             => job.newCfg.servers shardId ≠ []

-- The body of the loop over the shards.
def enter (job : Job) (shardId : Shard) : Pc K V :=
  if job.oldCfg.shards shardId ≠ job.newCfg.shards shardId then
    .moveShardToGroup job shardId .freezeShard
  else
    .acquireLockPut (.nextShard job shardId true)

def next (job : Job) (shardId : Shard) : Pc K V :=
  if h : shardId.val + 1 < 12 then job.enter ⟨shardId + 1, h⟩ else .publishQuery job.newCfg

end Job

namespace ShardCtrler

def make : ShardCtrler K V where
  currentVersion := 0
  lockVersion    := 0
  wasLeader      := false
  isFirstTry     := true
  pc             := .idle

def initController (sck : ShardCtrler K V) : ShardCtrler K V :=
  { sck with pc := .acquireLockPut .changeConfiguration }

def changeConfigTo (sck : ShardCtrler K V) (new : ShardConfig) : ShardCtrler K V :=
  { sck with pc := .saveApplyConfigGet new }

-- `acquireLock` returns `true, true`.
def acquired (sck : ShardCtrler K V) (lockVersion : Nat) (caller : Caller K V) : ShardCtrler K V :=
  let pc :=
    match caller with
    | .changeConfiguration                => .query
    | .moveShardToGroup job shardId move  => .moveShardToGroup job shardId move
    | .nextShard job shardId _            => job.next shardId
  { sck with lockVersion, wasLeader := true, pc }

-- `acquireLock` returns `false, canGetLeadership`.
def denied (sck : ShardCtrler K V) (canGetLeadership : Bool) (caller : Caller K V) :
    ShardCtrler K V :=
  let pc :=
    match caller with
    | .changeConfiguration =>
      if canGetLeadership then .acquireLockPut .changeConfiguration else .idle
    | .moveShardToGroup job shardId _ => .acquireLockPut (.nextShard job shardId false)
    | .nextShard ..                   => .releaseLock
  { sck with pc }

-- There is no RPC if the controller is idle or has panicked.
def rpc (sck : ShardCtrler K V) (id : Id) : Option (Rpc K V Id) :=
  match sck.pc with
  | .idle                           => none
  | .saveApplyConfigGet _           => some .getApplyConfig
  | .saveApplyConfigPut new version => some (.putApplyConfig new version)
  | .acquireLockPut _               => some (.putLock (some id) sck.lockVersion)
  | .acquireLockGet _               => some .getLock
  | .query                          => some .getConfig
  | .getConfigToApply _             => some .getApplyConfig
  | .moveShardToGroup job shardId move =>
    if job.hasServers shardId move then
      some (.group (job.gid shardId move) (job.req shardId move))
    else
      none
  | .publishQuery _                 => some .getConfig
  | .publishPut newCfg              => some (.putConfig newCfg sck.currentVersion)
  | .releaseLock                    => some (.putLock none sck.lockVersion)

-- `acquireLock` goes on.
def acquire (sck : ShardCtrler K V) (caller : Caller K V) :
    Lease.Fields × Lease.Turn → ShardCtrler K V
  | (fields, .put)                     =>
    { sck with toFields := fields, pc := .acquireLockPut caller }
  | (fields, .get)                     =>
    { sck with toFields := fields, pc := .acquireLockGet caller }
  | (fields, .acquired)                =>
    { sck with toFields := fields }.acquired fields.lockVersion caller
  | (fields, .denied canGetLeadership) =>
    { sck with toFields := fields }.denied canGetLeadership caller

def receiveLockPut (sck : ShardCtrler K V) (caller : Caller K V) (err : Err) : ShardCtrler K V :=
  sck.acquire caller (sck.toFields.acquirePut (Clerk.err sck.isFirstTry err))

-- If there is no lock yet, then its version is zero.
def receiveLockGet [DecidableEq Id] (sck : ShardCtrler K V) (id : Id) (caller : Caller K V)
    (entry : Option (Data (Option Id))) : ShardCtrler K V :=
  sck.acquire caller <|
    sck.toFields.acquireGet (some (some id)) (some none) (entry.map Data.value)
      (entry.elim 0 Data.version)

-- The controller continues until its next RPC.
def receive [DecidableEq Id] (sck : ShardCtrler K V) (id : Id) (reply : Reply K V Id) :
    ShardCtrler K V :=
  match sck.pc, reply with
  | .saveApplyConfigGet new, .config saved =>
    if saved.value.num ≥ new.num then
      { sck with pc := .acquireLockPut .changeConfiguration }
    else
      { sck with pc := .saveApplyConfigPut new saved.version }
  | .saveApplyConfigPut new _, .put err =>
    if Clerk.err sck.isFirstTry err = .ok then
      { sck with pc := .acquireLockPut .changeConfiguration }
    else
      { sck with pc := .saveApplyConfigGet new }
  | .acquireLockPut caller, .put err =>
    sck.receiveLockPut caller err
  | .acquireLockGet caller, .lock entry =>
    sck.receiveLockGet id caller entry
  | .query, .config oldCfg =>
    { sck with currentVersion := oldCfg.version, pc := .getConfigToApply oldCfg.value }
  | .getConfigToApply oldCfg, .config newCfg =>
    let pc := if oldCfg.num ≥ newCfg.value.num then .releaseLock
      else Job.enter ⟨oldCfg, newCfg.value⟩ 0
    { sck with currentVersion := newCfg.version, pc }
  -- The errors of a group are not looked at, except that there was no response.
  | .moveShardToGroup job shardId .freezeShard, .group (.freezeShard state _ _) =>
    { sck with pc := .moveShardToGroup job shardId (.installShard state) }
  | .moveShardToGroup job shardId (.installShard _), .group _ =>
    { sck with pc := .moveShardToGroup job shardId .deleteShard }
  | .moveShardToGroup job shardId .deleteShard, .group _ =>
    { sck with pc := .acquireLockPut (.nextShard job shardId true) }
  | .publishQuery newCfg, .config current =>
    let pc := if current.value.num ≥ newCfg.num then .releaseLock else .publishPut newCfg
    { sck with currentVersion := current.version, pc }
  | .publishPut newCfg, .put err =>
    if Clerk.err sck.isFirstTry err = .ok then
      { sck with currentVersion := sck.currentVersion + 1, pc := .releaseLock }
    else
      { sck with pc := .publishQuery newCfg }
  | .releaseLock, .put _ =>
    { sck with lockVersion := sck.lockVersion + 1, pc := .idle }
  | _, _ => sck

end ShardCtrler

-- The groups, and the keys `Config`, `ApplyConfig` and `Lock` of the `kvsrv`.
structure Servers (K V Id : Type) where
  group       : Gid → KVServer K V
  config      : Data ShardConfig
  applyConfig : Data ShardConfig
  lock        : Option (Data (Option Id))

namespace Servers

-- After `InitConfig`.
def init : Servers K V Id where
  group       := .start
  config      := ⟨1, .first⟩
  applyConfig := ⟨1, .first⟩
  lock        := none

variable [DecidableEq K] [Sharded K]

def doOp (sv : Servers K V Id) (gid : Gid) (req : Req K V) : Option (Servers K V Id × Resp K V) :=
  ((sv.group gid).doOp req).map fun (kv, resp) =>
    ({ sv with group := Function.update sv.group gid kv }, resp)

def serve (sv : Servers K V Id) : Rpc K V Id → Option (Servers K V Id × Reply K V Id)
  | .getConfig => some (sv, .config sv.config)
  | .putConfig cfg version =>
    let (config, err) := sv.config.put cfg version
    some ({ sv with config }, .put err)
  | .getApplyConfig => some (sv, .config sv.applyConfig)
  | .putApplyConfig cfg version =>
    let (applyConfig, err) := sv.applyConfig.put cfg version
    some ({ sv with applyConfig }, .put err)
  | .getLock => some (sv, .lock sv.lock)
  | .putLock value version =>
    let (lock, err) := KvSrv.put sv.lock value version
    some ({ sv with lock }, .put err)
  | .group gid req => (sv.doOp gid req).map fun (sv, resp) => (sv, .group resp)

end Servers

structure State (K V Id : Type) where
  servers : Servers K V Id
  ctrler  : Id → ShardCtrler K V
  -- All requests that a controller has sent to a group.
  sent    : List (Id × Gid × Req K V)
  -- The numbers of the configurations that have been returned by `Query`.
  queried : List Nat

inductive Event (K V Id : Type)
  | initController (c : Id)
  | changeConfigTo (c : Id) (new : ShardConfig)
  | query
  -- The next RPC of a controller is executed, and
  -- the controller receives the reply.
  | rpc (c : Id)
  -- the reply is lost, so that the clerk sends the request again.
  | lost (c : Id)
  -- The next RPC of a controller is lost, so that the clerk sends it again.
  | dropped (c : Id)
  -- The clerk of a group gives up.
  | noResponse (c : Id)
  -- A request to a group is executed, again or for the first time, when its sender does not wait
  -- for the reply any more.
  | late (k : Nat)
  | client (gid : Gid) (req : Req K V)

namespace State

def init : State K V Id where
  servers  := .init
  ctrler _ := .make
  sent     := []
  queried  := []

variable [DecidableEq K] [DecidableEq Id] [Sharded K]

def setCtrler (s : State K V Id) (c : Id) (sck : ShardCtrler K V) : State K V Id :=
  { s with ctrler := Function.update s.ctrler c sck }

-- A controller that is not `idle` is still busy with its previous call.
def begin (s : State K V Id) (c : Id) (sck : ShardCtrler K V) : Option (State K V Id) :=
  match (s.ctrler c).pc with
  | .idle => some (s.setCtrler c sck)
  | _     => none

def send (s : State K V Id) (c : Id) : Rpc K V Id → State K V Id
  | .group gid req => { s with sent := (c, gid, req) :: s.sent }
  | _              => s

def resend (s : State K V Id) (c : Id) : State K V Id :=
  s.setCtrler c { s.ctrler c with isFirstTry := false }

def next (s : State K V Id) : Event K V Id → Option (State K V Id)
  | .initController c => s.begin c (s.ctrler c).initController
  | .changeConfigTo c new =>
    if ∃ n ∈ s.queried, new.num = n + 1 then s.begin c ((s.ctrler c).changeConfigTo new) else none
  | .query => some { s with queried := s.servers.config.value.num :: s.queried }
  | .rpc c => do
    let rpc ← (s.ctrler c).rpc c
    let (servers, reply) ← s.servers.serve rpc
    let sck := (s.ctrler c).receive c reply
    some ({ s with servers }.send c rpc |>.setCtrler c { sck with isFirstTry := true })
  | .lost c => do
    let rpc ← (s.ctrler c).rpc c
    let (servers, _) ← s.servers.serve rpc
    some ({ s with servers }.send c rpc |>.resend c)
  | .dropped c => do
    let _ ← (s.ctrler c).rpc c
    some (s.resend c)
  | .noResponse c =>
    match (s.ctrler c).pc, (s.ctrler c).rpc c with
    | .moveShardToGroup job shardId move, some rpc =>
      let pc := .acquireLockPut (.moveShardToGroup job shardId move)
      some (s.send c rpc |>.setCtrler c { s.ctrler c with pc, isFirstTry := true })
    | _, _ => none
  | .late k => do
    let (_, gid, req) ← s.sent[k]?
    let (servers, _) ← s.servers.doOp gid req
    some { s with servers }
  | .client gid req =>
    if req.isClient then
      (s.servers.doOp gid req).map fun (servers, _) => { s with servers }
    else
      none

end State

def shardKv (K V Id : Type) [DecidableEq K] [DecidableEq Id] [Sharded K] :
    System (State K V Id) (Event K V Id) where
  init := .init
  next := State.next

abbrev Execution (K V Id : Type) [DecidableEq K] [DecidableEq Id] [Sharded K] :=
  (shardKv K V Id).Behavior

end ShardKv
