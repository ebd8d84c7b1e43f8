import DistributedSystems.Clerk.Basic

-- `acquireLock` and `releaseLock` of package `shardctrler`, by which the controllers take turns,
-- request by request.
namespace Lease

open KvSrv

def lockKey : String :=
  "Lock"

def lockAvailable : String :=
  "Available"

inductive Method
  | acquireLock
  | releaseLock
  deriving DecidableEq

-- What the method puts under the key of the lock.
def Method.value (id : String) : Method → String
  | acquireLock => id
  | releaseLock => lockAvailable

-- Where a controller is.
inductive Phase
  | idle
  -- The method waits for its call of `Put`.
  | put (method : Method) (call : Call Bool String String)
  -- `acquireLock` waits for its call of `Get`, the last request may have been executed.
  | get (reply : Option (GetReply String))

-- The fields of a `ShardCtrler` that have to do with the lock.
structure Fields where
  lockVersion : Nat
  wasLeader   : Bool

-- What `acquireLock` does next.
inductive Turn
  | put
  | get
  -- It returns `true, true`.
  | acquired
  -- It returns `false, canGetLeadership`.
  | denied (canGetLeadership : Bool)

-- The switch over the error of `Put`.
def Fields.acquirePut (sck : Fields) : Err → Fields × Turn
  | .ok                     => (⟨sck.lockVersion + 1, true⟩, .acquired)
  | .errVersion | .errMaybe => (sck, .get)
  | _                       => (sck, .put)

-- The switch over the state that `Get` has found.
def Fields.acquireGet {σ : Type} [DecidableEq σ] (sck : Fields) (id available state : σ)
    (version : Nat) : Fields × Turn :=
  if state = id then
    (⟨version + 1, true⟩, .acquired)
  else if state = available then
    if sck.wasLeader then (sck, .denied false) else ({ sck with lockVersion := version }, .put)
  else if sck.wasLeader then
    (sck, .denied false)
  else
    ({ sck with lockVersion := version }, .denied true)

end Lease

open KvSrv Lease

-- A `ShardCtrler`, as far as the lock is concerned.
structure Lease extends Fields where
  phase    : Phase
  -- What the last call of `acquireLock` has returned.
  returned : Option (Bool × Bool)
  -- Requests of calls that have returned, they may still be executed.
  stale    : List (PutArgs String String)

namespace Lease

def make : Lease where
  lockVersion := 0
  wasLeader   := false
  phase       := .idle
  returned    := none
  stale       := []

def put (sck : Lease) (id : String) (method : Method) : Lease :=
  { sck with phase := .put method (.make clerk ⟨lockKey, method.value id, sck.lockVersion⟩) }

def returns (sck : Lease) (isAcquiredLock canGetLeadership : Bool) : Lease :=
  { sck with phase := .idle, returned := some (isAcquiredLock, canGetLeadership) }

-- `acquireLock` goes on.
def acquire (sck : Lease) (id : String) : Fields × Turn → Lease
  | (fields, .put)                     => { sck with toFields := fields }.put id .acquireLock
  | (fields, .get)                     => { sck with toFields := fields, phase := .get none }
  | (fields, .acquired)                => { sck with toFields := fields }.returns true true
  | (fields, .denied canGetLeadership) =>
    { sck with toFields := fields }.returns false canGetLeadership

def acquirePut (sck : Lease) (id : String) (err : Err) : Lease :=
  sck.acquire id (sck.toFields.acquirePut err)

-- Without a key the state is empty.
def acquireGet (sck : Lease) (id : String) (reply : GetReply String) : Lease :=
  sck.acquire id (sck.toFields.acquireGet id lockAvailable (reply.value.getD "") reply.version)

def released (sck : Lease) : Lease :=
  { sck with lockVersion := sck.lockVersion + 1, phase := .idle }

def proceed (sck : Lease) (id : String) (err : Err) : Method → Lease
  | .acquireLock => sck.acquirePut id err
  | .releaseLock => sck.released

end Lease

-- The controllers and the server that they share.
structure Leases (ι : Type) where
  kv     : KVServer String String
  ctrler : ι → Lease

namespace Leases

inductive Event (ι : Type)
  | call (p : ι) (method : Method)
  -- What happens to the current call of `Put`.
  | put (p : ι) (e : Call.Event Unit)
  -- The current call of `Put` has returned.
  | proceed (p : ι)
  -- A request of the current call is executed once more, nobody waits for the reply.
  | duplicate (p : ι)
  -- A request of the `k`-th of the calls that have returned is executed.
  | stale (p : ι) (k : Nat)
  -- The server executes the request of `Get`.
  | get (p : ι)
  | lose (p : ι)
  -- The reply to `Get` arrives.
  | resume (p : ι)
  | other (args : PutArgs String String)

variable {ι : Type} [DecidableEq ι]

def set (s : Leases ι) (p : ι) (sck : Lease) : Leases ι :=
  { s with ctrler := Function.update s.ctrler p sck }

def execute (s : Leases ι) (args : PutArgs String String) : Leases ι :=
  { s with kv := (s.kv.put args.key args.value args.version).fst }

def next (id : ι → String) (s : Leases ι) : Event ι → Option (Leases ι)
  | .call p method =>
    match (s.ctrler p).phase with
    | .idle => some (s.set p ({ s.ctrler p with returned := none }.put (id p) method))
    | _     => none
  | .put p e =>
    match (s.ctrler p).phase with
    | .put method call => do
      let (kv, call) ← call.next clerk s.kv e
      some ({ s with kv }.set p { s.ctrler p with phase := .put method call })
    | _ => none
  | .proceed p =>
    match (s.ctrler p).phase with
    | .put method call =>
      match call.outcome with
      | .done err =>
        let sck := { s.ctrler p with stale := call.args :: (s.ctrler p).stale }
        some (s.set p (sck.proceed (id p) err method))
      | _ => none
    | _ => none
  | .duplicate p =>
    match (s.ctrler p).phase with
    | .put _ call => some (s.execute call.args)
    | _           => none
  | .stale p k => do
    let args ← (s.ctrler p).stale[k]?
    some (s.execute args)
  | .get p =>
    match (s.ctrler p).phase with
    | .get _ => some (s.set p { s.ctrler p with phase := .get (some (s.kv.get lockKey)) })
    | _      => none
  | .lose p =>
    match (s.ctrler p).phase with
    | .get _ => some (s.set p { s.ctrler p with phase := .get none })
    | _      => none
  | .resume p =>
    match (s.ctrler p).phase with
    | .get (some reply) => some (s.set p ((s.ctrler p).acquireGet (id p) reply))
    | _                 => none
  | .other args => if args.key = lockKey then none else some (s.execute args)

end Leases

-- The controllers, each with an id of its own.
def leases {ι : Type} [DecidableEq ι] (id : ι → String) : System (Leases ι) (Leases.Event ι) where
  init := ⟨fun _ => none, fun _ => .make⟩
  next := Leases.next id
