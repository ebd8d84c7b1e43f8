import DistributedSystems.Clerk.Basic

-- The lock of package `lock`, which its clients share through a key of a `kvsrv1` server.
open KvSrv

def availableState : String :=
  "Available"

namespace Lock

-- Where a client of a lock is.
inductive Phase
  | released
  -- `Acquire` waits for its call of `Put`.
  | acquiring (put : Call Bool String String)
  -- `resync` waits for its call of `Get`, the last request may have been executed.
  | resyncing (reply : Option (GetReply String))
  | acquired
  | releasing (put : Call Bool String String)

end Lock

structure Lock where
  version : Nat
  phase   : Lock.Phase
  -- Requests of calls that have returned, they may still be executed.
  stale   : List (PutArgs String String)

namespace Lock

def make : Lock where
  version := 0
  phase   := .released
  stale   := []

def put (lk : Lock) (lockname value : String) : Call Bool String String :=
  .make clerk ⟨lockname, value, lk.version⟩

-- The start of a round of the loop of `Acquire`.
def acquire (lk : Lock) (lockname id : String) : Lock :=
  { lk with phase := .acquiring (lk.put lockname id) }

-- `Acquire` after its call of `Put` has returned.
def acquired (lk : Lock) (lockname id : String) : Err → Lock
  | .ok                   => { lk with version := lk.version + 1, phase := .acquired }
  | .errVersion | .errMaybe => { lk with phase := .resyncing none }
  | _                     => lk.acquire lockname id

-- `resync` and what `Acquire` makes of its result. Without a key the state is empty.
def resync (lk : Lock) (lockname id : String) (reply : GetReply String) : Lock :=
  if reply.value.getD "" = id then
    { lk with version := reply.version + 1, phase := .acquired }
  else if reply.value.getD "" = availableState then
    { lk with version := reply.version }.acquire lockname id
  else
    { lk with version := reply.version + 1 }.acquire lockname id

def release (lk : Lock) (lockname : String) : Lock :=
  { lk with phase := .releasing (lk.put lockname availableState) }

def released (lk : Lock) : Lock :=
  { lk with version := lk.version + 1, phase := .released }

end Lock

structure Locks (ι : Type) where
  kv   : KVServer String String
  lock : ι → Lock

namespace Locks

inductive Event (ι : Type)
  | acquire (p : ι)
  | release (p : ι)
  -- What happens to the current call of `Put`.
  | put (p : ι) (e : Call.Event Unit)
  -- The current call of `Put` has returned.
  | proceed (p : ι)
  -- A request of the current call is executed once more, nobody waits for the reply.
  | duplicate (p : ι)
  -- A request of the `k`-th of the calls that have returned is executed.
  | stale (p : ι) (k : Nat)
  -- The server executes the request of `Get`.
  | get (p : ι)
  | lose (p : ι)
  -- The reply to `Get` arrives.
  | resync (p : ι)
  | other (args : PutArgs String String)

variable {ι : Type} [DecidableEq ι]

def set (s : Locks ι) (p : ι) (lk : Lock) : Locks ι :=
  { s with lock := Function.update s.lock p lk }

def execute (s : Locks ι) (args : PutArgs String String) : Locks ι :=
  { s with kv := (s.kv.put args.key args.value args.version).fst }

def next (id : ι → String) (lockname : String) (s : Locks ι) : Event ι → Option (Locks ι)
  | .acquire p =>
    match (s.lock p).phase with
    | .released => some (s.set p ((s.lock p).acquire lockname (id p)))
    | _         => none
  | .release p =>
    match (s.lock p).phase with
    | .acquired => some (s.set p ((s.lock p).release lockname))
    | _         => none
  | .put p e =>
    match (s.lock p).phase with
    | .acquiring put => do
      let (kv, put) ← put.next clerk s.kv e
      some ({ s with kv }.set p { s.lock p with phase := .acquiring put })
    | .releasing put => do
      let (kv, put) ← put.next clerk s.kv e
      some ({ s with kv }.set p { s.lock p with phase := .releasing put })
    | _ => none
  | .proceed p =>
    match (s.lock p).phase with
    | .acquiring put =>
      match put.outcome with
      | .done err =>
        let lk := { s.lock p with stale := put.args :: (s.lock p).stale }
        some (s.set p (lk.acquired lockname (id p) err))
      | _ => none
    | .releasing put =>
      match put.outcome with
      | .done _ =>
        let lk := { s.lock p with stale := put.args :: (s.lock p).stale }
        some (s.set p lk.released)
      | _ => none
    | _ => none
  | .duplicate p =>
    match (s.lock p).phase with
    | .acquiring put | .releasing put => some (s.execute put.args)
    | _                               => none
  | .stale p k => do
    let args ← (s.lock p).stale[k]?
    some (s.execute args)
  | .get p =>
    match (s.lock p).phase with
    | .resyncing _ =>
      some (s.set p { s.lock p with phase := .resyncing (some (s.kv.get lockname)) })
    | _ => none
  | .lose p =>
    match (s.lock p).phase with
    | .resyncing _ => some (s.set p { s.lock p with phase := .resyncing none })
    | _            => none
  | .resync p =>
    match (s.lock p).phase with
    | .resyncing (some reply) => some (s.set p ((s.lock p).resync lockname (id p) reply))
    | _                       => none
  | .other args => if args.key = lockname then none else some (s.execute args)

end Locks

-- The locks with the given name, each with an id of its own.
def locks {ι : Type} [DecidableEq ι] (id : ι → String) (lockname : String) :
    System (Locks ι) (Locks.Event ι) where
  init := ⟨fun _ => none, fun _ => .make⟩
  next := Locks.next id lockname
