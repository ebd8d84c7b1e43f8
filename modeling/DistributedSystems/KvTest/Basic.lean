import DistributedSystems.Clerk.Get
import DistributedSystems.Library.Linearizability
import DistributedSystems.Library.Service

-- The clients of `kvtest1`. They use a key/value service through its clerks, log what they have
-- done, and have the log checked against the model of `models1`.
namespace KvTest

open KvSrv Linearizability

-- The arguments of a call, and of all requests that it sends.
inductive KvInput (K V : Type)
  | get (key : K)
  | put (key : K) (value : V) (version : Nat)
  deriving DecidableEq

-- A `Put` has an error only.
abbrev KvOutput (V : Type) :=
  GetReply V

namespace KvInput

variable {K V : Type}

def key : KvInput K V → K
  | get key     => key
  | put key _ _ => key

-- What is logged if the clerk returns with the error, after the given reply.
def output : KvInput K V → KvOutput V → Err → KvOutput V
  | get _, reply, err => { reply with err }
  | put _ _ _, _, err => ⟨none, 0, err⟩

-- The version that the key has reached when the call returns.
def seen : KvInput K V → KvOutput V → Nat
  | get _, out         => out.version
  | put _ _ version, _ => version + 1

end KvInput

structure KvState where
  value   : String
  version : Nat
  deriving DecidableEq

-- The value that is missing in an output is the empty string.
def kvModel : Model KvState (KvInput String String) (KvOutput String) where
  init := ⟨"", 0⟩
  step
    | st, .get _, out               => (out.value.getD "" = st.value, st)
    | st, .put _ value version, out =>
      if st.version = version then
        (out.err = .ok ∨ out.err = .errMaybe, ⟨value, st.version + 1⟩)
      else
        (out.err = .errVersion ∨ out.err = .errMaybe, st)

abbrev KvOperation (K V : Type) :=
  Operation (KvInput K V) (KvOutput V)

-- `kvModel` is about a single key.
def partition (history : List (KvOperation String String)) :
    List (List (KvOperation String String)) :=
  let keys := (history.map (·.input.key)).dedup
  (keys.mergeSort (· ≤ ·)).map fun key => history.filter (·.input.key = key)

-- What `checkPorcupine` looks for, if it has the time.
def Legal (oplog : List (KvOperation String String)) : Prop :=
  ∀ ops ∈ partition oplog, Linearizable kvModel ops

-- The methods of a clerk. It may have been left in a certain state by the calls before.
structure Clerks (κ σ ι : Type) where
  get : κ → Clerk σ ι
  put : κ → Clerk σ ι

inductive Phase (σ V : Type)
  -- The clerk waits for the last request.
  | waiting (s : σ)
  | returned (output : KvOutput V)
  | panicked

-- A call of the clerk, with the numbers of its requests.
structure Op (κ σ K V : Type) where
  clerk    : κ
  input    : KvInput K V
  start    : Nat
  requests : List Nat
  phase    : Phase σ V

namespace Op

variable {κ σ ι K V : Type}

def clerkOf (C : Clerks κ σ ι) (op : Op κ σ K V) : Clerk σ ι :=
  match op.input with
  | .get _     => C.get op.clerk
  | .put _ _ _ => C.put op.clerk

-- A further request has the number `n`.
def follow (op : Op κ σ K V) (n : Nat) (reply : KvOutput V) :
    Outcome σ → Op κ σ K V × List (KvInput K V)
  | .call s   => ({ op with requests := op.requests ++ [n], phase := .waiting s }, [op.input])
  | .done err => ({ op with phase := .returned (op.input.output reply err) }, [])
  | .panic    => ({ op with phase := .panicked }, [])

end Op

structure Test (P κ σ K V : Type) where
  client : P → Option (Op κ σ K V)
  oplog  : List (KvOperation K V)
  now    : Nat

namespace Test

variable {P κ σ ι K V : Type} [DecidableEq P]

inductive Event (P κ ι K V : Type)
  | tick
  | call (p : P) (ck : κ) (input : KvInput K V)
  | respond (p : P) (i : ι)
  | lose (p : P) (i : ι)
  | done (p : P)

def set (ts : Test P κ σ K V) (p : P) (op : Option (Op κ σ K V)) : Test P κ σ K V :=
  { ts with client := Function.update ts.client p op }

-- Before there is a reply.
def noReply : KvOutput V :=
  ⟨none, 0, .ok⟩

def next (C : Clerks κ σ ι) (ts : Test P κ σ K V) (n : Nat) :
    Event P κ ι K V → Option (Nat × KvOutput V) → Option (Test P κ σ K V × List (KvInput K V))
  | .tick, none => some ({ ts with now := ts.now + 1 }, [])
  | .call p clerk input, none =>
    match ts.client p with
    | some _ => none
    | none   =>
      let op : Op κ σ K V := { clerk, input, start := ts.now, requests := [], phase := .panicked }
      let (op, reqs) := op.follow n noReply (op.clerkOf C).start
      some (ts.set p op, reqs)
  | .respond p i, some (k, reply) => do
    let op ← ts.client p
    match op.phase with
    | .waiting s =>
      if op.requests.getLast? = some k then
        let (op, reqs) := op.follow n reply ((op.clerkOf C).proceed s (some reply.err) i)
        some (ts.set p op, reqs)
      else
        none
    | _ => none
  | .lose p i, none => do
    let op ← ts.client p
    match op.phase with
    | .waiting s =>
      let (op, reqs) := op.follow n noReply ((op.clerkOf C).proceed s none i)
      some (ts.set p op, reqs)
    | _ => none
  | .done p, none => do
    let op ← ts.client p
    match op.phase with
    | .returned output =>
      some ({ ts.set p none with oplog := ts.oplog ++ [⟨op.input, output, op.start, ts.now⟩] }, [])
    | _ => none
  | _, _ => none

-- A version that a client makes up. It could have been read by a `Get`, or be the one after a
-- `Put`.
def Unseen (ts : Test P κ σ K V) : Event P κ ι K V → Prop
  | .call _ _ (.put key _ version) =>
    version ≠ 0 ∧ ∀ op ∈ ts.oplog, op.input.key = key → op.input.seen op.output < version
  | _ => False

instance decidableUnseen [DecidableEq K] {ts : Test P κ σ K V} :
    (e : Event P κ ι K V) → Decidable (ts.Unseen e)
  | .call _ _ (.put key _ version) =>
    inferInstanceAs <| Decidable <|
      version ≠ 0 ∧ ∀ op ∈ ts.oplog, op.input.key = key → op.input.seen op.output < version
  | .call _ _ (.get _) | .tick | .respond .. | .lose .. | .done _ => isFalse id

-- The calls that have not returned.
def pending (ts : Test P κ σ K V) (p : P) : Option (KvInput K V × Nat) :=
  (ts.client p).map fun op => (op.input, op.start)

end Test

def test (P K V : Type) {κ σ ι : Type} [DecidableEq P] (C : Clerks κ σ ι) :
    Frontend (Test P κ σ K V) (Test.Event P κ ι K V) (KvInput K V) (KvOutput V) where
  init := ⟨fun _ => none, [], 0⟩
  next := Test.next C

-- The server of `kvsrv1`, with the replies to the requests that it has executed.
structure KvServer (K V : Type) where
  kv      : KVServer K V
  replies : Nat → Option (KvOutput V)

namespace KvServer

variable {K V : Type} [DecidableEq K]

def handle (kv : KVServer K V) : KvInput K V → KVServer K V × KvOutput V
  | .get key               => (kv, kv.get key)
  | .put key value version =>
    let (kv, err) := kv.put key value version
    (kv, ⟨none, 0, err⟩)

-- A request is executed at most once.
def next (sent : List (KvInput K V)) (srv : KvServer K V) (k : Nat) : Option (KvServer K V) := do
  let input ← sent[k]?
  if (srv.replies k).isNone then
    let (kv, reply) := handle srv.kv input
    some ⟨kv, Function.update srv.replies k (some reply)⟩
  else
    none

end KvServer

-- Instead of a reply there may be a refusal, which does not say whether the request will be
-- executed.
def kvServer (K V : Type) [DecidableEq K] [DecidableEq V] (refusals : List Err) :
    Backend (KvServer K V) Nat (KvInput K V) (KvOutput V) where
  init                := ⟨fun _ => none, fun _ => none⟩
  next                := KvServer.next
  answers srv k reply := srv.replies k = some reply ∨ ∃ err ∈ refusals, reply = ⟨none, 0, err⟩

-- The clerks of `kvsrv1`.
def kvsrvClerks : Clerks Unit Bool Unit where
  get _ := getClerk
  put _ := clerk

end KvTest
