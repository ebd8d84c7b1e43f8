import Mathlib.Tactic

-- The versioned key/value server of `kvsrv1`, and the rule by which its clerk reports errors.
namespace KvSrv

-- The errors of package `rpc`.
inductive Err
  | ok
  | errNoKey
  | errVersion
  | errMaybe
  | errWrongLeader
  | errWrongGroup
  deriving DecidableEq

structure Data (V : Type) where
  version : Nat
  value   : V
  deriving DecidableEq

-- The value is empty and the version zero, unless the error is `ok`.
structure GetReply (V : Type) where
  value   : Option V
  version : Nat
  err     : Err
  deriving DecidableEq

variable {K V : Type}

-- What `Put` makes of a key that exists.
def Data.put (data : Data V) (value : V) (version : Nat) : Data V × Err :=
  if version ≠ data.version then (data, .errVersion) else (⟨version + 1, value⟩, .ok)

def put (entry : Option (Data V)) (value : V) (version : Nat) : Option (Data V) × Err :=
  match entry with
  | none      => if version ≠ 0 then (none, .errNoKey) else (some ⟨version + 1, value⟩, .ok)
  | some data => ((data.put value version).fst, (data.put value version).snd)

def get : Option (Data V) → GetReply V
  | none      => ⟨none, 0, .errNoKey⟩
  | some data => ⟨data.value, data.version, .ok⟩

theorem Data.put_cases (data : Data V) (value : V) (version : Nat) :
    (version = data.version ∧ data.put value version = (⟨version + 1, value⟩, .ok)) ∨
    (version ≠ data.version ∧ data.put value version = (data, .errVersion)) := by
  by_cases h : version = data.version <;> simp [Data.put, h]

theorem put_cases (entry : Option (Data V)) (value : V) (version : Nat) :
    (entry.elim 0 Data.version = version ∧
      put entry value version = (some ⟨version + 1, value⟩, .ok)) ∨
    (entry.elim 0 Data.version ≠ version ∧ entry ≠ none ∧
      put entry value version = (entry, .errVersion)) ∨
    (entry.elim 0 Data.version ≠ version ∧ entry = none ∧
      put entry value version = (entry, .errNoKey)) := by
  cases entry
  case none      => by_cases h : version = 0 <;> simp [put, h, eq_comm]
  case some data => by_cases h : version = data.version <;> simp [put, Data.put, h, eq_comm]

-- A server with all of its keys.
abbrev KVServer (K V : Type) :=
  K → Option (Data V)

namespace KVServer

variable [DecidableEq K]

def get (kv : KVServer K V) (key : K) : GetReply V :=
  KvSrv.get (kv key)

def put (kv : KVServer K V) (key : K) (value : V) (version : Nat) : KVServer K V × Err :=
  let (entry, err) := KvSrv.put (kv key) value version
  (Function.update kv key entry, err)

end KVServer

-- A clerk that had to resend a `Put` does not know whether it was its own request that has changed
-- the version.
def Clerk.err (isFirstTry : Bool) (err : Err) : Err :=
  if !isFirstTry ∧ err = .errVersion then .errMaybe else err

namespace Clerk

@[simp]
theorem err_ok (isFirstTry : Bool) : Clerk.err isFirstTry .ok = .ok := by
  simp [Clerk.err]

theorem err_eq_ok {isFirstTry : Bool} {err : Err} : Clerk.err isFirstTry err = .ok ↔ err = .ok := by
  cases isFirstTry <;> cases err <;> simp [Clerk.err]

@[simp]
theorem err_errNoKey (isFirstTry : Bool) : Clerk.err isFirstTry .errNoKey = .errNoKey := by
  simp [Clerk.err]

theorem err_errVersion (isFirstTry : Bool) :
    Clerk.err isFirstTry .errVersion = .errVersion ∨
    Clerk.err isFirstTry .errVersion = .errMaybe := by
  cases isFirstTry <;> simp [Clerk.err]

end Clerk
end KvSrv
