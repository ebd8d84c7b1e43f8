import DistributedSystems.KvTest.Basic
import DistributedSystems.ShardKv.Controller

-- The service of `shardkv1` as its clients see it: groups that answer their requests, while
-- controllers move the shards from one group to another.
namespace ShardKv

open KvSrv KvTest

variable {K V Id : Type}

instance sharded_string : Sharded String where
  key2Shard key := Sharded.key2Shard key.toUTF8.toList

-- What the handlers `Get` and `Put` submit, and what they reply.
def Req.of : KvInput K V → Req K V
  | .get key               => .get key
  | .put key value version => .put key value version

def Resp.output : Resp K V → KvOutput V
  | .get reply => reply
  | resp       => ⟨none, 0, resp.err⟩

structure Service (K V Id : Type) where
  state   : State K V Id
  replies : Nat → Option (KvOutput V)

namespace Service

inductive Action (K V Id : Type)
  -- A group executes the request.
  | handle (k : Nat) (gid : Gid)
  | step (e : Event K V Id)

variable [DecidableEq K] [DecidableEq Id] [Sharded K]

def next (sent : List (KvInput K V)) (s : Service K V Id) : Action K V Id → Option (Service K V Id)
  | .handle k gid => do
    let input ← sent[k]?
    if (s.replies k).isNone then
      let (servers, resp) ← s.state.servers.doOp gid (.of input)
      some ⟨{ s.state with servers }, Function.update s.replies k (some resp.output)⟩
    else
      none
  | .step (.client ..) => none
  | .step e => (s.state.next e).map fun state => { s with state }

end Service

-- A server that is not the leader of its group may refuse the request, and the group execute it
-- later.
def service (K V Id : Type) [DecidableEq K] [DecidableEq V] [DecidableEq Id] [Sharded K] :
    Backend (Service K V Id) (Service.Action K V Id) (KvInput K V) (KvOutput V) where
  init              := ⟨.init, fun _ => none⟩
  next              := Service.next
  answers s k reply := s.replies k = some reply ∨ reply = ⟨none, 0, .errWrongLeader⟩

-- The clerks are told the number of servers of the group that their first query finds.
def clerks : Clerks Nat Clerk Clerk.Input where
  get := getClerk
  put := clerk

end ShardKv
