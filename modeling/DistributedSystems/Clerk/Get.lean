import DistributedSystems.Clerk.Basic

-- The `Get` of the clerks. To read twice does no harm, so that it has no use for `isFirstTry` and
-- returns the error as it is.
namespace KvSrv

-- It goes on as `Put` does, but has no state of its own.
def getClerk : Clerk Bool Unit where
  start := .call true
  proceed s reply _ :=
    match reply with
    | none     => .call s
    | some err => .done err
  refusals := []

end KvSrv

namespace KvRaft

open KvSrv

theorem Clerk.leader_succ_lt {servers : Nat} (ck : Clerk servers) :
    (ck.leader + 1) % servers < servers :=
  Nat.mod_lt _ ck.leader.pos

def getClerk (servers : Nat) (leader : Fin servers) : KvSrv.Clerk (Clerk servers) Unit where
  start := .call ⟨leader, true⟩
  proceed ck reply _ :=
    let retry := .call { ck with leader := ⟨(ck.leader + 1) % servers, ck.leader_succ_lt⟩ }
    match reply with
    | none     => retry
    | some err => if err = .errWrongLeader then retry else .done err
  refusals := [.errWrongLeader]

end KvRaft

namespace ShardKv

open KvSrv

def getClerk (servers : Nat) : KvSrv.Clerk Clerk Clerk.Input where
  start := Clerk.begin true servers
  proceed ck reply input :=
    match ck.shardGroupClient.loop reply input.done with
    | .inl shardGroupClient      => .call { ck with shardGroupClient }
    | .inr none                  => Clerk.begin ck.isFirstTry input.servers
    | .inr (some .errWrongGroup) => Clerk.begin ck.isFirstTry input.servers
    | .inr (some err)            => .done err
  refusals := [.errWrongLeader, .errWrongGroup]

end ShardKv
