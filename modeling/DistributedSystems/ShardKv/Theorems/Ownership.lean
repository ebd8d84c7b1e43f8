import DistributedSystems.ShardKv.Theorems.Handover

-- At most one group works on a shard, in all executions without the hazards of concurrent
-- controllers.
namespace ShardKv

open KvSrv Sharded

variable {K V Id : Type}

instance [DecidableEq Id] (lockVersion : Nat) (c : Id) (sv : Servers K V Id) :
    (pc : Pc K V) → Decidable (pc.Hazard lockVersion c sv)
  | .getConfigToApply _                    => inferInstanceAs (Decidable (_ < _))
  | .acquireLockPut (.nextShard _ _ false) => inferInstanceAs (Decidable (_ = _))
  | .acquireLockGet (.nextShard _ _ false) => inferInstanceAs (Decidable (sv.lockedBy c))
  | .idle | .saveApplyConfigGet _ | .saveApplyConfigPut .. | .query | .moveShardToGroup ..
  | .publishQuery _ | .publishPut _ | .releaseLock
  | .acquireLockPut .changeConfiguration | .acquireLockGet .changeConfiguration
  | .acquireLockPut (.moveShardToGroup ..) | .acquireLockGet (.moveShardToGroup ..)
  | .acquireLockPut (.nextShard _ _ true) | .acquireLockGet (.nextShard _ _ true) => .isFalse id

namespace State

instance [DecidableEq Id] (s : State K V Id) : DecidablePred s.Hazard
  | .rpc _ => inferInstanceAs (Decidable (Pc.Hazard ..))
  | .initController _ | .changeConfigTo .. | .query | .lost _ | .dropped _ | .noResponse _
  | .late _ | .client .. => .isFalse id

def Working (s : State K V Id) (gid : Gid) (shardId : Shard) : Prop :=
  ((s.servers.group gid).config shardId).state = .workingState

instance (s : State K V Id) (gid : Gid) (shardId : Shard) : Decidable (s.Working gid shardId) :=
  inferInstanceAs (Decidable (_ = _))

-- The request that a group executes.
def executes (s : State K V Id) : Event K V Id → Option (Gid × Req K V)
  | .rpc c | .lost c =>
    match (s.ctrler c).rpc c with
    | some (.group gid req) => some (gid, req)
    | _                     => none
  | .late k => s.sent[k]?.map Prod.snd
  | .client gid req => some (gid, req)
  | _ => none

variable [Sharded K] {s s' : State K V Id} {m : Ghost K V}

theorem init_models :
    (Servers.init : Servers K V Id).Models ⟨fun _ => .first, fun _ => .settled, fun _ => none⟩ := by
  intro shardId
  have he : restrict (fun _ => none) shardId = (Table.empty : Table K V) := by
    funext key
    simp [restrict, Table.empty]
  refine {
    bound  := .inl rfl
    moves  := Handover.Stage.not_frozen_le_settled.elim
    source := ⟨numFirst, ?source, le_rfl, fun _ _ _ => rfl⟩
    target := Handover.Stage.not_installed_le_settled.elim
    others := fun g hg _ => ⟨0, ?others, Nat.zero_le _, fun _ _ h => absurd h.symm hg⟩
  }
  case source => simp [Servers.world, he]; rfl
  case others =>
    have hg : g ≠ gid1 := hg
    simp [Servers.world, Servers.init, KVServer.site, KVServer.start, KVServer.config,
      KVServer.table, hg]
    exact ⟨rfl, rfl⟩

theorem Refines.init :
    (init : State K V Id).Refines ⟨fun _ => .first, fun _ => .settled, fun _ => none⟩ where
  chained  := .init
  models   := init_models
  sent     := nofun
  ctrler _ := trivial

theorem Refines.working_unique (h : s.Refines m) {shardId g₁ g₂} (h₁ : s.Working g₁ shardId)
    (h₂ : s.Working g₂ shardId) : g₁ = g₂ :=
  (h.models shardId).active_unique (KVServer.site_active.mpr h₁) (KVServer.site_active.mpr h₂)

theorem Refines.install_refused [DecidableEq K] (h : s.Refines m) {gid shardId state n servers resp}
    (hp : s.servers.Permits m gid (.installShard shardId state n)) (hw : s.Working gid shardId)
    (hd : s.servers.doOp gid (.installShard shardId state n) = some (servers, resp)) :
    servers = s.servers := by
  obtain ⟨_, _, hr, ha⟩ := hp
  cases hr
  have hn : n ≤ ((s.servers.group gid).config shardId).configVersion :=
    (h.models shardId).install_refused ha (KVServer.site_active.mpr hw)
  obtain ⟨kv, hk, rfl⟩ := Servers.doOp_some hd
  simp only [KVServer.doOp, KVServer.doInstallShard, Option.some.injEq] at hk
  rw [if_pos hn] at hk
  obtain ⟨rfl, rfl⟩ := hk
  rw [Function.update_eq_self]

-- Where the requests to the groups come from.
theorem Refines.executes [DecidableEq K] [DecidableEq Id] (h : s.Refines m) {e : Event K V Id}
    {gid req} (hs : Stepped s e s') (he : s.executes e = some (gid, req)) :
    ∃ resp, s.servers.doOp gid req = some (s'.servers, resp) ∧
    (req.isClient = true ∨ s.servers.Permits m gid req) := by
  cases hs <;> simp only [State.executes, reduceCtorEq] at he
  case rpc c rpc servers sck hr hv | lost c rpc servers sck hr hv =>
    rw [hr] at he
    cases rpc <;> simp only [reduceCtorEq, Option.some.injEq, Prod.mk.injEq] at he
    obtain ⟨rfl, rfl⟩ := he
    have ⟨resp, hd⟩ := hv.doOp hr
    exact ⟨resp, by simpa only [setCtrler_servers, resend_servers, send_servers] using hd,
      .inr (h.permits hr)⟩
  case late hk hd =>
    rw [hk] at he
    cases he
    exact ⟨_, hd, .inr (h.sent _ _ _ (List.mem_of_getElem? hk))⟩
  case client hk hd =>
    cases he
    refine ⟨_, hd, .inl ?_⟩
    cases req <;> first | rfl | cases hk

end State

namespace Execution

variable [DecidableEq K] [DecidableEq Id] [Sharded K] {e : Execution K V Id}

def Guarded (e : Execution K V Id) : Prop :=
  ∀ i a, e.label i = some a → ¬ (e.state i).Hazard a

theorem Guarded.refines (h : e.Guarded) : ∀ i, ∃ m, (e.state i).Refines m := by
  refine e.invariant (I := fun s => ∃ m, s.Refines m) ⟨_, .init⟩ fun i a s' ha hs hm => ?_
  have ⟨_, hm⟩ := hm
  have ⟨m', hm', _⟩ := hm.step (State.stepped hs) (h i a ha)
  exact ⟨m', hm'⟩

theorem Guarded.ofActions {as : List (Event K V Id)} {h : ((shardKv K V Id).exec .init as).isSome}
    (hz : ∀ i : Fin as.length, ¬ ((System.Behavior.ofActions _ as h).state i).Hazard (as.get i)) :
    Execution.Guarded (.ofActions (shardKv K V Id) as h) :=
  System.Behavior.avoids_ofActions hz

theorem exclusive_ownership (e : Execution K V Id) (h : e.Guarded) :
    (∀ i shardId g₁ g₂, (e.state i).Working g₁ shardId → (e.state i).Working g₂ shardId → g₁ = g₂) ∧
    (∀ i a gid shardId state n, e.label i = some a →
      (e.state i).executes a = some (gid, .installShard shardId state n) →
      (e.state i).Working gid shardId →
      (e.state (i + 1)).servers.group gid = (e.state i).servers.group gid) := by
  refine ⟨fun i shardId g₁ g₂ => ?unique, fun i a gid shardId state n ha hx hw => ?refused⟩
  all_goals have ⟨m, hm⟩ := h.refines i
  case unique => exact hm.working_unique
  case refused =>
    have ⟨resp, hd, hp⟩ := hm.executes (State.stepped (e.next_of_label ha)) hx
    rw [hm.install_refused (hp.resolve_left nofun) hw hd]

-- Runs with the groups 1, 2 and 3, in which only the first shard is moved

def moveTo (num : Nat) (gid : Gid) : ShardConfig where
  val := {
    num            := num
    shards shardId := if shardId = 0 then gid else gid1
    groups         := .insert 1 ["a"] (.insert 2 ["b"] (.singleton 3 ["c"])) }
  property := num.cast_nonneg

-- A single controller moves the shard to group 2.
def relocation : List (Event (List UInt8) String Nat) :=
  .query :: .changeConfigTo 1 (moveTo 2 2) :: .replicate 23 (.rpc 1)

def relocated : Execution (List UInt8) String Nat :=
  .ofActions (shardKv _ _ _) relocation (by decide +kernel)

theorem exclusive_ownership_relocated :
    (relocated.state 25).Working 2 0 ∧ ∀ gid, (relocated.state 25).Working gid 0 → gid = 2 := by
  have h : (relocated.state 25).Working 2 0 := by decide +kernel
  have hg : relocated.Guarded := .ofActions (by decide +kernel)
  exact ⟨h, fun gid hw => (exclusive_ownership relocated hg).left 25 0 gid 2 hw h⟩

-- Controller 0 has read configuration 1 when controller 1 moves the shard to group 2 and controller
-- 2 saves configuration 3. It then reads configuration 3, wants to move the shard from group 1 to
-- group 3, ignores that group 1 does not have the shard any more, and installs it at group 3.
def skipping : List (Event (List UInt8) String Nat) := .flatten [
  [.initController 0, .rpc 0, .rpc 0],
  [.query, .changeConfigTo 1 (moveTo 2 2)], .replicate 25 (.rpc 1),
  [.query, .changeConfigTo 2 (moveTo 3 3), .rpc 2, .rpc 2],
  [.rpc 0, .rpc 0, .rpc 0]
]

def skipped : Execution (List UInt8) String Nat :=
  .ofActions (shardKv _ _ _) skipping (by decide +kernel)

theorem ownership_shared :
    ∃ (e : Execution (List UInt8) String Nat) (i : Nat) (g₁ g₂ : Gid),
    g₁ ≠ g₂ ∧ (e.state i).Working g₁ 0 ∧ (e.state i).Working g₂ 0 :=
  ⟨skipped, 37, 2, 3, by decide, by decide +kernel, by decide +kernel⟩

-- Controller 0 is told by a `Get` that it has the lock, and remembers a version that is too high by
-- one. It gives up the move when controller 1 takes over the lock, but this makes the version
-- right. So it goes on, and publishes configuration 2 although the shard is still in group 1. When
-- controller 2 moves the shard from group 2 to group 3, then group 1 still has it.
def relocking : List (Event (List UInt8) String Nat) := .flatten [
  [.query, .changeConfigTo 0 (moveTo 2 2), .rpc 0, .rpc 0, .lost 0], .replicate 4 (.rpc 0),
  [.noResponse 0, .rpc 0, .initController 1, .rpc 1, .rpc 1, .rpc 1], .replicate 16 (.rpc 0),
  [.query, .changeConfigTo 2 (moveTo 3 3)], .replicate 9 (.rpc 2)
]

def relocked : Execution (List UInt8) String Nat :=
  .ofActions (shardKv _ _ _) relocking (by decide +kernel)

example : (relocked.state 42).Working 1 0 ∧ (relocked.state 42).Working 3 0 := by
  decide +kernel

end Execution
end ShardKv
