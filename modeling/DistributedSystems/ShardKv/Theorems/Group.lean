import DistributedSystems.Library.Handover
import DistributedSystems.ShardKv.Group

-- A group as the site of a handover for each of its shards, and as a part of one flat store.
namespace ShardKv

open KvSrv Sharded

variable {K V : Type}

namespace Req

-- What a request means for the handover of the shard that it names.
def handover : Req K V → Option (Shard × Handover.Request (Table K V))
  | freezeShard shardId configVersion        => some (shardId, .freeze configVersion)
  | installShard shardId state configVersion =>
    some (shardId, .install configVersion (state.getD .empty))
  | deleteShard shardId configVersion        => some (shardId, .release configVersion)
  | _                                        => none

def key : Req K V → Option K
  | put key .. | get key => some key
  | _                    => none

-- A client's request on one store with all keys. The other requests do not exist there.
def flat [DecidableEq K] (kv : KvSrv.KVServer K V) :
    Req K V → Option (KvSrv.KVServer K V × Resp K V)
  | put key value version =>
    some ((kv.put key value version).fst, .put (kv.put key value version).snd)
  | get key               => some (kv, .get (kv.get key))
  | _                     => none

theorem flat_err [DecidableEq K] {kv kv' : KvSrv.KVServer K V} {req : Req K V} {resp}
    (h : req.flat kv = some (kv', resp)) : resp.err ≠ .errWrongGroup := by
  cases req <;> simp only [flat, Option.some.injEq, Prod.mk.injEq, reduceCtorEq] at h
  all_goals obtain ⟨-, rfl⟩ := h
  case put key value version =>
    simp only [Resp.err, KvSrv.KVServer.put, KvSrv.put, KvSrv.Data.put]
    split <;> split <;> simp
  case get key =>
    simp only [Resp.err, KvSrv.KVServer.get, KvSrv.get]
    split <;> simp

end Req

namespace ShardState

def status : ShardState → Handover.Status
  | dontOwnState => .absent
  | frozenState  => .frozen
  | workingState => .active

theorem status_absent {s : ShardState} : s.status = .absent ↔ s = .dontOwnState := by
  cases s <;> simp [status]

theorem status_active {s : ShardState} : s.status = .active ↔ s = .workingState := by
  cases s <;> simp [status]

end ShardState

namespace KVServer

variable {kv kv' : KVServer K V} {shardId : Shard}

-- Clients cannot tell a missing map from a nil map or an empty one.
def table (kv : KVServer K V) (shardId : Shard) : Table K V :=
  ((kv.keyValue shardId).getD none).getD .empty

def site (kv : KVServer K V) (shardId : Shard) : Handover.Site (Table K V) where
  status := (kv.config shardId).state.status
  epoch  := (kv.config shardId).configVersion
  data   := kv.table shardId

theorem site_active :
    (kv.site shardId).status = .active ↔ (kv.config shardId).state = .workingState :=
  ShardState.status_active

theorem rejects_iff : kv.rejects shardId = true ↔ (kv.config shardId).state ≠ .workingState := by
  simp only [rejects, decide_eq_true_eq]
  cases (kv.config shardId).state <;> simp

theorem site_refuses {n : Nat} :
    (kv.site shardId).refuses n ↔
    (kv.config shardId).configVersion > n ∨ (kv.config shardId).state = .dontOwnState := by
  simp [Handover.Site.refuses, site, ShardState.status_absent]

@[simp]
theorem site_setConfig (kv : KVServer K V) (shardId : Shard) (config : Config) :
    (kv.setConfig shardId config).site shardId =
    ⟨config.state.status, config.configVersion, kv.table shardId⟩ := by
  simp [site, setConfig, KVServer.config, table]

@[simp]
theorem site_setMap (kv : KVServer K V) (shardId : Shard) (shardMap : Option (Table K V)) :
    (kv.setMap shardId shardMap).site shardId =
      { kv.site shardId with data := shardMap.getD .empty } := by
  simp [site, setMap, KVServer.config, table]

-- Everything that a request does, it does to one shard.
def SameElsewhere (kv kv' : KVServer K V) (shardId : Shard) : Prop :=
  ∀ s ≠ shardId, kv'.shardConfiguration s = kv.shardConfiguration s ∧ kv'.keyValue s = kv.keyValue s

namespace SameElsewhere

theorem refl (kv : KVServer K V) (shardId : Shard) : SameElsewhere kv kv shardId :=
  fun _ _ => ⟨rfl, rfl⟩

theorem site (h : SameElsewhere kv kv' shardId) {s} (hs : s ≠ shardId) :
    kv'.site s = kv.site s := by
  simp [KVServer.site, KVServer.config, table, h s hs]

theorem setConfig (kv : KVServer K V) (shardId : Shard) (config : Config) :
    SameElsewhere kv (kv.setConfig shardId config) shardId :=
  fun _ hs => ⟨Function.update_of_ne hs .., rfl⟩

theorem setMap (h : SameElsewhere kv kv' shardId) (shardMap : Option (Table K V)) :
    SameElsewhere kv (kv'.setMap shardId shardMap) shardId :=
  fun s hs => ⟨(h s hs).left, (Function.update_of_ne hs ..).trans (h s hs).right⟩

theorem unsetMap (h : SameElsewhere kv kv' shardId) :
    SameElsewhere kv { kv' with keyValue := Function.update kv'.keyValue shardId none } shardId :=
  fun s hs => ⟨(h s hs).left, (Function.update_of_ne hs ..).trans (h s hs).right⟩

end SameElsewhere

theorem doFreezeShard_cases (kv : KVServer K V) (shardId : Shard) (n : Nat) :
    ((kv.site shardId).refuses n ∧
      ∃ num, kv.doFreezeShard shardId n = (kv, .freezeShard none num .errVersion)) ∨
    (¬ (kv.site shardId).refuses n ∧
      kv.doFreezeShard shardId n =
      (kv.setConfig shardId ⟨.frozenState, n⟩, .freezeShard (some (kv.table shardId)) n .ok)) := by
  simp only [site_refuses, doFreezeShard]
  split
  case isTrue h => exact .inl ⟨.inl h, _, rfl⟩
  case isFalse h₁ =>
    split
    case isTrue h => exact .inl ⟨.inr h, _, rfl⟩
    case isFalse h₂ => exact .inr ⟨by simp [h₁, h₂], rfl⟩

theorem doFreezeShard_site (kv : KVServer K V) (shardId : Shard) (n : Nat) :
    (kv.doFreezeShard shardId n).fst.site shardId = (kv.site shardId).exec (.freeze n) := by
  simp only [Handover.Site.exec]
  obtain ⟨hr, _, h⟩ | ⟨hr, h⟩ := kv.doFreezeShard_cases shardId n
  · rw [h, if_pos hr]
  · rw [h, if_neg hr, site_setConfig]; rfl

theorem doFreezeShard_copy (kv : KVServer K V) (shardId : Shard) (n : Nat) :
    ∃ state num err, (kv.doFreezeShard shardId n).snd = .freezeShard state num err ∧
    state.getD .empty = ((kv.site shardId).copy n).getD default := by
  simp only [Handover.Site.copy]
  obtain ⟨hr, _, h⟩ | ⟨hr, h⟩ := kv.doFreezeShard_cases shardId n
  · rw [h, if_pos hr]; exact ⟨_, _, _, rfl, rfl⟩
  · rw [h, if_neg hr]; exact ⟨_, _, _, rfl, rfl⟩

theorem doInstallShard_site (kv : KVServer K V) (shardId : Shard) (state : Option (Table K V))
    (n : Nat) :
    (kv.doInstallShard shardId state n).fst.site shardId =
    (kv.site shardId).exec (.install n (state.getD .empty)) := by
  by_cases h : (kv.config shardId).configVersion ≥ n
  case pos => simp [doInstallShard, Handover.Site.exec, site, h]
  case neg =>
    have hx : ¬ n ≤ (kv.site shardId).epoch := h
    simp only [doInstallShard, Handover.Site.exec, if_neg h, if_neg hx, site_setMap, site_setConfig]
    rfl

theorem doDeleteShard_site (kv : KVServer K V) (shardId : Shard) (n : Nat) :
    (kv.doDeleteShard shardId n).fst.site shardId = (kv.site shardId).exec (.release n) := by
  by_cases h : (kv.config shardId).configVersion > n
  case pos => simp [doDeleteShard, Handover.Site.exec, site, h]
  case neg =>
    have hx : ¬ n < (kv.site shardId).epoch := h
    simp only [doDeleteShard, Handover.Site.exec, if_neg h, if_neg hx]
    simp only [site, setConfig, KVServer.config, table, Function.update_self]
    rfl

theorem doFreezeShard_same (kv : KVServer K V) (shardId : Shard) (n : Nat) :
    SameElsewhere kv (kv.doFreezeShard shardId n).fst shardId := by
  obtain ⟨_, _, h⟩ | ⟨_, h⟩ := kv.doFreezeShard_cases shardId n <;> rw [h]
  · exact .refl kv shardId
  · exact .setConfig kv shardId _

theorem doInstallShard_same (kv : KVServer K V) (shardId : Shard) (state : Option (Table K V))
    (n : Nat) :
    SameElsewhere kv (kv.doInstallShard shardId state n).fst shardId := by
  simp only [doInstallShard]
  split
  · exact .refl kv shardId
  · exact (SameElsewhere.setConfig kv shardId _).setMap state

theorem doDeleteShard_same (kv : KVServer K V) (shardId : Shard) (n : Nat) :
    SameElsewhere kv (kv.doDeleteShard shardId n).fst shardId := by
  simp only [doDeleteShard]
  split
  · exact .refl kv shardId
  · exact (SameElsewhere.setConfig kv shardId _).unsetMap

theorem setMap_setMap (kv : KVServer K V) (shardId : Shard) (m₁ m₂ : Option (Table K V)) :
    (kv.setMap shardId m₁).setMap shardId m₂ = kv.setMap shardId m₂ := by
  simp [setMap]

variable [DecidableEq K] [Sharded K]

theorem doOp_handover {req : Req K V} {r} (h : req.handover = some (shardId, r)) :
    ∃ kv' resp, kv.doOp req = some (kv', resp) ∧ kv'.site shardId = (kv.site shardId).exec r ∧
    SameElsewhere kv kv' shardId := by
  cases req <;> simp only [Req.handover, Option.some.injEq, Prod.mk.injEq, reduceCtorEq] at h
  all_goals obtain ⟨rfl, rfl⟩ := h
  case freezeShard s n =>
    exact ⟨_, _, rfl, kv.doFreezeShard_site s n, kv.doFreezeShard_same s n⟩
  case installShard s state n =>
    exact ⟨_, _, rfl, kv.doInstallShard_site s state n, kv.doInstallShard_same s state n⟩
  case deleteShard s n =>
    exact ⟨_, _, rfl, kv.doDeleteShard_site s n, kv.doDeleteShard_same s n⟩

-- The group executes the request like a store would that has the keys of the shard only.
structure Executes (kv kv' : KVServer K V) (shardId : Shard) (req : Req K V) (resp : Resp K V) :
    Prop where
  active : (kv.site shardId).status = .active
  flat   : ∃ t, req.flat (kv.table shardId) = some (t, resp) ∧
    kv'.site shardId = { kv.site shardId with data := t }
  same   : SameElsewhere kv kv' shardId

-- `Put` makes a missing inner map, and panics if it would have to write to a nil map.
theorem doPut_eq {key : K} {value : V} {version : Nat} (hr : kv.rejects (key2Shard key) = false) :
    kv.doPut key value version =
    match (kv.keyValue (key2Shard key)).getD (some .empty) with
    | none   => if version ≠ 0 then some (kv.setMap (key2Shard key) none, .put .errNoKey) else none
    | some m =>
      let (entry, err) := KvSrv.put (m key) value version
      some (kv.setMap (key2Shard key) (some (Function.update m key entry)), .put err) := by
  simp only [doPut, hr, Bool.false_eq_true, if_false]
  generalize (kv.keyValue (key2Shard key)).getD (some .empty) = shardMap
  cases shardMap
  case none => simp [assign]
  case some m =>
    have hu : Function.update m key (m key) = m := Function.update_eq_self ..
    simp only [Option.bind_some, assign, Option.map_some, setMap_setMap, KvSrv.put, Data.put]
    cases he : m key <;> simp only [he] at hu ⊢ <;> split_ifs <;> simp only [hu]

theorem doPut_executes {key value version resp} (hr : kv.rejects (key2Shard key) = false)
    (h : kv.doPut key value version = some (kv', resp)) :
    Executes kv kv' (key2Shard key) (.put key value version) resp := by
  have hw : (kv.config (key2Shard key)).state = .workingState := by
    simpa using mt rejects_iff.mpr (by simp [hr])
  have ht : ((kv.keyValue (key2Shard key)).getD (some .empty)).getD .empty =
      kv.table (key2Shard key) := by
    rw [table]
    cases kv.keyValue (key2Shard key) <;> rfl
  -- The new inner map has the contents that `Put` makes of the old ones.
  have executes {m : Option (Table K V)} {resp : Resp K V}
      (hf : (Req.put key value version).flat (kv.table (key2Shard key)) = some (m.getD .empty,
        resp)) :
      Executes kv (kv.setMap (key2Shard key) m) (key2Shard key) (.put key value version) resp :=
    ⟨site_active.mpr hw, ⟨_, hf, site_setMap ..⟩, (SameElsewhere.refl kv _).setMap m⟩
  rw [doPut_eq hr] at h
  cases hm : (kv.keyValue (key2Shard key)).getD (some .empty) <;>
    simp only [hm, Option.getD_none, Option.getD_some] at h ht
  case none =>
    split_ifs at h with hv
    cases h
    refine executes ?_
    have hu : Function.update (Table.empty : Table K V) key none = Table.empty :=
      Function.update_eq_self ..
    simp [Req.flat, KvSrv.KVServer.put, KvSrv.put, ←ht, show (Table.empty : Table K V) key = none
      from rfl, hv, hu]
  case some m =>
    cases h
    exact executes (by rw [←ht]; rfl)

theorem doGet_executes {key} (hr : kv.rejects (key2Shard key) = false) :
    Executes kv kv (key2Shard key) (.get key) (kv.doGet key) := by
  have hw : (kv.config (key2Shard key)).state = .workingState := by
    simpa using mt rejects_iff.mpr (by simp [hr])
  refine { active := site_active.mpr hw, flat := ⟨kv.table (key2Shard key), ?flat, rfl⟩,
           same := .refl kv _ }
  simp only [doGet, hr, Bool.false_eq_true, if_false, Req.flat, KvSrv.KVServer.get, KvSrv.get,
    table]
  cases kv.keyValue (key2Shard key)
  case none => rfl
  case some shardMap =>
    simp only [Option.getD_some]
    cases shardMap
    case none => rfl
    case some m =>
      simp only [Option.bind_some, Option.getD_some]
      cases m key <;> rfl

theorem doOp_client {req : Req K V} {key resp} (hk : req.key = some key)
    (h : kv.doOp req = some (kv', resp)) :
    (kv' = kv ∧ resp.err = .errWrongGroup) ∨
    (resp.err ≠ .errWrongGroup ∧ Executes kv kv' (key2Shard key) req resp) := by
  have executed (hx : Executes kv kv' (key2Shard key) req resp) :
      resp.err ≠ .errWrongGroup ∧ Executes kv kv' (key2Shard key) req resp :=
    have ⟨_, hf, _⟩ := hx.flat
    ⟨Req.flat_err hf, hx⟩
  cases hr : kv.rejects (key2Shard key) <;> cases req <;>
    simp only [Req.key, Option.some.injEq, reduceCtorEq] at hk <;> subst hk
  case false.put => exact .inr <| executed <| doPut_executes hr h
  case false.get =>
    obtain ⟨rfl, rfl⟩ := h
    exact .inr <| executed <| doGet_executes hr
  case true.put =>
    simp only [doOp, doPut, hr, if_true, Option.some.injEq, Prod.mk.injEq] at h
    obtain ⟨rfl, rfl⟩ := h
    exact .inl ⟨rfl, rfl⟩
  case true.get =>
    simp only [doOp, doGet, hr, if_true, Option.some.injEq, Prod.mk.injEq] at h
    obtain ⟨rfl, rfl⟩ := h
    exact .inl ⟨rfl, rfl⟩

end KVServer
end ShardKv
