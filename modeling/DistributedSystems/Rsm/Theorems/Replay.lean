import DistributedSystems.KvRaft
import DistributedSystems.ShardKv.Theorems.Group

namespace Rsm

variable {σ Req Res D : Type} {sm : StateMachine σ Req Res D} {log : List Req}

-- The replica's state behaves like the one of the replay, and `Restore` produces such a state if
-- the snapshot covers what the replica has.
structure StateMachine.Replays (sm : StateMachine σ Req Res D) (Same Covered : σ → σ → Prop) :
    Prop where
  init    : Same sm.init sm.init
  doOp    : ∀ {st r r' req res}, Same st r → sm.doOp r req = some (r', res) →
              ∃ st', sm.doOp st req = some (st', res) ∧ Same st' r'
  restore : ∀ {st r}, Covered st r → Same (sm.restore st (sm.snapshot r)) r

theorem StateMachine.replay_take_succ {index : Nat} {req : Req} (h : log[index]? = some req) :
    sm.replay (log.take (index + 1)) =
    (sm.replay (log.take index)).bind fun st => (sm.doOp st req).map Prod.fst := by
  rw [List.take_add_one, h, replay, List.foldlM_append]
  simp [replay]

namespace Replica

variable {s s' : Replica σ} {m : Message}

theorem next_cases (h : (replica sm log).next s m = some s') :
    (∃ req st res, m = .command ∧ log[s.index]? = some req ∧ sm.doOp s.sm req = some (st, res) ∧
      s' = ⟨st, s.index + 1⟩) ∨
    (∃ i r, m = .snapshot i ∧ sm.replay (log.take i) = some r ∧
      s' = ⟨sm.restore s.sm (sm.snapshot r), i⟩) := by
  cases m <;> simp only [replica, Message.applyMsg, Option.bind_eq_bind] at h
  case command =>
    cases hl : log[s.index]? <;>
      simp only [hl, Option.map_none, Option.bind_none, reduceCtorEq] at h
    case some req =>
      cases hd : sm.doOp s.sm req <;> simp [hd, StateMachine.read, ApplyMsg.index] at h
      case some r => exact .inl ⟨req, r.fst, r.snd, rfl, rfl, hd, h.symm⟩
  case snapshot i =>
    split_ifs at h
    case neg => contradiction
    case pos =>
      cases hr : sm.replay (log.take i) <;> simp [hr, StateMachine.read, ApplyMsg.index] at h
      case some r => exact .inr ⟨i, r, rfl, hr, h.symm⟩

-- A snapshot arrives that does not cover what the replica has.
def Uncovered (sm : StateMachine σ Req Res D) (log : List Req) (Covered : σ → σ → Prop)
    (s : Replica σ) :
    Message → Prop
  | .command    => False
  | .snapshot i => ∃ r, sm.replay (log.take i) = some r ∧ ¬Covered s.sm r

-- The state of the replica is the one of the replay, unless the replay has panicked.
def Faithful (sm : StateMachine σ Req Res D) (log : List Req) (Same : σ → σ → Prop)
    (s : Replica σ) : Prop :=
  ∀ r, sm.replay (log.take s.index) = some r → Same s.sm r

theorem Faithful.step {Same Covered : σ → σ → Prop} (h : sm.Replays Same Covered)
    (hs : s.Faithful sm log Same) (hn : (replica sm log).next s m = some s')
    (hc : ¬s.Uncovered sm log Covered m) : s'.Faithful sm log Same := by
  intro r' hr'
  obtain ⟨req, st, res, rfl, hl, hd, rfl⟩ | ⟨i, r, rfl, hr, rfl⟩ := next_cases hn
  case inl =>
    rw [StateMachine.replay_take_succ hl] at hr'
    have ⟨r, hr, hr'⟩ := Option.bind_eq_some_iff.mp hr'
    have ⟨⟨_, res'⟩, hd', rfl⟩ := Option.map_eq_some_iff.mp hr'
    have ⟨st', hd'', hs'⟩ := h.doOp (hs r hr) hd'
    obtain ⟨rfl, -⟩ := Prod.mk.inj (Option.some.inj (hd.symm.trans hd''))
    exact hs'
  case inr =>
    obtain rfl := Option.some.inj (hr.symm.trans hr')
    exact h.restore <| by_contra fun hn => hc ⟨r, hr, hn⟩

theorem faithful {Same Covered : σ → σ → Prop} (h : sm.Replays Same Covered)
    (b : (replica sm log).Behavior) (hc : b.Avoids (Uncovered sm log Covered)) (i : Nat) :
    (b.state i).Faithful sm log Same := by
  refine b.invariant (fun r hr => ?start) (fun j m _ hm hn hs => hs.step h hn (hc j m hm)) i
  obtain rfl : sm.init = r := by simpa [replica, StateMachine.replay] using hr
  exact h.init

end Replica
end Rsm

namespace KvRaft

variable {K V : Type} [DecidableEq K]

-- The replica has no keys that are not in the snapshot.
def KVServer.Covered (kv r : KVServer K V) : Prop :=
  ∀ key, (kv key).isSome → (r key).isSome

theorem replays : (stateMachine K V).Replays Eq KVServer.Covered where
  init         := rfl
  doOp hs hd   := hs ▸ ⟨_, hd, rfl⟩
  restore {kv r} hc := by
    funext key
    have := hc key
    cases hr : r key <;> simp_all [stateMachine, KVServer.restore, KVServer.snapshot]

-- No operation panics.
theorem replay_isSome (log : List (Req K V)) : ((stateMachine K V).replay log).isSome := by
  suffices h :
      ∀ st, (log.foldlM (fun st req => ((stateMachine K V).doOp st req).map Prod.fst) st).isSome
        from h _
  induction log
  case nil       => exact fun _ => rfl
  case cons _ hi => exact fun st => hi _

end KvRaft

namespace ShardKv

open KvSrv

variable {K V : Type}

namespace KVServer

variable {kv r kv' r' : KVServer K V} {shardId : Shard}

-- The replica has no shards that are not in the snapshot.
def Covered (kv r : KVServer K V) : Prop :=
  (∀ shardId, (kv.keyValue shardId).isSome → (r.keyValue shardId).isSome) ∧
  (∀ shardId, (kv.shardConfiguration shardId).isSome → (r.shardConfiguration shardId).isSome)

-- The replica may have an empty map where the replay has a nil map.
structure Same (kv r : KVServer K V) : Prop where
  shardConfiguration : kv.shardConfiguration = r.shardConfiguration
  keyValue           : ∀ shardId, (kv.keyValue shardId = r.keyValue shardId) ∨
                         (kv.keyValue shardId = some (some .empty) ∧ r.keyValue shardId = some none)

namespace Same

theorem refl : kv.Same kv where
  shardConfiguration := rfl
  keyValue _         := .inl rfl

theorem tables (h : kv.Same r) : kv.tables = r.tables := by
  funext shardId
  rcases h.keyValue shardId with h | ⟨h, h'⟩ <;> simp [KVServer.tables, *]

theorem config (h : kv.Same r) : kv.config = r.config := by
  funext shardId
  rw [KVServer.config, KVServer.config, h.shardConfiguration]

theorem setConfig (h : kv.Same r) (config : Config) :
    (kv.setConfig shardId config).Same (r.setConfig shardId config) where
  shardConfiguration := by simp only [KVServer.setConfig, h.shardConfiguration]
  keyValue           := h.keyValue

-- The same happens to one shard of both.
theorem update (h : kv.Same r) (shardMap : Option (Option (Table K V))) :
    { kv with keyValue := Function.update kv.keyValue shardId shardMap }.Same
    { r with keyValue := Function.update r.keyValue shardId shardMap } where
  shardConfiguration := h.shardConfiguration
  keyValue shardId'  := by
    by_cases hs : shardId' = shardId
    case pos => simp [hs]
    case neg => simpa [Function.update_of_ne hs] using h.keyValue shardId'

theorem restore (h : kv.Covered r) : (kv.restore r.snapshot).Same r := by
  refine { shardConfiguration := funext fun shardId => ?config, keyValue := fun shardId => ?table }
  case config =>
    have := h.right shardId
    cases hr : r.shardConfiguration shardId <;> simp_all [KVServer.restore, snapshot]
  case table =>
    have := h.left shardId
    rcases hr : r.keyValue shardId with _ | _ | m <;>
      simp_all [KVServer.restore, snapshot, KVServer.tables]

-- The table that is handed out is never nil.
theorem doFreezeShard (h : kv.Same r) (shardId : Shard) (configVersion : Nat) {res : Resp K V}
    (hr : r.doFreezeShard shardId configVersion = (r', res)) :
    ∃ kv', kv.doFreezeShard shardId configVersion = (kv', res) ∧ kv'.Same r' := by
  have ht : ((kv.keyValue shardId).getD none).getD .empty =
      ((r.keyValue shardId).getD none).getD .empty := by
    rcases h.keyValue shardId with hk | ⟨hk, hk'⟩ <;> simp [*]
  simp only [KVServer.doFreezeShard, h.config, ht] at hr ⊢
  split_ifs at hr ⊢ <;> cases hr
  case pos   => exact ⟨kv, rfl, h⟩
  case pos   => exact ⟨kv, rfl, h⟩
  case neg   => exact ⟨_, rfl, h.setConfig _⟩

variable [Sharded K]

open Sharded

theorem doGet (h : kv.Same r) (key : K) : kv.doGet key = r.doGet key := by
  rcases h.keyValue (key2Shard key) with hk | ⟨hk, hk'⟩ <;>
    simp [KVServer.doGet, rejects, h.config, Table.empty, *]

variable [DecidableEq K]

-- A write to a nil map would panic, and nothing else distinguishes it from an empty map.
theorem doPut (h : kv.Same r) {key : K} {value : V} {version : Nat} {res : Resp K V}
    (hr : r.doPut key value version = some (r', res)) :
    ∃ kv', kv.doPut key value version = some (kv', res) ∧ kv'.Same r' := by
  have hj : kv.rejects (key2Shard key) = r.rejects (key2Shard key) := by
    simp only [rejects, h.config]
  cases hj' : r.rejects (key2Shard key)
  case true =>
    simp only [KVServer.doPut, hj, hj', if_true, Option.some.injEq, Prod.mk.injEq] at hr ⊢
    obtain ⟨rfl, rfl⟩ := hr
    exact ⟨kv, ⟨rfl, rfl⟩, h⟩
  case false =>
    rw [doPut_eq hj'] at hr
    rw [doPut_eq (hj.trans hj')]
    rcases h.keyValue (key2Shard key) with hk | ⟨hk, hk'⟩
    case inl =>
      rw [hk]
      split at hr
      case h_1 =>
        split_ifs at hr ⊢
        cases hr
        exact ⟨_, rfl, h.update _⟩
      case h_2 m _ =>
        cases hr
        exact ⟨_, rfl, h.update _⟩
    case inr =>
      simp only [hk, hk', Option.getD_some] at hr ⊢
      split_ifs at hr with hv
      cases hr
      have hp : KvSrv.put ((Table.empty : Table K V) key) value version = (none, .errNoKey) :=
        if_pos hv
      have hu : Function.update (Table.empty : Table K V) key none = Table.empty :=
        Function.update_eq_self ..
      simp only [hp, hu]
      refine ⟨_, rfl, { shardConfiguration := h.shardConfiguration, keyValue := fun shardId => ?_ }⟩
      by_cases hs : shardId = key2Shard key
      case pos => simp [setMap, hs]
      case neg => simpa [setMap, Function.update_of_ne hs] using h.keyValue shardId

theorem doOp (h : kv.Same r) {req : Req K V} {res : Resp K V} (hr : r.doOp req = some (r', res)) :
    ∃ kv', kv.doOp req = some (kv', res) ∧ kv'.Same r' := by
  cases req <;> simp only [KVServer.doOp, Option.some.injEq] at hr ⊢
  case put key value version                   => exact h.doPut hr
  case get key                                 => cases hr; exact ⟨kv, by rw [h.doGet], h⟩
  case freezeShard shardId configVersion       => exact h.doFreezeShard shardId configVersion hr
  case installShard shardId state configVersion =>
    simp only [doInstallShard, h.config] at hr ⊢
    split_ifs at hr ⊢ <;> cases hr
    · exact ⟨kv, rfl, h⟩
    · exact ⟨_, rfl, (h.setConfig _).update _⟩
  case deleteShard shardId configVersion =>
    simp only [doDeleteShard, h.config] at hr ⊢
    split_ifs at hr ⊢ <;> cases hr
    · exact ⟨kv, rfl, h⟩
    · exact ⟨_, rfl, (h.setConfig _).update _⟩

end Same
end KVServer

theorem replays [DecidableEq K] [Sharded K] (gid : Gid) :
    (stateMachine K V gid).Replays KVServer.Same KVServer.Covered where
  init       := .refl
  doOp hs hd := hs.doOp hd
  restore hc := .restore hc

end ShardKv

namespace Rsm.Replica

variable {K V : Type} [DecidableEq K]

-- As long as each snapshot covers what the replica has, the maps of the replica are those of the
-- replayed operations.
theorem replica_replays [ShardKv.Sharded K] :
    (∀ (log : List (KvRaft.Req K V)) (b : (replica (KvRaft.stateMachine K V) log).Behavior),
      b.Avoids (Uncovered (KvRaft.stateMachine K V) log KvRaft.KVServer.Covered) →
      ∀ i, (KvRaft.stateMachine K V).replay (log.take (b.state i).index) = some (b.state i).sm) ∧
    (∀ gid (log : List (ShardKv.Req K V))
      (b : (replica (ShardKv.stateMachine K V gid) log).Behavior),
      b.Avoids (Uncovered (ShardKv.stateMachine K V gid) log ShardKv.KVServer.Covered) →
      ∀ i r, (ShardKv.stateMachine K V gid).replay (log.take (b.state i).index) = some r →
        (b.state i).sm.tables = r.tables ∧
        (b.state i).sm.shardConfiguration = r.shardConfiguration) := by
  refine ⟨fun log b hb i => ?kvraft, fun gid log b hb i r hr => ?shardgrp⟩
  case kvraft =>
    have ⟨r, hr⟩ := Option.isSome_iff_exists.mp (KvRaft.replay_isSome (log.take (b.state i).index))
    rw [hr, faithful KvRaft.replays b hb i r hr]
  case shardgrp =>
    have h := faithful (ShardKv.replays gid) b hb i r hr
    exact ⟨h.tables, h.shardConfiguration⟩

-- Logs of both servers. The shard of the key "a" is 4.

def puts : List (KvRaft.Req (List UInt8) Nat) :=
  [.put [97] 1 0, .put [98] 2 0]

def installAndDelete : List (ShardKv.Req (List UInt8) Nat) :=
  [.installShard 4 (some .empty) 2, .put [97] 1 0, .deleteShard 4 3]

-- The replica executes one operation and then receives a snapshot that covers it.
theorem avoids_of_covered {σ Req Res D : Type} {sm : StateMachine σ Req Res D} {log : List Req}
    {Covered : σ → σ → Prop} {index : Nat} {h} {r : σ} (hr : sm.replay (log.take index) = some r)
    (hc : Covered
      ((System.Behavior.ofActions (replica sm log) [.command, .snapshot index] h).state 1).sm r) :
    (System.Behavior.ofActions (replica sm log) [.command, .snapshot index] h).Avoids
      (Uncovered sm log Covered) := by
  intro i m hm
  rcases i with _ | _ | i
  · cases hm
    exact id
  · cases hm
    rintro ⟨r', hr', hn⟩
    exact hn (Option.some.inj (hr.symm.trans hr') ▸ hc)
  · contradiction

theorem replica_replays_lagging :
    ∃ (b₁ : (replica (KvRaft.stateMachine (List UInt8) Nat) puts).Behavior)
      (b₂ : (replica (ShardKv.stateMachine (List UInt8) Nat 2) installAndDelete).Behavior),
      (((b₁.state 1).sm [97]).isSome ∧ (b₁.state 2).index = 2) ∧
      (((b₂.state 1).sm.keyValue 4).isSome ∧ (b₂.state 2).index = 2) ∧
      ((KvRaft.stateMachine (List UInt8) Nat).replay puts = some (b₁.state 2).sm) ∧
      (∃ r, (ShardKv.stateMachine (List UInt8) Nat 2).replay (installAndDelete.take 2) = some r ∧
        (b₂.state 2).sm.tables = r.tables) := by
  let b₁ := System.Behavior.ofActions (replica (KvRaft.stateMachine (List UInt8) Nat) puts)
    [.command, .snapshot 2] (by decide +kernel)
  let b₂ := System.Behavior.ofActions
    (replica (ShardKv.stateMachine (List UInt8) Nat 2) installAndDelete)
    [.command, .snapshot 2] (by decide +kernel)
  have ⟨r₁, hr₁⟩ : ∃ r, (KvRaft.stateMachine (List UInt8) Nat).replay (puts.take 2) = some r :=
    Option.isSome_iff_exists.mp (by decide +kernel)
  have ⟨r₂, hr₂⟩ :
      ∃ r, (ShardKv.stateMachine (List UInt8) Nat 2).replay (installAndDelete.take 2) = some r :=
    Option.isSome_iff_exists.mp (by decide +kernel)
  have h₁ : b₁.Avoids
      (Uncovered (KvRaft.stateMachine (List UInt8) Nat) puts KvRaft.KVServer.Covered) := by
    refine avoids_of_covered hr₁ fun key hk => ?_
    have hkey : key = [97] := by
      by_contra hne
      have hn : (b₁.state 1).sm key = none := Function.update_of_ne hne ..
      exact absurd hk (by rw [hn]; decide)
    subst hkey
    have hs : ((KvRaft.stateMachine (List UInt8) Nat).replay (puts.take 2)).any
        (· [97] |>.isSome) := by
      decide +kernel
    rwa [hr₁] at hs
  have h₂ : b₂.Avoids (Uncovered (ShardKv.stateMachine (List UInt8) Nat 2) installAndDelete
      ShardKv.KVServer.Covered) := by
    refine avoids_of_covered hr₂ ?_
    obtain rfl := Option.some.inj hr₂
    exact ⟨by decide +kernel, by decide +kernel⟩
  exact ⟨b₁, b₂, by decide +kernel, by decide +kernel, replica_replays.left puts b₁ h₁ 2, r₂, hr₂,
    (replica_replays.right 2 installAndDelete b₂ h₂ 2 r₂ hr₂).left⟩

-- A snapshot of an earlier state leaves the second key in place. A snapshot after the deletion of a
-- shard leaves the table of the shard in place.
theorem replica_diverges :
    (∃ (b : (replica (KvRaft.stateMachine (List UInt8) Nat) puts).Behavior) (i : Nat) (r : _),
      (KvRaft.stateMachine (List UInt8) Nat).replay (puts.take (b.state i).index) = some r ∧
      (b.state i).sm ≠ r) ∧
    (∃ (b : (replica (ShardKv.stateMachine (List UInt8) Nat 2) installAndDelete).Behavior) (i : Nat)
      (r : _),
      (ShardKv.stateMachine (List UInt8) Nat 2).replay
        (installAndDelete.take (b.state i).index) = some r ∧
      (b.state i).sm.tables ≠ r.tables) := by
  let b₁ := System.Behavior.ofActions (replica (KvRaft.stateMachine (List UInt8) Nat) puts)
    [.command, .command, .snapshot 1] (by decide +kernel)
  let b₂ := System.Behavior.ofActions
    (replica (ShardKv.stateMachine (List UInt8) Nat 2) installAndDelete)
    [.command, .command, .snapshot 3] (by decide +kernel)
  have ⟨r₁, hr₁⟩ :
      ∃ r, (KvRaft.stateMachine (List UInt8) Nat).replay (puts.take (b₁.state 3).index) = some r :=
    Option.isSome_iff_exists.mp (by decide +kernel)
  have ⟨r₂, hr₂⟩ : ∃ r, (ShardKv.stateMachine (List UInt8) Nat 2).replay
      (installAndDelete.take (b₂.state 3).index) = some r :=
    Option.isSome_iff_exists.mp (by decide +kernel)
  refine ⟨⟨b₁, 3, r₁, hr₁, fun h => ?kvraft⟩, ⟨b₂, 3, r₂, hr₂, fun h => ?shardgrp⟩⟩
  case kvraft =>
    have hn : ((KvRaft.stateMachine (List UInt8) Nat).replay (puts.take (b₁.state 3).index)).map
        (· [98]) ≠
        some ((b₁.state 3).sm [98]) := by decide +kernel
    simp [hr₁, h] at hn
  case shardgrp =>
    have hn : ((ShardKv.stateMachine (List UInt8) Nat 2).replay
        (installAndDelete.take (b₂.state 3).index)).map (fun r => (r.tables 4).isSome) ≠
        some ((b₂.state 3).sm.tables 4).isSome := by decide +kernel
    simp [hr₂, h] at hn

end Rsm.Replica
