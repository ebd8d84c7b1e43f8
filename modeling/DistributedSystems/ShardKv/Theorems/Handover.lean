import DistributedSystems.ShardKv.Theorems.Chain

-- The moves of each shard refine a handover between the groups, and the groups together refine one
-- flat store.
namespace ShardKv

open KvSrv Sharded

variable {K V Id : Type} [Sharded K]

-- The part of a flat store that belongs to one shard.
def restrict (kv : KvSrv.KVServer K V) (shardId : Shard) : Table K V :=
  fun key => if key2Shard key = shardId then kv key else none

theorem restrict_key2Shard (kv : KvSrv.KVServer K V) (key : K) :
    restrict kv (key2Shard key) key = kv key :=
  if_pos rfl

theorem restrict_update [DecidableEq K] (kv : KvSrv.KVServer K V) (key : K) (entry) :
    restrict (Function.update kv key entry) (key2Shard key) =
    Function.update (restrict kv (key2Shard key)) key entry := by
  funext k
  by_cases hk : k = key
  case pos => simp [restrict, hk]
  case neg => simp [restrict, Function.update_of_ne hk]

theorem restrict_update_of_ne [DecidableEq K] (kv : KvSrv.KVServer K V) {key : K} {shardId} (entry)
    (h : shardId ≠ key2Shard key) :
    restrict (Function.update kv key entry) shardId = restrict kv shardId := by
  funext k
  by_cases hk : k = key
  case pos => simp [restrict, hk, h.symm]
  case neg => simp [restrict, Function.update_of_ne hk]

-- A client's request needs the keys of its own shard only.
theorem Req.flat_restrict [DecidableEq K] {req : Req K V} {key kv t resp} (hk : req.key = some key)
    (h : req.flat (restrict kv (key2Shard key)) = some (t, resp)) :
    ∃ kv', req.flat kv = some (kv', resp) ∧ restrict kv' (key2Shard key) = t ∧
    ∀ s ≠ key2Shard key, restrict kv' s = restrict kv s := by
  cases req <;> simp only [Req.key, Option.some.injEq, reduceCtorEq] at hk <;> subst hk <;>
    simp only [Req.flat, Option.some.injEq, Prod.mk.injEq, KvSrv.KVServer.put, KvSrv.KVServer.get,
      restrict_key2Shard] at h ⊢ <;> obtain ⟨rfl, rfl⟩ := h
  case put key value version =>
    exact ⟨_, ⟨rfl, rfl⟩, restrict_update kv key _, fun s hs => restrict_update_of_ne kv _ hs⟩
  case get key => exact ⟨_, ⟨rfl, rfl⟩, rfl, fun _ _ => rfl⟩

structure Ghost (K V : Type) where
  plan  : Nat → ShardConfig
  stage : Shard → Handover.Stage
  flat  : KvSrv.KVServer K V

namespace Servers

variable {sv sv' : Servers K V Id} {m m' : Ghost K V}

-- One shard as an object that is handed over. Its epochs are the numbers of the configurations.
def world (sv : Servers K V Id) (m : Ghost K V) (shardId : Shard) :
    Handover.World Gid (Table K V) where
  site gid := (sv.group gid).site shardId
  owner n  := (m.plan n).shards shardId
  bound    := sv.applyConfig.value.num
  epoch    := sv.config.value.num
  stage    := m.stage shardId
  value    := restrict m.flat shardId

def Models (sv : Servers K V Id) (m : Ghost K V) : Prop :=
  ∀ shardId, (sv.world m shardId).Valid

def Advances (sv : Servers K V Id) (m : Ghost K V) (sv' : Servers K V Id) (m' : Ghost K V) : Prop :=
  ∀ shardId, (sv.world m shardId).Advances (sv'.world m' shardId)

-- A request that belongs to the handover of its shard.
def Permits (sv : Servers K V Id) (m : Ghost K V) (gid : Gid) (req : Req K V) : Prop :=
  ∃ shardId r, req.handover = some (shardId, r) ∧ (sv.world m shardId).Allows gid r

-- The shard has been moved into configuration `n`, or it need not be moved.
def Finished (sv : Servers K V Id) (m : Ghost K V) (n : Nat) (shardId : Shard) : Prop :=
  n = sv.config.value.num + 1 →
  m.stage shardId = .released ∨ (m.plan (n - 1)).shards shardId = (m.plan n).shards shardId

theorem Advances.permits (h : sv.Advances m sv' m') (hm : sv.Models m) {gid req}
    (hp : sv.Permits m gid req) : sv'.Permits m' gid req := by
  have ⟨shardId, r, hr, ha⟩ := hp
  exact ⟨shardId, r, hr, (h shardId).allows ha (hm shardId).bound_le⟩

theorem Advances.finished (h : sv.Advances m sv' m') (hm : sv.Models m) {n shardId}
    (hn : n ≤ sv.applyConfig.value.num) (hf : sv.Finished m n shardId) :
    sv'.Finished m' n shardId := by
  intro hn'
  have hb : sv.applyConfig.value.num ≤ sv.config.value.num + 1 := (hm shardId).bound_le
  have hle : sv.config.value.num ≤ sv'.config.value.num := (h shardId).epoch
  have he : sv'.config.value.num = sv.config.value.num := by omega
  cases hf (by omega)
  case inl hs =>
    have hs' : m.stage shardId ≤ m'.stage shardId := (h shardId).stage he
    rw [hs] at hs'
    refine .inl ?_
    revert hs'
    cases m'.stage shardId <;> decide
  case inr ho =>
    have h₁ : (m'.plan n).shards shardId = (m.plan n).shards shardId := (h shardId).owner n hn
    have h₂ : (m'.plan (n - 1)).shards shardId = (m.plan (n - 1)).shards shardId :=
      (h shardId).owner (n - 1) (Nat.le_trans (Nat.sub_le ..) hn)
    exact .inr (by rw [h₁, h₂, ho])

end Servers

-- A controller works on the successor of the configuration that it has found, and it has moved all
-- shards up to the current one.
structure Job.Sound (job : Job) (shardId : Shard) (sv : Servers K V Id) (m : Ghost K V) : Prop where
  successor : job.newCfg.num = job.oldCfg.num + 1
  earlier   : ∀ s < shardId, sv.Finished m job.newCfg.num s

def Caller.Sound (caller : Caller K V) (sv : Servers K V Id) (m : Ghost K V) : Prop :=
  match caller with
  | .changeConfiguration => True
  | .moveShardToGroup job shardId move =>
    job.Sound shardId sv m ∧ sv.Permits m (job.gid shardId move) (job.req shardId move)
  | .nextShard job shardId moved =>
    job.Sound shardId sv m ∧ (moved = true → sv.Finished m job.newCfg.num shardId)

def Pc.Sound (pc : Pc K V) (sv : Servers K V Id) (m : Ghost K V) : Prop :=
  match pc with
  | .acquireLockPut caller | .acquireLockGet caller => caller.Sound sv m
  | .moveShardToGroup job shardId move =>
    job.Sound shardId sv m ∧ sv.Permits m (job.gid shardId move) (job.req shardId move)
  | .publishQuery newCfg | .publishPut newCfg => ∀ s, sv.Finished m newCfg.num s
  | _ => True

namespace Servers.Advances

variable {sv sv' : Servers K V Id} {m m' : Ghost K V}

theorem job (h : sv.Advances m sv' m') (hm : sv.Models m) {job : Job} {shardId}
    (hc : job.Chained sv m.plan) (hs : job.Sound shardId sv m) : job.Sound shardId sv' m' where
  successor   := hs.successor
  earlier s l := h.finished hm hc.right.left (hs.earlier s l)

theorem caller (h : sv.Advances m sv' m') (hm : sv.Models m) {caller : Caller K V}
    (hc : caller.Chained sv m.plan) (hs : caller.Sound sv m) : caller.Sound sv' m' := by
  cases caller
  case changeConfiguration => trivial
  case moveShardToGroup    => exact ⟨h.job hm hc hs.left, h.permits hm hs.right⟩
  case nextShard => exact ⟨h.job hm hc hs.left, fun hd => h.finished hm hc.right.left (hs.right hd)⟩

theorem pc (h : sv.Advances m sv' m') (hm : sv.Models m) {pc : Pc K V} {v}
    (hc : pc.Chained v sv m.plan) (hs : pc.Sound sv m) : pc.Sound sv' m' := by
  cases pc
  case acquireLockPut | acquireLockGet => exact h.caller hm hc hs
  case moveShardToGroup => exact ⟨h.job hm hc hs.left, h.permits hm hs.right⟩
  case publishQuery | publishPut => exact fun s => h.finished hm hc.left (hs s)
  all_goals trivial

end Servers.Advances

namespace Servers

variable [DecidableEq K] {sv sv' : Servers K V Id} {m m' : Ghost K V}

def moved (sv : Servers K V Id) (m : Ghost K V) (shardId : Shard)
    (r : Handover.Request (Table K V)) :
    Ghost K V :=
  { m with stage := Function.update m.stage shardId ((sv.world m shardId).after r) }

omit [DecidableEq K] in
theorem world_update (gid : Gid) (kv : KVServer K V) (shardId : Shard) :
    { sv with group := Function.update sv.group gid kv }.world m shardId =
    { sv.world m shardId with
      site := Function.update (sv.world m shardId).site gid (kv.site shardId) } := by
  simp only [world, Handover.World.mk.injEq, and_true]
  exact Function.comp_update (KVServer.site · shardId) sv.group gid kv

-- A request of a controller takes part in the handover of its shard and leaves the others alone.
theorem world_doOp {gid req shardId r resp} (hr : req.handover = some (shardId, r))
    (h : sv.doOp gid req = some (sv', resp)) :
    sv'.world (sv.moved m shardId r) shardId = (sv.world m shardId).serve gid r ∧
    ∀ s ≠ shardId, sv'.world (sv.moved m shardId r) s = sv.world m s := by
  obtain ⟨kv, hd, rfl⟩ := doOp_some h
  obtain ⟨kv', _, hd', hx, hsame⟩ := (sv.group gid).doOp_handover hr
  cases hd.symm.trans hd'
  refine ⟨?_, fun s hs => ?_⟩ <;> simp only [world_update, moved]
  · simp only [Handover.World.serve, world, hx, Function.update_self]
  · simp only [hsame.site hs, Function.update_of_ne hs, world]
    congr 1
    exact Function.update_eq_self gid fun g => (sv.group g).site s

theorem Models.doOp (hm : sv.Models m) {gid req shardId r resp}
    (hr : req.handover = some (shardId, r)) (ha : (sv.world m shardId).Allows gid r)
    (h : sv.doOp gid req = some (sv', resp)) :
    sv'.Models (sv.moved m shardId r) ∧ sv.Advances m sv' (sv.moved m shardId r) := by
  have ⟨h₁, h₂⟩ := world_doOp (m := m) hr h
  refine ⟨fun s => ?_, fun s => ?_⟩ <;> by_cases hs : s = shardId
  · rw [hs, h₁]
    exact (hm shardId).serve ha
  · rw [h₂ s hs]
    exact hm s
  · rw [hs, h₁]
    exact .serve ..
  · rw [h₂ s hs]
    exact .refl _

-- A client's request is executed on the flat store, unless the group refuses it.
theorem Models.client (hm : sv.Models m) {gid req key resp} (hk : req.key = some key)
    (h : sv.doOp gid req = some (sv', resp)) :
    (sv' = sv ∧ resp.err = .errWrongGroup) ∨
    (resp.err ≠ .errWrongGroup ∧ ∃ flat, req.flat m.flat = some (flat, resp) ∧
      sv'.Models { m with flat } ∧ sv.Advances m sv' { m with flat }) := by
  obtain ⟨kv, hd, rfl⟩ := doOp_some h
  obtain ⟨rfl, he⟩ | ⟨he, hx⟩ := KVServer.doOp_client hk hd
  case inl => exact .inl ⟨by rw [Function.update_eq_self], he⟩
  case inr =>
    refine .inr ⟨he, ?_⟩
    have ⟨t, hf, hs⟩ := hx.flat
    -- The group has the keys of the shard as the flat store has them.
    have hv : (sv.group gid).table (key2Shard key) = restrict m.flat (key2Shard key) :=
      ((hm (key2Shard key)).active hx.active).left
    rw [hv] at hf
    have ⟨flat, hf, ht, ho⟩ := Req.flat_restrict hk hf
    have h₁ :
        { sv with group := Function.update sv.group gid kv }.world { m with flat }
          (key2Shard key) = (sv.world m (key2Shard key)).write gid t := by
      rw [world_update]
      simp only [Handover.World.write, world, hs, ht]
    have h₂ s (hn : s ≠ key2Shard key) :
        { sv with group := Function.update sv.group gid kv }.world { m with flat } s =
          sv.world m s := by
      rw [world_update]
      simp only [world, hx.same.site hn, ho s hn]
      congr 1
      exact Function.update_eq_self gid fun g => (sv.group g).site s
    refine ⟨flat, hf, fun s => ?_, fun s => ?_⟩ <;> by_cases hn : s = key2Shard key
    · rw [hn, h₁]
      exact (hm _).write hx.active t
    · rw [h₂ s hn]
      exact hm s
    · rw [hn, h₁]
      exact .write (hm _) hx.active t
    · rw [h₂ s hn]
      exact .refl _

omit [DecidableEq K] in
theorem Models.saved (hm : sv.Models m) (hs : sv.Chained m.plan) {new : ShardConfig} (version : Nat)
    (h₁ : new.num ≤ sv.config.value.num + 1) (h₂ : sv.applyConfig.value.num < new.num) :
    { sv with applyConfig := ⟨version, new⟩ }.Models
      { m with plan := Function.update m.plan new.num new } ∧
    sv.Advances m { sv with applyConfig := ⟨version, new⟩ }
      { m with plan := Function.update m.plan new.num new } := by
  have hle := hs.le
  have hn : new.num = sv.config.value.num + 1 := by omega
  have hw s : { sv with applyConfig := ⟨version, new⟩ }.world
      { m with plan := Function.update m.plan new.num new } s =
      (sv.world m s).plan fun n => (Function.update m.plan new.num new n).shards s := by
    simp [world, Handover.World.plan, hn]
  have ho s n (hn : n < new.num) :
      (Function.update m.plan new.num new n).shards s = (sv.world m s).owner n := by
    rw [Function.update_of_ne hn.ne]
    rfl
  refine ⟨fun s => ?_, fun s => ?_⟩ <;> rw [hw s]
  · exact (hm s).plan (by simp only [world]; omega) fun n h =>
      ho s n (by simp only [world] at h; omega)
  · exact .plan (hm s).bound_le fun n h => ho s n (by simp only [world] at h; omega)

omit [DecidableEq K] in
theorem Models.published (hm : sv.Models m) (hs : sv.Chained m.plan) {newCfg : ShardConfig}
    (version : Nat) (h₁ : newCfg.num ≤ sv.applyConfig.value.num)
    (h₂ : sv.config.value.num < newCfg.num) (hf : ∀ s, sv.Finished m newCfg.num s) :
    { sv with config := ⟨version, newCfg⟩ }.Models { m with stage := fun _ => .settled } ∧
    sv.Advances m { sv with config := ⟨version, newCfg⟩ }
      { m with stage := fun _ => .settled } := by
  have hle := hs.le_succ
  have hn : newCfg.num = sv.config.value.num + 1 := by omega
  have hw s :
      { sv with config := ⟨version, newCfg⟩ }.world { m with stage := fun _ => .settled } s =
        (sv.world m s).enter := by
    simp [world, Handover.World.enter, hn]
  refine ⟨fun s => ?_, fun s => ?_⟩ <;> rw [hw s]
  · refine (hm s).enter (by simp only [world]; omega) ?_
    have := hf s hn
    rwa [hn, Nat.add_sub_cancel] at this
  · exact .enter _

end Servers

section

variable {sv sv' : Servers K V Id} {m m' : Ghost K V} {sck : ShardCtrler K V} {job : Job}
  {shardId : Shard}

theorem Job.Sound.enter (h : job.Sound shardId sv m) (hc : job.Chained sv m.plan) :
    (job.enter shardId : Pc K V).Sound sv m := by
  have ⟨_, h₂, h₃, h₄⟩ := hc
  have hn : job.newCfg.num - 1 = job.oldCfg.num := by
    have := h.successor
    omega
  simp only [Job.enter]
  split
  case isTrue hne =>
    refine ⟨h, shardId, .freeze job.newCfg.num, rfl, ?_, h₂, ?_, ?_⟩
    · simp only [Handover.Request.epoch]
      omega
    · simpa only [Servers.world, Handover.Request.epoch, hn, h₃, h₄] using hne
    · simp only [Servers.world, Job.gid, hn, h₃]
  case isFalse he =>
    refine ⟨h, fun _ _ => .inr ?_⟩
    rw [hn, h₃, h₄]
    simpa using he

theorem Job.Sound.next (h : job.Sound shardId sv m) (hc : job.Chained sv m.plan)
    (hf : sv.Finished m job.newCfg.num shardId) : (job.next shardId : Pc K V).Sound sv m := by
  have he s (hs : s ≤ shardId) : sv.Finished m job.newCfg.num s := by
    cases lt_or_eq_of_le hs
    case inl hs => exact h.earlier s hs
    case inr hs => exact hs ▸ hf
  simp only [Job.next]
  split
  case isTrue hl =>
    refine Job.Sound.enter { h with earlier := fun s hs => he s ?_ } hc
    exact Fin.le_def.mpr (Nat.le_of_lt_succ hs)
  case isFalse hl =>
    exact fun s => he s <| Fin.le_def.mpr (by omega)

-- The condition excludes the callers whose move has been given up.
theorem Caller.Sound.acquired {caller : Caller K V} (h : caller.Sound sv m)
    (hc : caller.Chained sv m.plan) (hn : ∀ job shardId, caller ≠ .nextShard job shardId false)
    (v) :
    (sck.acquired v caller).pc.Sound sv m := by
  cases caller
  case changeConfiguration => trivial
  case moveShardToGroup    => exact h
  case nextShard job shardId moved =>
    cases moved
    case false => exact absurd rfl (hn job shardId)
    case true  => exact h.left.next hc (h.right rfl)

theorem Caller.Sound.denied {caller : Caller K V} (h : caller.Sound sv m) (b : Bool) :
    (sck.denied b caller).pc.Sound sv m := by
  cases caller
  case changeConfiguration => cases b <;> trivial
  case moveShardToGroup    => exact ⟨h.left, nofun⟩
  case nextShard           => trivial

end

-- The two steps after which a controller works on with a shard that has not been moved. It
-- - reads a configuration to apply that is not the successor of the one it has read before, since
--   other controllers have published a configuration and saved another one in between.
-- - acquires the lock again although it has just given up a move since it had lost the lock. This
--   needs a version of the lock that it has never read (`version + 1` in `acquireLock`).
def Pc.Hazard (pc : Pc K V) (lockVersion : Nat) (c : Id) (sv : Servers K V Id) : Prop :=
  match pc with
  | .getConfigToApply oldCfg                => oldCfg.num + 1 < sv.applyConfig.value.num
  | .acquireLockPut (.nextShard _ _ false) => sv.lockVersion = lockVersion
  | .acquireLockGet (.nextShard _ _ false) => sv.lockedBy c
  | _                                       => False

def ShardCtrler.Hazard (sck : ShardCtrler K V) (c : Id) (sv : Servers K V Id) : Prop :=
  sck.pc.Hazard sck.lockVersion c sv

theorem Servers.world_copy [DecidableEq K] {sv sv' : Servers K V Id} {m : Ghost K V}
    {gid shardId n state num err}
    (h : sv.doOp gid (.freezeShard shardId n) = some (sv', .freezeShard state num err)) :
    (((sv.world m shardId).site gid).copy n).getD default = state.getD .empty := by
  have ⟨_, h, _⟩ := doOp_some h
  have ⟨state', _, _, hr, hs⟩ := (sv.group gid).doFreezeShard_copy shardId n
  have hx := hr.symm.trans (congrArg Prod.snd (Option.some.inj h))
  cases hx
  exact hs.symm

namespace Servers.Models

variable [DecidableEq K] {sv sv' : Servers K V Id} {m : Ghost K V} {job : Job} {shardId : Shard}

-- A move takes the next step of its handover.
theorem move (hm : sv.Models m) (hs : sv.Chained m.plan) (hc : job.Chained sv m.plan)
    {move : Move K V} {resp} (hk : (Pc.moveShardToGroup job shardId move).Sound sv m)
    (hd : sv.doOp (job.gid shardId move) (job.req shardId move) = some (sv', resp)) :
    ∃ r, (job.req shardId move).handover = some (shardId, r) ∧
    (sv.world m shardId).Allows (job.gid shardId move) r ∧
    sv'.world (sv.moved m shardId r) shardId =
      (sv.world m shardId).serve (job.gid shardId move) r ∧
    (sv.moved m shardId r).plan = sv'.extend m.plan ∧ sv'.Models (sv.moved m shardId r) ∧
    sv.Advances m sv' (sv.moved m shardId r) ∧ job.Sound shardId sv' (sv.moved m shardId r) := by
  obtain ⟨hj, s, r, hr, ha⟩ := hk
  obtain rfl : s = shardId := by cases move <;> cases hr <;> rfl
  have ⟨hm', hadv⟩ := hm.doOp hr ha hd
  have hsame := SameConfigs.doOp hd
  exact ⟨r, hr, ha, (world_doOp hr hd).left, ((hsame.chained hs).extend_eq).symm, hm', hadv,
    hadv.job hm hc hj⟩

end Servers.Models

namespace Served

variable [DecidableEq K] {c : Id} {sv sv' : Servers K V Id} {sck sck' : ShardCtrler K V}
variable {m : Ghost K V}

theorem sound (h : Served c sv sck sv' sck') (hs : sv.Chained m.plan) (hc : sck.Chained sv m.plan)
    (hm : sv.Models m) (hk : sck.pc.Sound sv m) :
    ∃ m', m'.plan = sv'.extend m.plan ∧ m'.flat = m.flat ∧ sv'.Models m' ∧ sv.Advances m sv' m' ∧
    (¬ sck.Hazard c sv → sck'.pc.Sound sv' m') := by
  have hp := hs.extend_eq
  have hr : sv.Advances m sv m := fun s => .refl _
  simp only [ShardCtrler.Chained, ShardCtrler.Hazard, Pc.Hazard] at hc ⊢
  cases h
  case saveUnneeded | saveNeeded | notSaved | query | upToDate | publishUnneeded | notReleased =>
    exact ⟨m, hp.symm, rfl, hm, hr, fun _ => trivial⟩
  case released => exact ⟨m, hp.symm, rfl, hm, hr, fun _ => trivial⟩
  case saved new version hpc hv =>
    simp only [hpc, Pc.Chained, hv, true_implies] at hc
    obtain ⟨hm', ha⟩ := hm.saved hs (version + 1) hc.left hc.right.right
    exact ⟨{ m with plan := Function.update m.plan new.num new }, rfl, rfl, hm', ha,
      fun _ => trivial⟩
  case published newCfg hpc hv =>
    simp only [hpc, Pc.Chained, Pc.Sound, hv, true_implies] at hc hk
    obtain ⟨hm', ha⟩ := hm.published hs (sck.currentVersion + 1) hc.left hc.right.right.right hk
    exact ⟨{ m with stage := fun _ => .settled }, hp.symm, rfl, hm', ha, fun _ => trivial⟩
  case lockPut caller hpc hv =>
    rw [hpc] at hc hk
    have hr : sv.Advances m (sv.setLock (some c)) m := fun s => .refl _
    have he : sv.Extends (sv.setLock (some c)) m.plan m.plan :=
      Servers.SameConfigs.extends_self ⟨rfl, rfl⟩
    refine ⟨m, hp.symm, rfl, hm, hr, fun hz => ?_⟩
    refine Caller.Sound.acquired (hr.caller hm hc hk) (he.caller hc) ?_ _
    rintro job shardId rfl
    simp [hpc, hv] at hz
  case lockOwned caller hpc hl =>
    rw [hpc] at hc hk
    refine ⟨m, hp.symm, rfl, hm, hr, fun hz => Caller.Sound.acquired hk hc ?_ _⟩
    rintro job shardId rfl
    simp [hpc, hl] at hz
  case lockMissing => exact ⟨m, hp.symm, rfl, hm, hr, fun _ => hk⟩
  case lockNotPut hpc _ _ | lockFree hpc _ _ | publishNeeded hpc _ | notPublished hpc _ =>
    rw [hpc] at hk
    exact ⟨m, hp.symm, rfl, hm, hr, fun _ => hk⟩
  case lockLost hpc _ | lockTaken hpc _ _ =>
    rw [hpc] at hk
    exact ⟨m, hp.symm, rfl, hm, hr, fun _ => Caller.Sound.denied hk _⟩
  case outdated oldCfg hpc hn =>
    rw [hpc] at hc
    refine ⟨m, hp.symm, rfl, hm, hr, fun hz => ?_⟩
    simp only [hpc] at hz
    have hj : Job.Chained ⟨oldCfg, sv.applyConfig.value⟩ sv m.plan :=
      ⟨hn, le_rfl, hc.right, hs.applyConfig⟩
    refine Job.Sound.enter ⟨?_, fun _ h => absurd h (Fin.not_lt_zero _)⟩ hj
    change sv.applyConfig.value.num = oldCfg.num + 1
    omega
  case frozen job shardId state num err hpc hd =>
    simp only [hpc] at hc hk
    obtain ⟨r, hr, ha, hw, hp', hm', hadv, hj⟩ := hm.move hs hc hk hd
    cases hr
    refine ⟨_, hp', rfl, hm', hadv, fun _ => ⟨hj, shardId, _, rfl, ?_⟩⟩
    have ho : (sv.world m shardId).owner job.newCfg.num = job.newCfg.shards shardId := by
      simp only [Servers.world, hc.right.right.right]
    have hx := (hm shardId).allows_install ha
    simp only [Job.gid, Servers.world_copy hd, ho] at hx
    rw [hw]
    exact hx
  case installed job shardId state resp hpc hd =>
    simp only [hpc] at hc hk
    obtain ⟨r, hr, ha, hw, hp', hm', hadv, hj⟩ := hm.move hs hc hk hd
    cases hr
    refine ⟨_, hp', rfl, hm', hadv, fun _ => ⟨hj, shardId, _, rfl, ?_⟩⟩
    have ho : (sv.world m shardId).owner (job.newCfg.num - 1) = job.oldCfg.shards shardId := by
      simp only [Servers.world, hj.successor, Nat.add_sub_cancel, hc.right.right.left]
    have hx := ha.release
    rw [ho] at hx
    rw [hw]
    exact hx
  case deleted job shardId resp hpc hd =>
    simp only [hpc] at hc hk
    obtain ⟨r, hr, ha, hw, hp', hm', hadv, hj⟩ := hm.move hs hc hk hd
    cases hr
    refine ⟨_, hp', rfl, hm', hadv, fun _ => ⟨hj, fun _ hn => .inl ?_⟩⟩
    rw [(Servers.SameConfigs.doOp hd).left] at hn
    exact (congrArg Handover.World.stage hw).trans (Handover.World.serve_release hn)

end Served

namespace State

variable {s s' : State K V Id} {m m' : Ghost K V}

structure Refines (s : State K V Id) (m : Ghost K V) : Prop where
  chained : s.Chained m.plan
  models  : s.servers.Models m
  sent    : ∀ c gid req, (c, gid, req) ∈ s.sent → s.servers.Permits m gid req
  ctrler  : ∀ c, (s.ctrler c).pc.Sound s.servers m

def Hazard (s : State K V Id) : Event K V Id → Prop
  | .rpc c => (s.ctrler c).Hazard c s.servers
  | _      => False

-- The request of a client that a group accepts, and its response.
def accepts [DecidableEq K] (s : State K V Id) : Event K V Id → Option (Req K V × Resp K V)
  | .client gid req =>
    (s.servers.doOp gid req).bind fun (_, resp) =>
      if resp.err = .errWrongGroup then none else some (req, resp)
  | _ => none

-- The servers take a step. What has been sent remains permitted, and all controllers may continue.
theorem Refines.later (h : s.Refines m) (hc : s'.Chained m'.plan) (hm : s'.servers.Models m')
    (ha : s.servers.Advances m s'.servers m') (hs : s'.sent = s.sent) (hk : s'.ctrler = s.ctrler) :
    s'.Refines m' where
  chained           := hc
  models            := hm
  sent c gid req hr := ha.permits h.models (h.sent c gid req (hs ▸ hr))
  ctrler c          := hk ▸ ha.pc h.models (h.chained.ctrler c) (h.ctrler c)

theorem Refines.send (h : s.Refines m) {c rpc}
    (hp : ∀ gid req, rpc = .group gid req → s.servers.Permits m gid req) :
    (s.send c rpc).Refines m := by
  cases rpc
  case group gid req =>
    refine { h with chained := { h.chained with }, sent := fun c' gid' req' hr => ?_ }
    cases hr
    case head    => exact hp gid req rfl
    case tail hr => exact h.sent c' gid' req' hr
  all_goals exact h

theorem Refines.setCtrler [DecidableEq Id] (h : s.Refines m) {c sck}
    (hc : sck.Chained s.servers m.plan) (hs : sck.pc.Sound s.servers m) :
    (s.setCtrler c sck).Refines m where
  chained := h.chained.setCtrler hc
  models  := h.models
  sent    := h.sent
  ctrler c' := by
    by_cases hn : c' = c
    case pos => simpa [State.setCtrler, hn] using hs
    case neg => simpa [State.setCtrler, Function.update_of_ne hn] using h.ctrler c'

theorem Refines.permits (h : s.Refines m) {c gid req}
    (hr : (s.ctrler c).rpc c = some (.group gid req)) :
    s.servers.Permits m gid req := by
  have hs := h.ctrler c
  obtain ⟨job, shardId, move, hpc, rfl, rfl⟩ := ShardCtrler.rpc_group hr
  rw [hpc] at hs
  exact hs.right

variable [DecidableEq K]

theorem Refines.doOp (h : s.Refines m) {gid req servers resp} (hp : s.servers.Permits m gid req)
    (hd : s.servers.doOp gid req = some (servers, resp)) :
    ∃ m', m'.flat = m.flat ∧ { s with servers }.Refines m' := by
  have ⟨shardId, r, hr, ha⟩ := hp
  have ⟨hm, hadv⟩ := h.models.doOp hr ha hd
  have hsame := Servers.SameConfigs.doOp hd
  refine ⟨s.servers.moved m shardId r, rfl, h.later ?_ hm hadv rfl rfl⟩
  exact h.chained.later (hsame.chained h.chained.servers) hsame.extends_self rfl rfl

-- The reply of an RPC may reach the controller or not.
theorem Refines.served (h : s.Refines m) {c rpc servers sck} (hr : (s.ctrler c).rpc c = some rpc)
    (hv : Served c s.servers (s.ctrler c) servers sck) :
    ∃ m', m'.flat = m.flat ∧ ({ s with servers }.send c rpc).Refines m' ∧
    sck.Chained servers m'.plan ∧
    (¬ (s.ctrler c).Hazard c s.servers → sck.pc.Sound servers m') := by
  have hc := h.chained
  have ⟨m', hp, hf, hm, ha, hs⟩ := hv.sound hc.servers (hc.ctrler c) h.models (h.ctrler c)
  have ⟨hc', he⟩ := hv.chained hc.servers (hc.ctrler c)
  rw [←hp] at hc' he
  have hl : { s with servers }.Refines m' := h.later (hc.later hc' he rfl rfl) hm ha rfl rfl
  refine ⟨m', hf, hl.send ?_, hp ▸ hv.ctrler_chained hc.servers (hc.ctrler c), hs⟩
  rintro gid req rfl
  exact ha.permits h.models (h.permits hr)

-- Steps of the controllers are not visible to the clients.
theorem Refines.internal {e : Event K V Id} (ha : s.accepts e = none) (hf : m'.flat = m.flat)
    (h : s'.Refines m') :
    ∃ m', s'.Refines m' ∧
    (∀ req resp, s.accepts e = some (req, resp) → req.flat m.flat = some (m'.flat, resp)) ∧
    (s.accepts e = none → m'.flat = m.flat) :=
  ⟨m', h, fun _ _ hs => absurd (ha.symm.trans hs) (Option.some_ne_none _).symm, fun _ => hf⟩

variable [DecidableEq Id]

theorem Refines.step {e : Event K V Id} (h : s.Refines m) (hs : Stepped s e s')
    (hz : ¬ s.Hazard e) :
    ∃ m', s'.Refines m' ∧
    (∀ req resp, s.accepts e = some (req, resp) → req.flat m.flat = some (m'.flat, resp)) ∧
    (s.accepts e = none → m'.flat = m.flat) := by
  cases hs
  case initController c _ => exact Refines.internal rfl rfl <| h.setCtrler trivial trivial
  case changeConfigTo c new n _ hq hn =>
    have hn : new.num ≤ s.servers.config.value.num + 1 :=
      hn ▸ Nat.succ_le_succ (h.chained.queried n hq)
    exact Refines.internal rfl rfl <| h.setCtrler hn trivial
  case query =>
    refine Refines.internal rfl rfl { h with chained := { h.chained with queried := ?_ } }
    simpa using fun n => h.chained.queried n
  case rpc c rpc servers sck hr hv =>
    obtain ⟨m', hf, hl, hc, hk⟩ := h.served hr hv
    refine Refines.internal rfl hf (hl.setCtrler ?_ ?_) <;> simp only [send_servers]
    · exact hc
    · exact hk hz
  case lost c rpc servers sck hr hv =>
    obtain ⟨m', hf, hl, _⟩ := h.served hr hv
    exact Refines.internal rfl hf <| hl.setCtrler (hl.chained.ctrler c) (hl.ctrler c)
  case dropped c =>
    exact Refines.internal rfl rfl <| h.setCtrler (h.chained.ctrler c) (h.ctrler c)
  case noResponse c rpc job shardId move hr hpc =>
    have hc := h.chained.ctrler c
    have hk := h.ctrler c
    simp only [ShardCtrler.Chained, hpc] at hc hk
    have hl : (s.send c rpc).Refines m := by
      refine h.send ?_
      rintro gid req rfl
      exact h.permits hr
    refine Refines.internal rfl rfl (hl.setCtrler ?_ ?_) <;> simp only [send_servers]
    · exact hc
    · exact hk
  case late hk hd =>
    obtain ⟨m', hf, hl⟩ := h.doOp (h.sent _ _ _ (List.mem_of_getElem? hk)) hd
    exact Refines.internal rfl hf hl
  case client gid req key servers resp hk hd =>
    have hsame := Servers.SameConfigs.doOp hd
    have hc : { s with servers }.Chained m.plan :=
      h.chained.later (hsame.chained h.chained.servers) hsame.extends_self rfl rfl
    simp only [accepts, hd, Option.bind_some]
    obtain ⟨rfl, he⟩ | ⟨he, flat, hf, hm, ha⟩ := h.models.client hk hd
    case inl => exact ⟨m, h, by simp [he], fun _ => rfl⟩
    case inr =>
      refine ⟨{ m with flat }, h.later hc hm ha rfl rfl, ?_, by simp [he]⟩
      simp only [he, if_false, Option.some.injEq, Prod.mk.injEq]
      rintro _ _ ⟨rfl, rfl⟩
      exact hf

end State
end ShardKv
