import DistributedSystems.Library.Service
import DistributedSystems.ShardKv.Theorems.Migration

namespace ShardKv

open KvSrv Sharded

variable {K V Id : Type}

namespace Servers

variable {sv sv' : Servers K V Id} {value : Option Id} {version : Nat}

theorem SameConfigs.trans {sv'' : Servers K V Id} (h₁ : sv.SameConfigs sv')
    (h₂ : sv'.SameConfigs sv'') :
    sv.SameConfigs sv'' :=
  ⟨h₂.left.trans h₁.left, h₂.right.trans h₁.right⟩

variable [DecidableEq K] [Sharded K]

theorem serve_putLock (h : sv.lockVersion = version) :
    sv.serve (.putLock value version) = some (sv.setLock value, .put .ok) := by
  obtain ⟨sv', reply, hs⟩ : ∃ sv' reply, sv.serve (.putLock value version) = some (sv', reply) :=
    ⟨_, _, rfl⟩
  rcases ShardCtrler.serve_lock hs with ⟨_, rfl, rfl⟩ | ⟨hn, _⟩ | ⟨hn, _⟩
  · exact hs
  · exact absurd h hn
  · exact absurd h hn

theorem serve_putLock_of_ne (h : sv.lockVersion ≠ version) (hl : sv.lock ≠ none) :
    sv.serve (.putLock value version) = some (sv, .put .errVersion) := by
  obtain ⟨sv', reply, hs⟩ : ∃ sv' reply, sv.serve (.putLock value version) = some (sv', reply) :=
    ⟨_, _, rfl⟩
  rcases ShardCtrler.serve_lock hs with ⟨hn, _⟩ | ⟨_, _, rfl, rfl⟩ | ⟨_, hn, _⟩
  · exact absurd hn h
  · exact hs
  · exact absurd hn hl

end Servers

-- Where the controller goes on after a move has been answered.
def Job.Follows (job : Job) (shardId : Shard) (pc : Pc K V) : Move K V → Prop
  | .freezeShard    => ∃ state, pc = .moveShardToGroup job shardId (.installShard state)
  | .installShard _ => pc = .moveShardToGroup job shardId .deleteShard
  | .deleteShard    => pc = .acquireLockPut (.nextShard job shardId true)

theorem Job.req_handover (job : Job) (shardId : Shard) (move : Move K V) :
    ∃ r, (job.req shardId move).handover = some (shardId, r) := by
  cases move <;> exact ⟨_, rfl⟩

variable [Sharded K]

theorem Job.follows_receive [DecidableEq K] [DecidableEq Id] {job : Job} {shardId : Shard}
    {move : Move K V} {sck : ShardCtrler K V} {c : Id} {sv sv' : Servers K V Id} {resp : Resp K V}
    (hp : sck.pc = .moveShardToGroup job shardId move)
    (hd : sv.doOp (job.gid shardId move) (job.req shardId move) = some (sv', resp)) :
    job.Follows shardId (sck.receive c (.group resp)).pc move ∧
      (sck.receive c (.group resp)).lockVersion = sck.lockVersion := by
  cases move
  case freezeShard =>
    obtain ⟨state, num, err, rfl⟩ := ShardCtrler.doOp_freezeShard hd
    exact ⟨⟨state, by simp [ShardCtrler.receive, hp]⟩, by simp [ShardCtrler.receive, hp]⟩
  case installShard state =>
    exact ⟨by simp [ShardCtrler.receive, hp, Follows], by simp [ShardCtrler.receive, hp]⟩
  case deleteShard        =>
    exact ⟨by simp [ShardCtrler.receive, hp, Follows], by simp [ShardCtrler.receive, hp]⟩

namespace State

variable {s s' : State K V Id} {c : Id} {F : KvSrv.KVServer K V}

-- A controller that is the only one, and has received the reply to each of its requests.
structure Alone (F : KvSrv.KVServer K V) (c : Id) (s : State K V Id) : Prop where
  refines    : ∃ m, s.Refines m ∧ m.flat = F
  steady     : (s.ctrler c).pc.Steady c s.servers
  isFirstTry : (s.ctrler c).isFirstTry = true

-- The configurations are still the same.
structure Continues (s : State K V Id) (c : Id) (F : KvSrv.KVServer K V) (pc : Pc K V)
    (s' : State K V Id) : Prop where
  alone   : s'.Alone F c
  configs : s.servers.SameConfigs s'.servers
  lock    : s'.servers.lockVersion = (s'.ctrler c).lockVersion
  pc      : (s'.ctrler c).pc = pc

theorem Continues.of_same {s₁ : State K V Id} {pc : Pc K V} (h : s₁.Continues c F pc s')
    (hs : s.servers.SameConfigs s₁.servers) : s.Continues c F pc s' :=
  { h with configs := hs.trans h.configs }

variable [DecidableEq K] [DecidableEq Id]

theorem Alone.rpc (h : s.Alone F c) {rpc sv reply} (hr : (s.ctrler c).rpc c = some rpc)
    (hv : s.servers.serve rpc = some (sv, reply)) :
    ∃ s', s.next (.rpc c) = some s' ∧ s'.Alone F c ∧ s'.servers = sv ∧
      s'.ctrler c = { (s.ctrler c).receive c reply with isFirstTry := true } := by
  obtain ⟨m, hm, hf⟩ := h.refines
  have hn : s.next (.rpc c) = some ({ s with servers := sv }.send c rpc |>.setCtrler c
      { (s.ctrler c).receive c reply with isFirstTry := true }) := by simp [next, hr, hv]
  have hs := stepped hn
  obtain ⟨m', hm', _, hx⟩ := hm.step hs (hm.chained.not_hazard h.steady)
  have hc : ({ s with servers := sv }.send c rpc |>.setCtrler c
      { (s.ctrler c).receive c reply with isFirstTry := true }).ctrler c =
      { (s.ctrler c).receive c reply with isFirstTry := true } := by simp [setCtrler]
  refine ⟨_, hn, ⟨⟨m', hm', (hx rfl).trans hf⟩, ?_, by rw [hc]⟩, by simp, hc⟩
  exact hs.steady (c := c) (fun _ ha => (Option.some.inj ha).symm) h.steady

-- The controller still has the lock.
theorem Alone.lockPut (h : s.Alone F c) {caller} (hp : (s.ctrler c).pc = .acquireLockPut caller)
    (hl : s.servers.lockVersion = (s.ctrler c).lockVersion) :
    ∃ s', s.next (.rpc c) = some s' ∧
      s.Continues c F ((s.ctrler c).acquired ((s.ctrler c).lockVersion + 1) caller).pc s' := by
  have hr : (s.ctrler c).rpc c = some (.putLock (some c) (s.ctrler c).lockVersion) := by
    simp [ShardCtrler.rpc, hp]
  obtain ⟨s', hn, ha, hs, hc⟩ := h.rpc hr (Servers.serve_putLock hl)
  refine ⟨s', hn, ha, ?_, ?_, ?_⟩
  · rw [hs]; exact ⟨rfl, rfl⟩
  · simp [hs, hc, ShardCtrler.receive, hp, ShardCtrler.receiveLockPut_ok, ShardCtrler.acquired,
      Servers.lockVersion, Servers.setLock, ←hl]
  · simp [hc, ShardCtrler.receive, hp, ShardCtrler.receiveLockPut_ok]

-- A controller that has just been started takes the lock, even if another one has not released it.
theorem Alone.takeLock (h : s.Alone F c)
    (hp : (s.ctrler c).pc = .acquireLockPut .changeConfiguration)
    (hw : (s.ctrler c).wasLeader = false) (hv : (s.ctrler c).lockVersion = 0)
    (hn : ¬s.servers.lockedBy c) :
    (shardKv K V Id).Within (.rpc c) (s.Continues c F .query) 3 s := by
  by_cases hl : s.servers.lockVersion = 0
  case pos =>
    obtain ⟨s', hs, hc⟩ := h.lockPut hp (hl.trans hv.symm)
    exact .step hs (.now hc)
  case neg =>
    have hr : (s.ctrler c).rpc c = some (.putLock (some c) 0) := by simp [ShardCtrler.rpc, hp, hv]
    have hlock : s.servers.lock ≠ none := fun hx => hl (by simp [Servers.lockVersion, hx])
    obtain ⟨s₁, hn₁, h₁, hs₁, hc₁⟩ := h.rpc hr (Servers.serve_putLock_of_ne hl hlock)
    have hp₁ : (s₁.ctrler c).pc = .acquireLockGet .changeConfiguration := by
      simp [hc₁, ShardCtrler.receive, hp, ShardCtrler.receiveLockPut_errVersion]
    have hw₁ : (s₁.ctrler c).wasLeader = false := by
      simp [hc₁, ShardCtrler.receive, hp, ShardCtrler.receiveLockPut_errVersion, hw]
    have hr₁ : (s₁.ctrler c).rpc c = some .getLock := by simp [ShardCtrler.rpc, hp₁]
    obtain ⟨s₂, hn₂, h₂, hs₂, hc₂⟩ := h₁.rpc hr₁ rfl
    have hx : (s₂.ctrler c).pc = .acquireLockPut .changeConfiguration ∧
        (s₂.ctrler c).lockVersion = s₂.servers.lockVersion := by
      have hn' : s₁.servers.lock.map Data.value ≠ some (some c) := by rw [hs₁]; exact hn
      rw [hs₂, hc₂]
      simp only [ShardCtrler.receive, hp₁, ShardCtrler.receiveLockGet, Lease.Fields.acquireGet,
        if_neg hn', hw₁, Bool.false_eq_true, if_false]
      split_ifs
      · exact ⟨rfl, rfl⟩
      · exact ⟨rfl, rfl⟩
    obtain ⟨s₃, hn₃, h₃⟩ := h₂.lockPut hx.left hx.right.symm
    refine .step hn₁ (.step hn₂ (.step hn₃ (.now (h₃.of_same ?_))))
    rw [hs₂, hs₁]
    exact ⟨rfl, rfl⟩

theorem Continues.query (h : s.Continues c F .query s') :
    ∃ s'', s'.next (.rpc c) = some s'' ∧
    s.Continues c F (.getConfigToApply s.servers.config.value) s'' := by
  have hr : (s'.ctrler c).rpc c = some .getConfig := by simp [ShardCtrler.rpc, h.pc]
  obtain ⟨s'', hn, ha, hs, hc⟩ := h.alone.rpc hr rfl
  refine ⟨s'', hn, ha, hs ▸ h.configs, ?_, ?_⟩
  · simp [hs, hc, ShardCtrler.receive, h.pc, h.lock]
  · simp [hc, ShardCtrler.receive, h.pc, h.configs.left]

theorem Continues.getConfigToApply {oldCfg : ShardConfig}
    (h : s.Continues c F (.getConfigToApply oldCfg) s') :
    ∃ s'', s'.next (.rpc c) = some s'' ∧
      s.Continues c F (if oldCfg.num ≥ s.servers.applyConfig.value.num then .releaseLock
        else Job.enter ⟨oldCfg, s.servers.applyConfig.value⟩ 0) s'' := by
  have hr : (s'.ctrler c).rpc c = some .getApplyConfig := by simp [ShardCtrler.rpc, h.pc]
  obtain ⟨s'', hn, ha, hs, hc⟩ := h.alone.rpc hr rfl
  refine ⟨s'', hn, ha, hs ▸ h.configs, ?_, ?_⟩
  · simp [hs, hc, ShardCtrler.receive, h.pc, h.lock]
  · simp [hc, ShardCtrler.receive, h.pc, h.configs.right]

theorem Continues.move {job : Job} {shardId : Shard} {move : Move K V}
    (h : s.Continues c F (.moveShardToGroup job shardId move) s')
    (hs : job.hasServers shardId move = true) :
    ∃ s'' pc, s'.next (.rpc c) = some s'' ∧ s.Continues c F pc s'' ∧
    job.Follows shardId pc move := by
  obtain ⟨r, hr⟩ := job.req_handover shardId move
  obtain ⟨kv, resp, hd, _⟩ :
    ∃ kv resp, (s'.servers.group (job.gid shardId move)).doOp (job.req shardId move) =
      some (kv, resp) ∧ _ := KVServer.doOp_handover hr
  have hd : s'.servers.doOp (job.gid shardId move) (job.req shardId move) =
      some ({ s'.servers with group := Function.update s'.servers.group (job.gid shardId move) kv },
        resp) := by
    simp [Servers.doOp, hd]
  have hrpc : (s'.ctrler c).rpc c =
      some (.group (job.gid shardId move) (job.req shardId move)) := by
    simp [ShardCtrler.rpc, h.pc, hs]
  obtain ⟨s'', hn, ha, hs'', hc⟩ := h.alone.rpc hrpc (by rw [Servers.serve, hd]; rfl)
  have hf := Job.follows_receive (c := c) h.pc hd
  refine ⟨s'', _, hn, ⟨ha, ?_, ?_, rfl⟩, ?_⟩
  · rw [hs'']; exact h.configs
  · rw [hs'', hc]
    exact h.lock.trans hf.right.symm
  · rw [hc]; exact hf.left

-- A shard is moved, if it has to be, and the lock is renewed.
theorem Continues.shard {job : Job} {shardId : Shard} (h : s.Continues c F (job.enter shardId) s')
    (ho : job.oldCfg.servers shardId ≠ []) (hn : job.newCfg.servers shardId ≠ []) :
    (shardKv K V Id).Within (.rpc c) (s.Continues c F (job.next shardId)) 4 s' := by
  have renew {s₁ : State K V Id} {moved : Bool}
      (h₁ : s.Continues c F (.acquireLockPut (.nextShard job shardId moved)) s₁) :
      (shardKv K V Id).Within (.rpc c) (s.Continues c F (job.next shardId)) 1 s₁ := by
    obtain ⟨s₂, hs, h₂⟩ := h₁.alone.lockPut h₁.pc h₁.lock
    exact .step hs (.now (h₂.of_same h₁.configs))
  rw [Job.enter] at h
  split_ifs at h
  case neg => exact (renew h).mono (by decide)
  case pos =>
    obtain ⟨s₁, _, hs₁, h₁, state, rfl⟩ := h.move (decide_eq_true ho)
    obtain ⟨s₂, _, hs₂, h₂, rfl⟩ := h₁.move (decide_eq_true hn)
    obtain ⟨s₃, _, hs₃, h₃, rfl⟩ := h₂.move (decide_eq_true ho)
    exact .step hs₁ (.step hs₂ (.step hs₃ (renew h₃)))

-- The loop over the shards.
theorem Continues.shards {job : Job} {shardId : Shard} (h : s.Continues c F (job.enter shardId) s')
    (ho : ∀ shardId, job.oldCfg.servers shardId ≠ [])
    (hn : ∀ shardId, job.newCfg.servers shardId ≠ []) :
    (shardKv K V Id).Within (.rpc c) (s.Continues c F (.publishQuery job.newCfg))
      (4 * (12 - shardId)) s' := by
  generalize hk : 11 - shardId.val = k
  have hlt := shardId.isLt
  induction k generalizing s' shardId
  case zero =>
    refine ((h.shard (ho _) (hn _)).trans fun s'' h' => .now ?_).mono (m := 4 * (12 - shardId))
      (n := 4 + 0) (by omega)
    rwa [Job.next, dif_neg (by omega)] at h'
  case succ k hi =>
    have hnext : shardId.val + 1 < 12 := by omega
    refine ((h.shard (ho _) (hn _)).trans fun s'' h' => ?_).mono (n := 4 + 4 * (12 - (shardId + 1)))
      (by omega)
    rw [Job.next, dif_pos hnext] at h'
    exact hi h' (by simp only; omega) hnext

-- The controller is about to release the lock.
structure Publishes (s : State K V Id) (c : Id) (F : KvSrv.KVServer K V) (cfg : ShardConfig)
    (s' : State K V Id) :
    Prop where
  alone       : s'.Alone F c
  config      : s'.servers.config.value = cfg
  applyConfig : s'.servers.applyConfig = s.servers.applyConfig
  lock        : s'.servers.lockVersion = (s'.ctrler c).lockVersion
  pc          : (s'.ctrler c).pc = .releaseLock

theorem Continues.publish {newCfg : ShardConfig} (h : s.Continues c F (.publishQuery newCfg) s')
    (hn : s.servers.config.value.num < newCfg.num) :
    (shardKv K V Id).Within (.rpc c) (s.Publishes c F newCfg) 2 s' := by
  have hr : (s'.ctrler c).rpc c = some .getConfig := by simp [ShardCtrler.rpc, h.pc]
  obtain ⟨s₁, hn₁, h₁, hs₁, hc₁⟩ := h.alone.rpc hr rfl
  have hlt : ¬s'.servers.config.value.num ≥ newCfg.num := by rw [h.configs.left]; omega
  have hp₁ : (s₁.ctrler c).pc = .publishPut newCfg := by
    simp only [hc₁, ShardCtrler.receive, h.pc, if_neg hlt]
  have hv₁ : (s₁.ctrler c).currentVersion = s₁.servers.config.version := by
    simp only [hc₁, ShardCtrler.receive, h.pc, hs₁]
  have hl₁ : s₁.servers.lockVersion = (s₁.ctrler c).lockVersion := by
    simp only [hc₁, ShardCtrler.receive, h.pc, hs₁, h.lock]
  have hr₁ : (s₁.ctrler c).rpc c = some (.putConfig newCfg (s₁.ctrler c).currentVersion) := by
    simp [ShardCtrler.rpc, hp₁]
  have hv : s₁.servers.serve (.putConfig newCfg (s₁.ctrler c).currentVersion) =
      some ({ s₁.servers with config := ⟨s₁.servers.config.version + 1, newCfg⟩ }, .put .ok) := by
    simp [Servers.serve, hv₁, Data.put]
  obtain ⟨s₂, hn₂, h₂, hs₂, hc₂⟩ := h₁.rpc hr₁ hv
  refine .step hn₁ (.step hn₂ (.now ⟨h₂, ?_, ?_, ?_, ?_⟩))
  · rw [hs₂]
  · rw [hs₂, hs₁]
    exact h.configs.right
  · simp only [hs₂, hc₂, ShardCtrler.receive, hp₁, Clerk.err_ok, if_true]
    exact hl₁
  · simp only [hc₂, ShardCtrler.receive, hp₁, Clerk.err_ok, if_true]

theorem Publishes.release {cfg : ShardConfig} (h : s.Publishes c F cfg s') :
    (shardKv K V Id).Within (.rpc c) (fun s'' => s''.Alone F c ∧ (s''.ctrler c).pc = .idle ∧
      s''.servers.lock.map Data.value = some none ∧ s''.servers.config.value = cfg ∧
      s''.servers.applyConfig = s.servers.applyConfig) 1 s' := by
  have hr : (s'.ctrler c).rpc c = some (.putLock none (s'.ctrler c).lockVersion) := by
    simp [ShardCtrler.rpc, h.pc]
  obtain ⟨s'', hn, ha, hs, hc⟩ := h.alone.rpc hr (Servers.serve_putLock h.lock)
  refine .step hn (.now ⟨ha, ?_, ?_, ?_, ?_⟩)
  · simp only [hc, ShardCtrler.receive, h.pc]
  · rw [hs]; rfl
  · rw [hs]; exact h.config
  · rw [hs]; exact h.applyConfig

-- All that `changeConfiguration` does, once it has the lock.
theorem Continues.changeConfiguration (h : s.Continues c F .query s')
    (hs : ∃ plan, s.servers.Chained plan)
    (ho : ∀ shardId, s.servers.config.value.servers shardId ≠ [])
    (hn : ∀ shardId, s.servers.applyConfig.value.servers shardId ≠ []) :
    (shardKv K V Id).Within (.rpc c) (s.Publishes c F s.servers.applyConfig.value) 52 s' := by
  obtain ⟨s₁, hn₁, h₁⟩ := h.query
  obtain ⟨s₂, hn₂, h₂⟩ := h₁.getConfigToApply
  refine .step hn₁ (.step hn₂ ?_)
  split_ifs at h₂ with hle
  case pos =>
    obtain ⟨plan, hp⟩ := hs
    have he : s.servers.config.value = s.servers.applyConfig.value := by
      rw [← hp.config, ← hp.applyConfig, Nat.le_antisymm hp.le hle]
    exact .now ⟨h₂.alone, (congrArg Data.value h₂.configs.left).trans he, h₂.configs.right, h₂.lock,
      h₂.pc⟩
  case neg =>
    exact (h₂.shards ho hn).trans fun s₃ h₃ => h₃.publish (not_le.mp hle)

omit [DecidableEq Id] in
-- Each key is found at the group of the configuration.
theorem Alone.doGet (h : s.Alone F c) (he : s.servers.config.value = s.servers.applyConfig.value)
    (key : K) :
    (s.servers.group (s.servers.config.value.shards (key2Shard key))).doGet key =
      .get (F.get key) := by
  obtain ⟨m, hm, rfl⟩ := h.refines
  have hv := hm.models (key2Shard key)
  have hx := hv.source
  rw [hv.settled (congrArg ShardConfig.num he.symm)] at hx
  obtain ⟨_, hx, _⟩ := hx
  have ho : (m.plan s.servers.config.value.num).shards (key2Shard key) =
      s.servers.config.value.shards (key2Shard key) := by rw [hm.chained.servers.config]
  change (s.servers.group ((m.plan s.servers.config.value.num).shards (key2Shard key))).site
    (key2Shard key) = _ at hx
  rw [ho] at hx
  have hw := KVServer.site_active.mp (congrArg Handover.Site.status hx)
  have hr : (s.servers.group (s.servers.config.value.shards (key2Shard key))).rejects
      (key2Shard key) = false := by
    rw [Bool.eq_false_iff, ne_eq, KVServer.rejects_iff]
    exact fun hn => hn hw
  obtain ⟨t, ht, _⟩ := (KVServer.doGet_executes hr).flat
  have hd := congrArg Handover.Site.data hx
  have hk : (s.servers.group (s.servers.config.value.shards (key2Shard key))).table
      (key2Shard key) key = m.flat key := by
    rw [← restrict_key2Shard m.flat key]
    exact congrFun hd key
  refine (congrArg Prod.snd (Option.some.inj ht)).symm.trans ?_
  exact congrArg (Resp.get ∘ KvSrv.get) hk

end State

theorem Served.lock_cases {c : Id} {sv sv' : Servers K V Id} {sck sck' : ShardCtrler K V}
    [DecidableEq K] (h : Served c sv sck sv' sck') :
    sv'.lock = sv.lock ∨ sv'.lock.map Data.value = some (some c) ∨
    sv'.lock.map Data.value = some none := by
  cases h
  case lockPut      => exact .inr (.inl rfl)
  case released     => exact .inr (.inr rfl)
  case frozen hd    => obtain ⟨_, _, rfl⟩ := Servers.doOp_some hd; exact .inl rfl
  case installed hd => obtain ⟨_, _, rfl⟩ := Servers.doOp_some hd; exact .inl rfl
  case deleted hd   => obtain ⟨_, _, rfl⟩ := Servers.doOp_some hd; exact .inl rfl
  all_goals exact .inl rfl

variable [DecidableEq K] [DecidableEq Id]

-- Only the controller itself puts its id.
theorem State.Stepped.lockedBy {s s' : State K V Id} {a : Event K V Id} {c : Id}
    (h : Stepped s a s') (ha : s.actor a ≠ some c) (hl : s'.servers.lockedBy c) :
    s.servers.lockedBy c := by
  have hserved {c' sv sck} (hx : Served c' s.servers (s.ctrler c') sv sck) (hne : c' ≠ c)
      (hv : sv.lockedBy c) :
      s.servers.lockedBy c := by
    rcases hx.lock_cases with he | he | he
    · rwa [Servers.lockedBy, ← he]
    · exact absurd (Option.some.inj (Option.some.inj (he.symm.trans hv))) hne
    · cases he.symm.trans hv
  cases h
  case rpc c' _ hx     => exact hserved hx (fun he => ha (congrArg some he)) (by simpa using hl)
  case lost c' _ hx    => exact hserved hx (fun he => ha (congrArg some he)) (by simpa using hl)
  case late _ hd       =>
    obtain ⟨_, _, rfl⟩ := Servers.doOp_some hd
    exact hl
  case client hd       =>
    obtain ⟨_, _, rfl⟩ := Servers.doOp_some hd
    exact hl
  case noResponse      => simpa using hl
  all_goals exact hl

namespace Execution

variable {e : Execution K V Id} {cur : Nat → Id}

theorem Sequential.not_lockedBy (h : e.Sequential cur) {i : Nat} {c : Id}
    (hc : ∀ j < i, cur j ≠ c) :
    ¬(e.state i).servers.lockedBy c := by
  induction i
  case zero      => rw [e.start]; simp [shardKv, State.init, Servers.init, Servers.lockedBy]
  case succ i hi =>
    have hi := hi fun j hj => hc j (by omega)
    rcases e.step_cases i with hs | ⟨a, ha, hs⟩
    · rwa [hs]
    · refine mt ((State.stepped hs).lockedBy ?_) hi
      exact fun hx => hc i i.lt_succ_self (h.actor i a c ha hx).symm

-- Wherever the controllers before it have stopped, a new controller finishes what they have begun.
-- Then all keys are served by the groups of the new configuration.
theorem recovers (e : Execution K V Id) (cur : Nat → Id) (h : e.Sequential cur) (i : Nat) (c : Id)
    (hc : ∀ j < i, cur j ≠ c)
    (ho : ∀ shardId, (e.state i).servers.config.value.servers shardId ≠ [])
    (hn : ∀ shardId, (e.state i).servers.applyConfig.value.servers shardId ≠ []) :
    ∃ n ≤ 56, ∃ s,
      (shardKv K V Id).exec (e.state i) (.initController c :: .replicate n (.rpc c)) = some s ∧
      (s.ctrler c).pc = .idle ∧ s.servers.lock.map Data.value = some none ∧
      s.servers.config.value = (e.state i).servers.applyConfig.value ∧
      ∀ key, (s.servers.group (s.servers.config.value.shards (key2Shard key))).doGet key =
        .get ((e.flat i).get key) := by
  have hm := h.untouched hc
  obtain ⟨m, hr, hf⟩ := h.guarded.refines_flat i
  have hx : (e.state i).next (.initController c) =
      some ((e.state i).setCtrler c ((e.state i).ctrler c).initController) := by
    simp [State.next, State.begin, hm, ShardCtrler.make]
  have hck : ((e.state i).setCtrler c ((e.state i).ctrler c).initController).ctrler c =
      (ShardCtrler.make : ShardCtrler K V).initController := by simp [State.setCtrler, hm]
  obtain ⟨m', hr', _, hf'⟩ := hr.step (State.stepped hx) id
  have ha : ((e.state i).setCtrler c ((e.state i).ctrler c).initController).Alone (e.flat i) c :=
    ⟨⟨m', hr', (hf' rfl).trans hf⟩, by rw [hck]; trivial, by rw [hck]; rfl⟩
  have hw := (ha.takeLock (by rw [hck]; rfl) (by rw [hck]; rfl) (by rw [hck]; rfl)
    (h.not_lockedBy hc)).trans
    fun s hs => (hs.changeConfiguration ⟨_, hr'.chained.servers⟩ ho hn).trans fun s' hs' =>
      hs'.release
  obtain ⟨n, hle, s, hs, hal, hidle, hlock, hcfg, happly⟩ := hw
  refine ⟨n, hle, s,
    by rw [System.exec, show (shardKv K V Id).next = State.next from rfl, hx]; exact hs, hidle,
    hlock, hcfg, fun key => hal.doGet (hcfg.trans (congrArg Data.value happly).symm) key⟩

-- The controller stops when it has frozen a shard, with the lock in its hands.
def interruption : List (Event (List UInt8) String Nat) :=
  [.query, .client 1 (.put [109] "x" 0), .changeConfigTo 0 (moveTo 2 2)] ++ .replicate 6 (.rpc 0)

def interrupted : Execution (List UInt8) String Nat :=
  .ofActions (shardKv _ _ _) interruption (by decide +kernel)

theorem recovers_interrupted :
    (interrupted.state 9).servers.lockedBy 0 ∧
    ((interrupted.state 9).servers.group 1).doGet [109] = .get ⟨none, 0, .errWrongGroup⟩ ∧
    ∃ n ≤ 56, ∃ s, (shardKv (List UInt8) String Nat).exec (interrupted.state 9)
        (.initController 1 :: .replicate n (.rpc 1)) = some s ∧
      s.servers.config.value = moveTo 2 2 ∧
      (s.servers.group 2).doGet [109] = .get ⟨some "x", 1, .ok⟩ := by
  have hs : interrupted.Sequential fun _ => 0 :=
    .ofActions (fun _ _ _ _ _ _ => rfl) (by decide +kernel)
  have ha : (interrupted.state 9).servers.applyConfig.value = moveTo 2 2 := by decide +kernel
  have hf : (interrupted.flat 9).get [109] = ⟨some "x", 1, .ok⟩ := by decide +kernel
  obtain ⟨n, hn, s, hx, _, _, hc, hg⟩ :=
    recovers interrupted _ hs 9 1 (by simp) (by decide +kernel) (by decide +kernel)
  have hk : s.servers.config.value.shards (key2Shard ([109] : List UInt8)) = 2 := by
    rw [hc, ha]; decide +kernel
  exact ⟨by decide +kernel, rfl, n, hn, s, hx, hc.trans ha, by rw [← hk, hg, hf]⟩

end Execution
end ShardKv
