import DistributedSystems.ShardKv.Theorems.Controller

-- The configurations that are saved and published form a chain, whatever the controllers do. The
-- chain up to the saved configuration is given by a function `plan` from numbers to configurations.
namespace ShardKv

open KvSrv

variable {K V Id : Type}

namespace Servers

variable {sv sv' : Servers K V Id} {plan plan' : Nat → ShardConfig}

structure Chained (sv : Servers K V Id) (plan : Nat → ShardConfig) : Prop where
  config      : plan sv.config.value.num = sv.config.value
  applyConfig : plan sv.applyConfig.value.num = sv.applyConfig.value
  le          : sv.config.value.num ≤ sv.applyConfig.value.num
  le_succ     : sv.applyConfig.value.num ≤ sv.config.value.num + 1

-- What controllers may rely on when they continue later.
structure Extends (sv sv' : Servers K V Id) (plan plan' : Nat → ShardConfig) : Prop where
  configVersion : sv.config.version ≤ sv'.config.version
  configNum     : sv'.config.version = sv.config.version → sv'.config.value = sv.config.value
  applyVersion  : sv.applyConfig.version ≤ sv'.applyConfig.version
  applyNum      : sv'.applyConfig.version = sv.applyConfig.version →
    sv'.applyConfig.value = sv.applyConfig.value
  config_le     : sv.config.value.num ≤ sv'.config.value.num
  apply_le      : sv.applyConfig.value.num ≤ sv'.applyConfig.value.num
  plan          : ∀ n ≤ sv.applyConfig.value.num, plan' n = plan n

-- The plan after a step.
def extend (sv : Servers K V Id) (plan : Nat → ShardConfig) : Nat → ShardConfig :=
  Function.update plan sv.applyConfig.value.num sv.applyConfig.value

theorem Chained.extend_eq (h : sv.Chained plan) : sv.extend plan = plan := by
  rw [extend, Function.update_eq_self_iff]
  exact h.applyConfig.symm

-- Most steps do not concern the configurations.
def SameConfigs (sv sv' : Servers K V Id) : Prop :=
  sv'.config = sv.config ∧ sv'.applyConfig = sv.applyConfig

theorem Extends.trans {sv'' : Servers K V Id} {plan''} (h₁ : sv.Extends sv' plan plan')
    (h₂ : sv'.Extends sv'' plan' plan'') : sv.Extends sv'' plan plan'' where
  configVersion := h₁.configVersion.trans h₂.configVersion
  configNum hv  := by
    have h₁' := h₁.configVersion
    have h₂' := h₂.configVersion
    rw [h₂.configNum (by omega), h₁.configNum (by omega)]
  applyVersion  := h₁.applyVersion.trans h₂.applyVersion
  applyNum hv   := by
    have h₁' := h₁.applyVersion
    have h₂' := h₂.applyVersion
    rw [h₂.applyNum (by omega), h₁.applyNum (by omega)]
  config_le     := h₁.config_le.trans h₂.config_le
  apply_le      := h₁.apply_le.trans h₂.apply_le
  plan n hn     := (h₂.plan n (hn.trans h₁.apply_le)).trans (h₁.plan n hn)

-- A `Put` to one of the two keys has been executed, or the key has been left alone.
def Written (data data' : Data ShardConfig) : Prop :=
  data' = data ∨ (data'.version = data.version + 1 ∧ data'.value.num = data.value.num + 1)

structure Writes (sv sv' : Servers K V Id) : Prop where
  config      : Written sv.config sv'.config
  applyConfig : Written sv.applyConfig sv'.applyConfig
  one         : sv'.config = sv.config ∨ sv'.applyConfig = sv.applyConfig

theorem SameConfigs.writes (h : sv.SameConfigs sv') : sv.Writes sv' where
  config      := .inl h.left
  applyConfig := .inl h.right
  one         := .inl h.left

theorem SameConfigs.chained (h : sv.SameConfigs sv') (hs : sv.Chained plan) : sv'.Chained plan := by
  constructor <;> simp only [h.left, h.right]
  exacts [hs.config, hs.applyConfig, hs.le, hs.le_succ]

theorem SameConfigs.doOp [DecidableEq K] [Sharded K] {gid req resp}
    (h : sv.doOp gid req = some (sv', resp)) : sv.SameConfigs sv' := by
  obtain ⟨_, -, rfl⟩ := doOp_some h
  exact ⟨rfl, rfl⟩

theorem SameConfigs.extends_self (h : sv.SameConfigs sv') : sv.Extends sv' plan plan := by
  constructor <;> simp [h.left, h.right]

end Servers

def Job.Chained (job : Job) (sv : Servers K V Id) (plan : Nat → ShardConfig) : Prop :=
  job.oldCfg.num < job.newCfg.num ∧ job.newCfg.num ≤ sv.applyConfig.value.num ∧
  plan job.oldCfg.num = job.oldCfg ∧ plan job.newCfg.num = job.newCfg

def Caller.Chained (caller : Caller K V) (sv : Servers K V Id) (plan : Nat → ShardConfig) : Prop :=
  match caller with
  | .changeConfiguration                             => True
  | .moveShardToGroup job _ _ | .nextShard job _ _ => job.Chained sv plan

def Pc.Chained (pc : Pc K V) (currentVersion : Nat) (sv : Servers K V Id)
    (plan : Nat → ShardConfig) :
    Prop :=
  match pc with
  | .idle | .query | .releaseLock => True
  | .saveApplyConfigGet new => new.num ≤ sv.config.value.num + 1
  | .saveApplyConfigPut new version =>
    new.num ≤ sv.config.value.num + 1 ∧ version ≤ sv.applyConfig.version ∧
    (sv.applyConfig.version = version → sv.applyConfig.value.num < new.num)
  | .acquireLockPut caller | .acquireLockGet caller => caller.Chained sv plan
  | .getConfigToApply oldCfg => oldCfg.num ≤ sv.config.value.num ∧ plan oldCfg.num = oldCfg
  | .moveShardToGroup job _ _ => job.Chained sv plan
  | .publishQuery newCfg =>
    newCfg.num ≤ sv.applyConfig.value.num ∧ plan newCfg.num = newCfg
  | .publishPut newCfg =>
    newCfg.num ≤ sv.applyConfig.value.num ∧ plan newCfg.num = newCfg ∧
    currentVersion ≤ sv.config.version ∧
    (sv.config.version = currentVersion → sv.config.value.num < newCfg.num)

def ShardCtrler.Chained (sck : ShardCtrler K V) (sv : Servers K V Id) (plan : Nat → ShardConfig) :
    Prop :=
  sck.pc.Chained sck.currentVersion sv plan

namespace Servers.Extends

variable {sv sv' : Servers K V Id} {plan plan' : Nat → ShardConfig}

theorem job (h : sv.Extends sv' plan plan') {job : Job} (hj : job.Chained sv plan) :
    job.Chained sv' plan' := by
  obtain ⟨h₁, h₂, h₃, h₄⟩ := hj
  refine ⟨h₁, h₂.trans h.apply_le, ?_, ?_⟩
  · rwa [h.plan _ (by omega)]
  · rwa [h.plan _ h₂]

theorem caller (h : sv.Extends sv' plan plan') {caller : Caller K V} (hc : caller.Chained sv plan) :
    caller.Chained sv' plan' := by
  cases caller
  case changeConfiguration          => trivial
  case moveShardToGroup | nextShard => exact h.job hc

theorem ctrler (h : sv.Extends sv' plan plan') (hs : sv.Chained plan) {sck : ShardCtrler K V}
    (hc : sck.Chained sv plan) : sck.Chained sv' plan' := by
  have := h.config_le
  have := h.apply_le
  have := hs.le
  simp only [ShardCtrler.Chained] at hc ⊢
  cases hpc : sck.pc <;> simp only [hpc, Pc.Chained] at hc ⊢
  case saveApplyConfigGet => omega
  case saveApplyConfigPut =>
    refine ⟨by omega, hc.right.left.trans h.applyVersion, fun hv => ?_⟩
    have hv' : sv'.applyConfig.version = sv.applyConfig.version := by
      have := h.applyVersion
      omega
    rw [h.applyNum hv']
    exact hc.right.right (hv' ▸ hv)
  case acquireLockPut | acquireLockGet => exact h.caller hc
  case getConfigToApply => exact ⟨by omega, by rw [h.plan _ (by omega)]; exact hc.right⟩
  case moveShardToGroup => exact h.job hc
  case publishQuery => exact ⟨by omega, by rw [h.plan _ (by omega)]; exact hc.right⟩
  case publishPut =>
    refine ⟨by omega, by rw [h.plan _ (by omega)]; exact hc.right.left, ?_, fun hv => ?_⟩
    · exact hc.right.right.left.trans h.configVersion
    · have hv' : sv'.config.version = sv.config.version := by
        have := h.configVersion
        omega
      rw [h.configNum hv']
      exact hc.right.right.right (hv' ▸ hv)

end Servers.Extends

section

variable {sv : Servers K V Id} {plan : Nat → ShardConfig} {sck : ShardCtrler K V}

theorem Job.Chained.enter {job : Job} (h : job.Chained sv plan) (shardId : Shard) (v : Nat) :
    (job.enter shardId : Pc K V).Chained v sv plan := by
  simp only [Job.enter]
  split <;> exact h

theorem Job.Chained.next {job : Job} (h : job.Chained sv plan) (shardId : Shard) (v : Nat) :
    (job.next shardId : Pc K V).Chained v sv plan := by
  simp only [Job.next]
  split
  · exact h.enter _ v
  · exact ⟨h.right.left, h.right.right.right⟩

theorem Caller.Chained.acquired {caller : Caller K V} (h : caller.Chained sv plan) (v : Nat) :
    (sck.acquired v caller).Chained sv plan := by
  cases caller
  case changeConfiguration => trivial
  case moveShardToGroup    => exact h
  case nextShard           => exact Job.Chained.next h _ _

theorem Caller.Chained.denied {caller : Caller K V} (h : caller.Chained sv plan) (b : Bool) :
    (sck.denied b caller).Chained sv plan := by
  cases caller
  case changeConfiguration => cases b <;> trivial
  case moveShardToGroup    => exact h
  case nextShard           => trivial

end

namespace Served

variable [DecidableEq K] [Sharded K]
variable {c : Id} {sv sv' : Servers K V Id} {sck sck' : ShardCtrler K V} {plan : Nat → ShardConfig}

theorem chained (h : Served c sv sck sv' sck') (hs : sv.Chained plan) (hc : sck.Chained sv plan) :
    sv'.Chained (sv'.extend plan) ∧ sv.Extends sv' plan (sv'.extend plan) := by
  have same (h : sv.SameConfigs sv') :
      sv'.Chained (sv'.extend plan) ∧ sv.Extends sv' plan (sv'.extend plan) := by
    rw [(h.chained hs).extend_eq]
    exact ⟨h.chained hs, h.extends_self⟩
  have hle := hs.le
  have hle' := hs.le_succ
  simp only [ShardCtrler.Chained] at hc
  cases h
  case saved new version hpc hv =>
    simp only [hpc, Pc.Chained, hv, true_implies] at hc
    obtain ⟨h₁, -, h₂⟩ := hc
    -- The saved configuration is the successor of the published one, which nobody has saved yet.
    have hn : ∀ n ≤ sv.applyConfig.value.num, Function.update plan new.num new n = plan n :=
      fun n hn => Function.update_of_ne (by omega) ..
    refine ⟨?chain, ?later⟩
    case chain =>
      refine ⟨(hn _ hs.le).trans hs.config, Function.update_self .., ?_, ?_⟩ <;> simp <;> omega
    case later =>
      refine ⟨le_rfl, fun _ => rfl, ?_, fun hv => ?_, le_rfl, ?_, hn⟩ <;> simp at * <;> omega
  case published newCfg hpc hv =>
    simp only [hpc, Pc.Chained, hv, true_implies] at hc
    obtain ⟨h₁, h₂, -, h₃⟩ := hc
    rw [Servers.extend, Function.update_eq_self_iff.mpr hs.applyConfig.symm]
    refine ⟨⟨h₂, hs.applyConfig, h₁, ?_⟩, ?_⟩
    · simp; omega
    · refine ⟨?_, fun hv => ?_, le_rfl, fun _ => rfl, ?_, le_rfl, fun _ _ => rfl⟩ <;> simp at * <;>
        omega
  case frozen h | installed h | deleted h => exact same (.doOp h)
  all_goals exact same ⟨rfl, rfl⟩

theorem writes (h : Served c sv sck sv' sck') (hs : sv.Chained plan) (hc : sck.Chained sv plan) :
    sv.Writes sv' := by
  have hle := hs.le
  have hle' := hs.le_succ
  simp only [ShardCtrler.Chained] at hc
  cases h
  case saved new version hpc hv =>
    simp only [hpc, Pc.Chained, hv, true_implies] at hc
    refine ⟨.inl rfl, .inr ⟨by rw [hv], ?_⟩, .inl rfl⟩
    change new.num = _
    omega
  case published newCfg hpc hv =>
    simp only [hpc, Pc.Chained, hv, true_implies] at hc
    refine ⟨.inr ⟨by rw [hv], ?_⟩, .inl rfl, .inr rfl⟩
    change newCfg.num = _
    omega
  case frozen h | installed h | deleted h => exact (Servers.SameConfigs.doOp h).writes
  all_goals exact Servers.SameConfigs.writes ⟨rfl, rfl⟩

theorem ctrler_chained (h : Served c sv sck sv' sck') (hs : sv.Chained plan)
    (hc : sck.Chained sv plan) : sck'.Chained sv' (sv'.extend plan) := by
  have ⟨hs', he⟩ := h.chained hs hc
  have hc := he.ctrler hs hc
  generalize sv'.extend plan = plan' at *
  simp only [ShardCtrler.Chained] at hc ⊢
  cases h
  case saveUnneeded | saved | upToDate | publishUnneeded | published | released | notReleased =>
    trivial
  case saveNeeded hpc hn =>
    rw [hpc] at hc
    exact ⟨hc, le_rfl, fun _ => hn⟩
  case notSaved hpc _ =>
    rw [hpc] at hc
    exact hc.left
  case lockPut hpc _ | lockOwned hpc _ =>
    rw [hpc] at hc
    exact Caller.Chained.acquired hc _
  case lockNotPut hpc _ _ | lockFree hpc _ _ =>
    rw [hpc] at hc
    exact hc
  case lockMissing => exact hc
  case lockLost hpc _ | lockTaken hpc _ _ =>
    rw [hpc] at hc
    exact Caller.Chained.denied hc _
  case query => exact ⟨le_rfl, hs'.config⟩
  case outdated hpc hn =>
    rw [hpc] at hc
    have hj : Job.Chained ⟨_, sv.applyConfig.value⟩ sv plan' :=
      ⟨hn, le_rfl, hc.right, hs'.applyConfig⟩
    exact hj.enter 0 _
  case frozen hpc _ | installed hpc _ | deleted hpc _ =>
    rw [hpc] at hc
    exact hc
  case publishNeeded hpc hn =>
    rw [hpc] at hc
    exact ⟨hc.left, hc.right, le_rfl, fun _ => hn⟩
  case notPublished hpc _ =>
    rw [hpc] at hc
    exact ⟨hc.left, hc.right.left⟩

end Served

namespace State

variable {s s' : State K V Id} {plan plan' : Nat → ShardConfig}

structure Chained (s : State K V Id) (plan : Nat → ShardConfig) : Prop where
  servers : s.servers.Chained plan
  queried : ∀ n ∈ s.queried, n ≤ s.servers.config.value.num
  ctrler  : ∀ c, (s.ctrler c).Chained s.servers plan

theorem Chained.init : (init : State K V Id).Chained fun _ => .first where
  servers := ⟨rfl, rfl, le_rfl, Nat.le_succ _⟩
  queried := nofun
  ctrler _ := trivial

theorem Chained.later (h : s.Chained plan) (hs : s'.servers.Chained plan')
    (he : s.servers.Extends s'.servers plan plan') (hq : s'.queried = s.queried)
    (hc : s'.ctrler = s.ctrler) : s'.Chained plan' where
  servers     := hs
  queried n n_mem := (h.queried n (hq ▸ n_mem)).trans he.config_le
  ctrler c    := hc ▸ he.ctrler h.servers (h.ctrler c)

variable [DecidableEq Id]

theorem Chained.setCtrler (h : s.Chained plan) {c sck} (hc : sck.Chained s.servers plan) :
    (s.setCtrler c sck).Chained plan where
  servers := h.servers
  queried := h.queried
  ctrler c' := by
    by_cases hn : c' = c
    case pos => simpa [State.setCtrler, hn] using hc
    case neg => simpa [State.setCtrler, Function.update_of_ne hn] using h.ctrler c'

variable [DecidableEq K] [Sharded K]

theorem Chained.step {e : Event K V Id} (h : Stepped s e s') (hs : s.Chained plan) :
    s'.Chained (s'.servers.extend plan) ∧
    s.servers.Extends s'.servers plan (s'.servers.extend plan) := by
  have same (hs : s'.Chained plan) (he : s.servers.SameConfigs s'.servers) :
      s'.Chained (s'.servers.extend plan) ∧
      s.servers.Extends s'.servers plan (s'.servers.extend plan) := by
    rw [hs.servers.extend_eq]
    exact ⟨hs, he.extends_self⟩
  have group {gid req servers resp} (h : s.servers.doOp gid req = some (servers, resp)) :
      { s with servers }.Chained plan :=
    have hd := Servers.SameConfigs.doOp h
    hs.later (hd.chained hs.servers) hd.extends_self rfl rfl
  have sent {servers plan' c rpc} (hs' : servers.Chained plan')
      (he : s.servers.Extends servers plan plan') :
        ({ s with servers }.send c rpc).Chained plan' := by
    refine hs.later ?_ ?_ ?_ ?_ <;> simp [*]
  cases h
  case initController c _ => exact same (hs.setCtrler trivial) ⟨rfl, rfl⟩
  case changeConfigTo c new n _ hq hn =>
    have hn : new.num ≤ s.servers.config.value.num + 1 := hn ▸ Nat.succ_le_succ (hs.queried n hq)
    exact same (hs.setCtrler hn) ⟨rfl, rfl⟩
  case query =>
    refine same { hs with queried := ?_ } ⟨rfl, rfl⟩
    simpa using fun n => hs.queried n
  case rpc c rpc servers sck _ hv =>
    have ⟨hs', he⟩ := hv.chained hs.servers (hs.ctrler c)
    have hk := hv.ctrler_chained hs.servers (hs.ctrler c)
    simp only [setCtrler_servers, send_servers]
    refine ⟨(sent hs' he).setCtrler ?_, he⟩
    simp only [send_servers]
    exact hk
  case lost c rpc servers sck _ hv =>
    have ⟨hs', he⟩ := hv.chained hs.servers (hs.ctrler c)
    simp only [resend_servers, send_servers]
    refine ⟨(sent hs' he).setCtrler ?_, he⟩
    simp only [send_servers, send_ctrler]
    exact he.ctrler hs.servers (hs.ctrler c)
  case dropped c => exact same (hs.setCtrler (hs.ctrler c)) ⟨rfl, rfl⟩
  case noResponse c _ _ _ _ _ hpc =>
    have hc := hs.ctrler c
    simp only [ShardCtrler.Chained, hpc] at hc
    have he : s.servers.Extends s.servers plan plan := Servers.SameConfigs.extends_self ⟨rfl, rfl⟩
    refine same ((sent hs.servers he).setCtrler ?_) ?_ <;>
      simp only [setCtrler_servers, send_servers]
    · exact hc
    · exact ⟨rfl, rfl⟩
  case late hd | client hd => exact same (group hd) (.doOp hd)

theorem Chained.writes {e : Event K V Id} (h : Stepped s e s') (hs : s.Chained plan) :
    s.servers.Writes s'.servers := by
  cases h
  case rpc c _ _ _ _ hv | lost c _ _ _ _ hv =>
    simp only [setCtrler_servers, resend_servers, send_servers]
    exact hv.writes hs.servers (hs.ctrler c)
  case late hd | client hd => exact (Servers.SameConfigs.doOp hd).writes
  case noResponse =>
    simp only [setCtrler_servers, send_servers]
    exact Servers.SameConfigs.writes ⟨rfl, rfl⟩
  all_goals exact Servers.SameConfigs.writes ⟨rfl, rfl⟩

end State

namespace Execution

variable [DecidableEq K] [DecidableEq Id] [Sharded K] (e : Execution K V Id)

-- All configurations that have been saved until a moment, by their numbers.
def plan : Nat → Nat → ShardConfig
  | 0     => fun _ => .first
  | i + 1 => (e.state (i + 1)).servers.extend (plan i)

theorem chained_step (i : Nat) (h : (e.state i).Chained (e.plan i)) :
    (e.state (i + 1)).Chained (e.plan (i + 1)) ∧
    (e.state i).servers.Extends (e.state (i + 1)).servers (e.plan i) (e.plan (i + 1)) := by
  simp only [plan]
  cases e.step_cases i
  case inl hs =>
    rw [hs, h.servers.extend_eq]
    exact ⟨h, Servers.SameConfigs.extends_self ⟨rfl, rfl⟩⟩
  case inr hs =>
    have ⟨_, _, hs⟩ := hs
    exact State.Chained.step (State.stepped hs) h

theorem chained (i : Nat) : (e.state i).Chained (e.plan i) := by
  induction i
  case zero      => exact e.start ▸ State.Chained.init
  case succ i hi => exact (e.chained_step i hi).left

theorem plan_extends {i j : Nat} (h : i ≤ j) :
    (e.state i).servers.Extends (e.state j).servers (e.plan i) (e.plan j) := by
  induction h
  case refl      => exact Servers.SameConfigs.extends_self ⟨rfl, rfl⟩
  case step j _ hi => exact hi.trans (e.chained_step j (e.chained j)).right

theorem writes (i : Nat) : (e.state i).servers.Writes (e.state (i + 1)).servers := by
  cases e.step_cases i
  case inl hs => rw [hs]; exact Servers.SameConfigs.writes ⟨rfl, rfl⟩
  case inr hs =>
    have ⟨_, _, hs⟩ := hs
    exact (e.chained i).writes (State.stepped hs)

-- A configuration is published only if no later one has been saved.
theorem applyConfig_of_published {i : Nat}
    (h : (e.state (i + 1)).servers.config ≠ (e.state i).servers.config) :
    (e.state (i + 1)).servers.applyConfig.value.num =
      (e.state (i + 1)).servers.config.value.num := by
  have hle := (e.chained i).servers.le_succ
  have hle' := (e.chained (i + 1)).servers.le
  have ⟨_, hn⟩ := (e.writes i).config.resolve_left h
  have ha := (e.writes i).one.resolve_left h
  rw [ha] at hle' ⊢
  omega

-- Every configuration of the plan has been saved at some moment.
theorem plan_saved {i n : Nat} (h : n ≤ (e.state i).servers.applyConfig.value.num) :
    ∃ j ≤ i, (e.state j).servers.applyConfig.value = e.plan i n := by
  induction i
  case zero =>
    refine ⟨0, le_rfl, ?_⟩
    rw [e.start]
    rfl
  case succ i hi =>
    by_cases hn : n ≤ (e.state i).servers.applyConfig.value.num
    case pos =>
      have ⟨j, hj, hs⟩ := hi hn
      exact ⟨j, Nat.le_succ_of_le hj, hs.trans ((e.plan_extends (Nat.le_succ i)).plan n hn).symm⟩
    case neg =>
      have hn : n = (e.state (i + 1)).servers.applyConfig.value.num := by
        obtain hw | hw := (e.writes i).applyConfig
        · rw [hw] at h
          omega
        · omega
      exact ⟨i + 1, le_rfl, hn ▸ (e.chained (i + 1)).servers.applyConfig.symm⟩

-- A configuration that is stored under one of the two keys.
def Stores (i : Nat) (cfg : ShardConfig) : Prop :=
  cfg = (e.state i).servers.config.value ∨ cfg = (e.state i).servers.applyConfig.value

theorem Stores.eq_plan {e : Execution K V Id} {i j : Nat} {cfg : ShardConfig} (h : e.Stores i cfg)
    (hj : i ≤ j) : cfg = e.plan j cfg.num := by
  have hc := (e.chained i).servers
  have hp := (e.plan_extends hj).plan
  cases h <;> subst cfg
  case inl => rw [hp _ hc.le, hc.config]
  case inr => rw [hp _ le_rfl, hc.applyConfig]

theorem config_chain :
    (∀ i, Servers.Written (e.state i).servers.config (e.state (i + 1)).servers.config ∧
      Servers.Written (e.state i).servers.applyConfig (e.state (i + 1)).servers.applyConfig) ∧
    (∀ i, (e.state i).servers.config.value.num ≤ (e.state i).servers.applyConfig.value.num ∧
      (e.state i).servers.applyConfig.value.num ≤ (e.state i).servers.config.value.num + 1) ∧
    (∀ i j cfg₁ cfg₂, e.Stores i cfg₁ → e.Stores j cfg₂ → cfg₁.num = cfg₂.num → cfg₁ = cfg₂) ∧
    (∀ i, ∃ j ≤ i, (e.state j).servers.applyConfig.value = (e.state i).servers.config.value) := by
  refine ⟨fun i => ⟨(e.writes i).config, (e.writes i).applyConfig⟩, fun i => ?_,
    fun i j cfg₁ cfg₂ h₁ h₂ hn => ?_, fun i => ?_⟩
  · have hc := (e.chained i).servers
    exact ⟨hc.le, hc.le_succ⟩
  · rw [h₁.eq_plan (le_max_left i j), h₂.eq_plan (le_max_right i j), hn]
  · have hc := (e.chained i).servers
    have ⟨j, hj, h⟩ := e.plan_saved hc.le
    exact ⟨j, hj, h.trans hc.config⟩

end Execution
end ShardKv
