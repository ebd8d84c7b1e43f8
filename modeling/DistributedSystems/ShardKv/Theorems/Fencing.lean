import DistributedSystems.Library.Behavior
import DistributedSystems.ShardKv.Theorems.Group

-- A group that executes any requests in any order, as they come out of its log.
namespace ShardKv

open KvSrv Sharded

variable {K V : Type}

namespace Req

def shardId [Sharded K] : Req K V → Shard
  | put key .. | get key                                                    => key2Shard key
  | freezeShard shardId _ | installShard shardId .. | deleteShard shardId _ => shardId

-- The number of the configuration that a shard operation is part of.
def num : Req K V → Option Nat
  | freezeShard _ num | installShard _ _ num | deleteShard _ num => some num
  | put .. | get _                                               => none

end Req

namespace KVServer

-- Everything that a request can do.
inductive Stepped [Sharded K] (kv : KVServer K V) : Req K V → KVServer K V → Resp K V → Prop
  | ignore {req resp} :
    (req.num ≠ none → resp.err ≠ .ok) → Stepped kv req kv resp
  | put {key value version shardMap resp} :
    (kv.rejects (key2Shard key) = false) →
    (shardMap = none → kv.keyValue (key2Shard key) = some none) →
    Stepped kv (.put key value version) (kv.setMap (key2Shard key) shardMap) resp
  | freeze {shardId n resp} :
    ((kv.config shardId).configVersion ≤ n) → ((kv.config shardId).state ≠ .dontOwnState) →
    Stepped kv (.freezeShard shardId n) (kv.setConfig shardId ⟨.frozenState, n⟩) resp
  | install {shardId state n resp} :
    ((kv.config shardId).configVersion < n) →
    Stepped kv (.installShard shardId state n)
      ((kv.setConfig shardId ⟨.workingState, n⟩).setMap shardId state) resp
  | delete {shardId n resp} :
    ((kv.config shardId).configVersion ≤ n) →
    Stepped kv (.deleteShard shardId n)
      { kv.setConfig shardId ⟨.dontOwnState, n⟩ with
        keyValue := Function.update kv.keyValue shardId none } resp

variable {kv kv' : KVServer K V} {req req' : Req K V} {resp : Resp K V} {shardId : Shard} {n : Nat}

theorem config_setConfig (kv : KVServer K V) (shardId : Shard) (config : Config) :
    (kv.setConfig shardId config).config shardId = config := by
  simp [KVServer.config, setConfig]

theorem config_setMap (kv : KVServer K V) (shardId : Shard) (shardMap : Option (Table K V))
    (s : Shard) :
    (kv.setMap shardId shardMap).config s = kv.config s :=
  rfl

theorem setConfig_eq {config : Config} (h : kv.shardConfiguration shardId = some config) :
    kv.setConfig shardId config = kv := by
  simp only [setConfig, ←h, Function.update_eq_self]

-- Shard operations are never forgotten by the log, but the group ignores those of the past: a
-- request that would not change anything, now or later.
def Past (kv : KVServer K V) : Req K V → Prop
  | .freezeShard shardId n    => n < (kv.config shardId).configVersion ∨
    ((kv.config shardId).configVersion = n ∧ (kv.config shardId).state ≠ .workingState)
  | .installShard shardId _ n => n ≤ (kv.config shardId).configVersion
  | .deleteShard shardId n    => n < (kv.config shardId).configVersion ∨
    (kv.shardConfiguration shardId = some ⟨.dontOwnState, n⟩ ∧ kv.keyValue shardId = none)
  | .put .. | .get _          => False

-- An accepted `InstallShard` without any bytes leaves a nil map behind.
def InstallsNil (kv : KVServer K V) : Req K V → Prop
  | .installShard shardId none n => (kv.config shardId).configVersion < n
  | _                            => False

instance (kv : KVServer K V) : DecidablePred kv.InstallsNil
  | .installShard _ none _     => inferInstanceAs (Decidable (_ < _))
  | .installShard _ (some _) _ => .isFalse id
  | .put .. | .get _ | .freezeShard .. | .deleteShard .. => .isFalse id

def NoNil (kv : KVServer K V) : Prop :=
  ∀ shardId, kv.keyValue shardId ≠ some none

theorem NoNil.setMap (h : kv.NoNil) {shardMap : Option (Table K V)} (hm : shardMap ≠ none) :
    (kv.setMap shardId shardMap).NoNil := by
  intro s
  by_cases hs : s = shardId
  case pos => subst hs; simpa [KVServer.setMap] using hm
  case neg => simpa [KVServer.setMap, hs] using h s

variable [Sharded K]

namespace Stepped

variable (h : kv.Stepped req kv' resp)

include h

theorem same : SameElsewhere kv kv' req.shardId := by
  cases h
  case ignore  => exact .refl kv _
  case put     => exact (SameElsewhere.refl kv _).setMap _
  case freeze  => exact .setConfig kv _ _
  case install => exact (SameElsewhere.setConfig kv _ _).setMap _
  case delete  => exact (SameElsewhere.setConfig kv _ _).unsetMap

theorem config_of_ne (hs : shardId ≠ req.shardId) : kv'.config shardId = kv.config shardId := by
  simp only [KVServer.config, (h.same shardId hs).left]

theorem configVersion_le (shardId : Shard) :
    (kv.config shardId).configVersion ≤ (kv'.config shardId).configVersion := by
  by_cases hs : shardId = req.shardId
  case neg => rw [h.config_of_ne hs]
  case pos =>
    subst hs
    cases h
    case ignore     => exact le_rfl
    case put        => exact le_rfl
    case freeze h _ => exact h.trans_eq (by rw [Req.shardId, config_setConfig])
    case install h  => exact h.le.trans_eq (by rw [Req.shardId, config_setMap, config_setConfig])
    case delete h   => exact h.trans_eq (by simp [Req.shardId, KVServer.config, setConfig])

-- A shard that the clients cannot use gets its data from another group, or loses them.
theorem keyValue_eq (hs : (kv.config shardId).state ≠ .workingState)
    (hi : ∀ state n, req ≠ .installShard shardId state n)
    (hd : ∀ n, req ≠ .deleteShard shardId n) : kv'.keyValue shardId = kv.keyValue shardId := by
  by_cases hx : shardId = req.shardId
  case neg => exact (h.same shardId hx).right
  case pos =>
    subst hx
    cases h
    case ignore  => rfl
    case put h _ => exact absurd (rejects_iff.mpr hs) (by simp [Req.shardId, h])
    case freeze  => rfl
    case install => exact absurd rfl (hi _ _)
    case delete  => exact absurd rfl (hd _)

-- A shard operation that has been executed is one of the past.
theorem past (hn : req.num ≠ none) (hr : resp.err = .ok) : kv'.Past req := by
  cases h
  case ignore h => exact absurd hr (h hn)
  case put      => exact absurd rfl hn
  case freeze   => simp [Past, config_setConfig]
  case install  => simp [Past, config_setMap, config_setConfig]
  case delete   => simp [Past, setConfig]

end Stepped

theorem Past.stepped (hp : kv.Past req) (h : kv.Stepped req' kv' resp) : kv'.Past req := by
  by_cases hs : req.shardId = req'.shardId
  case neg =>
    -- Nothing happens to the shard.
    have hc := h.config_of_ne hs
    have ⟨h₁, h₂⟩ := h.same _ hs
    cases req <;> simp only [Past, Req.shardId] at hp hc h₁ h₂ ⊢
    all_goals simpa only [hc, h₁, h₂] using hp
  case pos =>
    have hv := h.configVersion_le req.shardId
    cases req
    case put | get        => exact hp
    case installShard     => exact Nat.le_trans hp hv
    case freezeShard s n  =>
      cases hp
      case inl hp => exact .inl (Nat.lt_of_lt_of_le hp hv)
      case inr hp =>
        cases h <;> simp only [Req.shardId] at hs <;> subst hs
        case ignore      => exact .inr hp
        case put         => exact .inr hp
        case freeze h _  => simp only [Past, config_setConfig]; simp; omega
        case install h   => simp only [Past, config_setMap, config_setConfig]; omega
        case delete h    => simp [Past, KVServer.config, setConfig] at h hp ⊢; omega
    case deleteShard s n  =>
      cases hp
      case inl hp => exact .inl (Nat.lt_of_lt_of_le hp hv)
      case inr hp =>
        have hc : kv.config s = ⟨.dontOwnState, n⟩ := by simp [KVServer.config, hp.left]
        cases h <;> simp only [Req.shardId] at hs <;> subst hs
        case ignore      => exact .inr hp
        case put h _     => simp [rejects, hc] at h
        case freeze h    => simp [hc] at h
        case install h   =>
          rw [hc] at h
          exact .inl (by rwa [config_setMap, config_setConfig])
        case delete n' _ h =>
          rw [hc] at h
          cases Nat.eq_or_lt_of_le h
          case inl h => subst h; exact .inr ⟨by simp [setConfig], by simp⟩
          case inr h => exact .inl (by simpa [KVServer.config, setConfig] using h)

theorem NoNil.stepped (hk : kv.NoNil) (hi : ¬kv.InstallsNil req) (h : kv.Stepped req kv' resp) :
    kv'.NoNil := by
  cases h
  case ignore => exact hk
  case put h  => exact hk.setMap fun hc => hk _ (h hc)
  case freeze => exact hk
  case install state _ _ h =>
    refine NoNil.setMap hk fun hc => ?_
    subst hc
    exact hi h
  case delete shardId _ _ =>
    intro s
    by_cases hs : s = shardId
    case pos => subst hs; simp
    case neg => simpa [hs] using hk s

variable [DecidableEq K]

theorem doPut_stepped {key value version} (h : kv.doPut key value version = some (kv', resp)) :
    kv.Stepped (.put key value version) kv' resp := by
  cases hr : kv.rejects (key2Shard key)
  case true =>
    simp only [doPut, hr, if_true, Option.some.injEq, Prod.mk.injEq] at h
    obtain ⟨rfl, rfl⟩ := h
    exact .ignore fun hc => absurd rfl hc
  case false =>
    rw [doPut_eq hr] at h
    cases hm : (kv.keyValue (key2Shard key)).getD (some .empty) <;> simp only [hm] at h
    case none =>
      split_ifs at h
      cases h
      refine .put hr fun _ => ?_
      cases hk : kv.keyValue (key2Shard key) <;> simp_all
    case some m =>
      cases h
      exact .put hr (by simp)

theorem doOp_stepped (h : kv.doOp req = some (kv', resp)) : kv.Stepped req kv' resp := by
  cases req
  case put => exact doPut_stepped h
  case get =>
    cases h
    exact .ignore fun hc => absurd rfl hc
  case freezeShard s n =>
    obtain ⟨_, _, hx⟩ | ⟨hr, hx⟩ := kv.doFreezeShard_cases s n <;> simp only [doOp, hx] at h <;>
      cases h
    · exact .ignore fun _ => by simp [Resp.err]
    · simp only [site_refuses, not_or, Nat.not_lt] at hr
      exact .freeze hr.left hr.right
  case installShard s state n =>
    simp only [doOp, doInstallShard] at h
    split at h <;> cases h
    case isTrue    => exact .ignore fun _ => by simp [Resp.err]
    case isFalse h => exact .install (Nat.lt_of_not_le h)
  case deleteShard s n =>
    simp only [doOp, doDeleteShard] at h
    split at h <;> cases h
    case isTrue    => exact .ignore fun _ => by simp [Resp.err]
    case isFalse h => exact .delete (Nat.le_of_not_lt h)

-- The operations of older configurations are refused.
theorem doOp_of_lt (req : Req K V) (hn : req.num = some n)
    (h : n < (kv.config req.shardId).configVersion) :
    ∃ resp, kv.doOp req = some (kv, resp) ∧ resp.err = .errVersion := by
  cases req <;> simp only [Req.num, Option.some.injEq, reduceCtorEq] at hn <;> subst hn
  case freezeShard  => exact ⟨_, congrArg some (if_pos h), rfl⟩
  case installShard => exact ⟨_, congrArg some (if_pos h.le), rfl⟩
  case deleteShard  => exact ⟨_, congrArg some (if_pos h), rfl⟩

theorem Past.doOp (h : kv.Past req) : ∃ resp, kv.doOp req = some (kv, resp) := by
  cases req
  case put | get        => exact h.elim
  case installShard     => exact ⟨_, congrArg some (if_pos h)⟩
  case freezeShard s n  =>
    cases h
    case inl h =>
      obtain ⟨resp, h, _⟩ := doOp_of_lt (.freezeShard s n) rfl h
      exact ⟨resp, h⟩
    case inr h =>
      obtain ⟨h, hw⟩ := h
      obtain ⟨_, _, hx⟩ | ⟨hr, hx⟩ := kv.doFreezeShard_cases s n
      case inl => exact ⟨_, congrArg some hx⟩
      case inr =>
        -- The shard has been frozen with this number already.
        have hd := (not_or.mp (site_refuses.not.mp hr)).right
        have hf : (kv.config s) = ⟨.frozenState, n⟩ := by
          cases hc : kv.config s with | mk state v => cases state <;> simp_all
        have hf : kv.shardConfiguration s = some ⟨.frozenState, n⟩ := by
          cases hc : kv.shardConfiguration s <;> simp_all [KVServer.config]
        rw [setConfig_eq hf] at hx
        exact ⟨_, congrArg some hx⟩
  case deleteShard s n  =>
    cases h
    case inl h =>
      obtain ⟨resp, h, _⟩ := doOp_of_lt (.deleteShard s n) rfl h
      exact ⟨resp, h⟩
    case inr h =>
      obtain ⟨h, hk⟩ := h
      have hc : kv.config s = ⟨.dontOwnState, n⟩ := by simp [KVServer.config, h]
      have hu : Function.update kv.keyValue s none = kv.keyValue := by
        rw [←hk, Function.update_eq_self]
      refine ⟨.deleteShard .ok, congrArg some ?_⟩
      simp only [doDeleteShard, hc, Nat.lt_irrefl, if_false, setConfig_eq h, hu, gt_iff_lt]

theorem NoNil.doOp (h : kv.NoNil) (req : Req K V) : kv.doOp req ≠ none := by
  cases req
  case put key value version =>
    cases hr : kv.rejects (key2Shard key)
    case true  => simp [KVServer.doOp, doPut, hr]
    case false =>
      simp only [KVServer.doOp, doPut_eq hr]
      cases hm : (kv.keyValue (key2Shard key)).getD (some .empty)
      case some => simp
      case none =>
        cases hk : kv.keyValue (key2Shard key) <;> simp [hk] at hm
        exact absurd (hm ▸ hk) (h _)
  all_goals exact Option.some_ne_none _

end KVServer

-- Runs of a group

def group (K V : Type) [DecidableEq K] [Sharded K] (gid : Gid) :
    System (KVServer K V) (Req K V) where
  init        := .start gid
  next kv req := (kv.doOp req).map Prod.fst

variable [DecidableEq K] [Sharded K] {gid : Gid}

theorem group_next {kv kv' : KVServer K V} {req} (h : (group K V gid).next kv req = some kv') :
    ∃ resp, kv.doOp req = some (kv', resp) := by
  have ⟨⟨_, resp⟩, hx, hk⟩ := Option.map_eq_some_iff.mp h
  exact ⟨resp, hx.trans (hk ▸ rfl)⟩

namespace KVServer

variable (b : System.Behavior (group K V gid))

theorem configVersion_mono (shardId : Shard) :
    Monotone fun i => ((b.state i).config shardId).configVersion := by
  intro i j hij
  refine b.rel_of_le
    (r := fun kv kv' => (kv.config shardId).configVersion ≤ (kv'.config shardId).configVersion)
    (fun _ => le_rfl) (fun _ _ _ => le_trans) (fun i req kv' _ hn => ?_) hij
  have ⟨_, h⟩ := group_next hn
  exact (doOp_stepped h).configVersion_le shardId

theorem Past.mono {i j : Nat} {req : Req K V} (h : (b.state i).Past req) (hij : i ≤ j) :
    (b.state j).Past req := by
  refine b.rel_of_le (r := fun kv kv' => kv.Past req → kv'.Past req) (fun _ => id)
    (fun _ _ _ h₁ h₂ => h₂ ∘ h₁) (fun i req' kv' _ hn hp => ?_) hij h
  have ⟨_, h⟩ := group_next hn
  exact hp.stepped (doOp_stepped h)

theorem noNil (h : b.Avoids InstallsNil) (i : Nat) : (b.state i).NoNil := by
  refine b.invariant (fun _ => nofun) (fun i req kv' hl hn hk => ?_) i
  have ⟨_, hx⟩ := group_next hn
  exact hk.stepped (h i req hl) (doOp_stepped hx)

-- Shard operations are fenced by their numbers, can be repeated, and stay within their shard.
theorem shard_fenced :
    (∀ shardId, Monotone fun i => ((b.state i).config shardId).configVersion) ∧
    (∀ i req n, req.num = some n → n < ((b.state i).config req.shardId).configVersion →
      ∃ resp, (b.state i).doOp req = some (b.state i, resp) ∧ resp.err = .errVersion) ∧
    (∀ i j req resp, req.num ≠ none → (b.state i).doOp req = some (b.state (i + 1), resp) →
      resp.err = .ok → i < j → ∃ resp', (b.state j).doOp req = some (b.state j, resp')) ∧
    (∀ i req kv resp, (b.state i).doOp req = some (kv, resp) →
      ∀ shardId ≠ req.shardId,
        kv.shardConfiguration shardId = (b.state i).shardConfiguration shardId ∧
        kv.keyValue shardId = (b.state i).keyValue shardId) ∧
    (∀ i req kv resp shardId, (b.state i).doOp req = some (kv, resp) →
      ((b.state i).config shardId).state ≠ .workingState →
      (∀ state n, req ≠ .installShard shardId state n) → (∀ n, req ≠ .deleteShard shardId n) →
      kv.keyValue shardId = (b.state i).keyValue shardId) := by
  refine ⟨configVersion_mono b, fun _ req _ => doOp_of_lt req, fun i j req resp hn h hr hij => ?_,
    fun i req kv resp h => (doOp_stepped h).same, fun i req kv resp shardId h =>
      (doOp_stepped h).keyValue_eq⟩
  exact (((doOp_stepped h).past hn hr).mono b hij).doOp

-- The shard of the empty key leaves its first group in configuration 2 and comes back in
-- configuration 3, before the requests of configuration 2 are executed once more.
def returned : List (Req (List UInt8) Nat) := [
  .freezeShard 1 2, .deleteShard 1 2, .installShard 1 (some .empty) 3, .freezeShard 1 2,
  .deleteShard 1 2]

theorem shard_fenced_returned :
    ∃ b : System.Behavior (group (List UInt8) Nat gid1),
      (∃ resp, (b.state 0).doOp (.freezeShard 1 2) = some (b.state 1, resp) ∧ resp.err = .ok) ∧
      (∃ resp, (b.state 3).doOp (.freezeShard 1 2) = some (b.state 3, resp)) :=
  let b := System.Behavior.ofActions (group (List UInt8) Nat gid1) returned (by rfl)
  have h : (b.state 0).doOp (.freezeShard 1 2) = some (b.state 1,
      .freezeShard (some .empty) 2 .ok) := by rfl
  ⟨b, ⟨_, h, rfl⟩, (shard_fenced b).right.right.left 0 3 _ _ nofun h rfl (by decide)⟩

-- As long as no nil map is installed, no request makes the replicas panic.
theorem doOp_ne_none (h : b.Avoids InstallsNil) (i : Nat) (req : Req K V) :
    (b.state i).doOp req ≠ none :=
  (noNil b h i).doOp req

theorem doOp_ne_none_returned :
    ∃ b : System.Behavior (group (List UInt8) Nat gid1), b.Avoids InstallsNil ∧
      (b.state 3).doOp (.put [] 7 0) ≠ none :=
  let b := System.Behavior.ofActions (group (List UInt8) Nat gid1) returned (by rfl)
  have h : b.Avoids InstallsNil := System.Behavior.avoids_ofActions (by decide)
  ⟨b, h, doOp_ne_none b h 3 _⟩

-- A group that did not own the shard has answered `FreezeShard` without a state, which the
-- controller has passed on. The first key that is written to the shard then makes all replicas
-- panic.
theorem nil_installed :
    ¬∀ (gid : Gid) (b : System.Behavior (group (List UInt8) Nat gid)) (i : Nat)
      (req : Req (List UInt8) Nat),
      (b.state i).doOp req ≠ none := by
  intro h
  exact h 2 (.ofActions _ [.installShard 1 none 2] rfl) 1 (.put [] 7 0) (by decide)

end KVServer
end ShardKv
