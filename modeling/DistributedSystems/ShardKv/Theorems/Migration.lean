import DistributedSystems.ShardKv.Theorems.Ownership

-- Controllers that run one after another do not run into the hazards of concurrent ones, wherever
-- each of them stops. So the groups together behave like one flat store.
namespace ShardKv

open KvSrv Sharded

variable {K V Id : Type}

-- What a controller may rely on while it is the only one that runs: it keeps the lock, and the
-- published configuration does not change behind its back.
def Caller.Steady (caller : Caller K V) (c : Id) (sv : Servers K V Id) : Prop :=
  match caller with
  | .changeConfiguration => True
  | .moveShardToGroup .. => sv.lockedBy c
  | .nextShard _ _ moved => sv.lockedBy c ∧ moved = true

def Pc.Steady (pc : Pc K V) (c : Id) (sv : Servers K V Id) : Prop :=
  match pc with
  | .idle | .saveApplyConfigGet _ | .saveApplyConfigPut .. | .releaseLock => True
  | .acquireLockPut caller | .acquireLockGet caller => caller.Steady c sv
  | .query | .moveShardToGroup .. | .publishQuery _ | .publishPut _ => sv.lockedBy c
  | .getConfigToApply oldCfg => sv.lockedBy c ∧ oldCfg.num = sv.config.value.num

namespace Pc.Steady

variable {c : Id} {sv sv' : Servers K V Id} {pc : Pc K V} {caller : Caller K V}

theorem enter (h : sv.lockedBy c) (job : Job) (shardId : Shard) :
    (job.enter shardId : Pc K V).Steady c sv := by
  simp only [Job.enter]
  split
  · exact h
  · exact ⟨h, rfl⟩

theorem next (h : sv.lockedBy c) (job : Job) (shardId : Shard) :
    (job.next shardId : Pc K V).Steady c sv := by
  simp only [Job.next]
  split
  · exact enter h ..
  · exact h

theorem acquired (h : sv.lockedBy c) {sck : ShardCtrler K V} (v : Nat) (caller : Caller K V) :
    (sck.acquired v caller).pc.Steady c sv := by
  cases caller
  case changeConfiguration | moveShardToGroup => exact h
  case nextShard job shardId _ => exact next h job shardId

-- A controller that finds the lock with somebody else has not had it yet.
theorem not_locked (h : caller.Steady c sv) (hl : ¬ sv.lockedBy c) :
    caller = .changeConfiguration := by
  cases caller
  case changeConfiguration => rfl
  case moveShardToGroup    => exact absurd h hl
  case nextShard           => exact absurd h.left hl

theorem congr (h : pc.Steady c sv) (hl : sv'.lock = sv.lock) (hc : sv'.config = sv.config) :
    pc.Steady c sv' := by
  have he : sv'.lockedBy c ↔ sv.lockedBy c := by simp only [Servers.lockedBy, hl]
  cases pc <;> simp only [Steady, he, hc] at h ⊢ <;> try exact h
  case acquireLockPut caller | acquireLockGet caller =>
    cases caller <;> simp only [Caller.Steady, he] at h ⊢ <;> exact h

end Pc.Steady

namespace Served

variable [DecidableEq K] [Sharded K]
variable {c : Id} {sv sv' : Servers K V Id} {sck sck' : ShardCtrler K V}

theorem steady (h : Served c sv sck sv' sck') (hs : sck.pc.Steady c sv) :
    sck.pc.Steady c sv' ∧ sck'.pc.Steady c sv' := by
  have group {gid req resp} (hd : sv.doOp gid req = some (sv', resp)) :
      sck.pc.Steady c sv' := by
    obtain ⟨_, -, rfl⟩ := Servers.doOp_some hd
    exact hs.congr rfl rfl
  cases h
  case saveUnneeded | saveNeeded | notSaved | upToDate | publishUnneeded | notReleased =>
    exact ⟨hs, trivial⟩
  case saved => exact ⟨hs.congr rfl rfl, trivial⟩
  case lockPut caller hpc _ =>
    have hl : (sv.setLock (some c)).lockedBy c := rfl
    refine ⟨?_, .acquired hl ..⟩
    rw [hpc] at hs ⊢
    cases caller
    case changeConfiguration => trivial
    case moveShardToGroup    => exact hl
    case nextShard           => exact ⟨hl, hs.right⟩
  case lockNotPut hpc _ _ =>
    refine ⟨hs, ?_⟩
    rw [hpc] at hs
    exact hs
  case lockMissing => exact ⟨hs, hs⟩
  case lockOwned hl => exact ⟨hs, .acquired hl ..⟩
  case lockLost hpc hl | lockFree hpc hl _ | lockTaken hpc hl _ =>
    refine ⟨hs, ?_⟩
    rw [hpc] at hs
    rw [Pc.Steady.not_locked hs hl]
    trivial
  case query hpc =>
    refine ⟨hs, ?_⟩
    rw [hpc] at hs
    exact ⟨hs, rfl⟩
  case outdated hpc _ =>
    refine ⟨hs, ?_⟩
    rw [hpc] at hs
    exact .enter hs.left ..
  case frozen hpc hd | installed hpc hd | deleted hpc hd =>
    have hs' := group hd
    refine ⟨hs', ?_⟩
    rw [hpc] at hs'
    first | exact hs' | exact ⟨hs', rfl⟩
  case publishNeeded hpc _ | notPublished hpc _ =>
    refine ⟨hs, ?_⟩
    rw [hpc] at hs
    exact hs
  case published hpc _ =>
    rw [hpc] at hs ⊢
    exact ⟨hs, trivial⟩
  case released hpc _ =>
    rw [hpc]
    exact ⟨trivial, trivial⟩

end Served

namespace State

variable [DecidableEq K] [DecidableEq Id] [Sharded K] {s s' : State K V Id} {c : Id}

-- The controller that an event belongs to.
def actor (s : State K V Id) : Event K V Id → Option Id
  | .initController c | .changeConfigTo c _ | .rpc c | .lost c | .dropped c | .noResponse c =>
    some c
  | .late k => s.sent[k]?.map Prod.fst
  | .query | .client .. => none

theorem Stepped.ctrler_eq {e : Event K V Id} (h : Stepped s e s') (ha : s.actor e ≠ some c) :
    s'.ctrler c = s.ctrler c := by
  have other {c'} (hc : some c' ≠ some c) : c ≠ c' := fun h => hc (by rw [h])
  cases h
  case initController hc | changeConfigTo hc | dropped hc =>
    exact Function.update_of_ne (other ha) ..
  case query | late | client => rfl
  case rpc | lost | noResponse =>
    simp only [State.setCtrler, State.resend, send_ctrler]
    exact Function.update_of_ne (other ha) ..

theorem Stepped.steady {e : Event K V Id} (h : Stepped s e s')
    (ha : ∀ c', s.actor e = some c' → c' = c) (hs : (s.ctrler c).pc.Steady c s.servers) :
    (s'.ctrler c).pc.Steady c s'.servers := by
  have group {gid req servers resp} (hd : s.servers.doOp gid req = some (servers, resp)) :
      (s.ctrler c).pc.Steady c servers := by
    obtain ⟨_, -, rfl⟩ := Servers.doOp_some hd
    exact hs.congr rfl rfl
  cases h
  case initController | changeConfigTo =>
    obtain rfl := ha _ rfl
    simp only [State.setCtrler, Function.update_self]
    trivial
  case query => exact hs
  case rpc hv =>
    obtain rfl := ha _ rfl
    simp only [State.setCtrler, Function.update_self, send_servers]
    exact (hv.steady hs).right
  case lost hv =>
    obtain rfl := ha _ rfl
    simp only [State.resend, State.setCtrler, Function.update_self, send_servers, send_ctrler]
    exact (hv.steady hs).left
  case dropped =>
    obtain rfl := ha _ rfl
    simp only [State.resend, State.setCtrler, Function.update_self]
    exact hs
  case noResponse hpc =>
    obtain rfl := ha _ rfl
    simp only [State.setCtrler, Function.update_self, send_servers]
    rw [hpc] at hs
    exact hs
  case late hd | client hd => exact group hd

omit [DecidableEq K] [DecidableEq Id] [Sharded K] in
theorem Chained.not_hazard {plan} (h : s.Chained plan) (hs : (s.ctrler c).pc.Steady c s.servers) :
    ¬ (s.ctrler c).Hazard c s.servers := by
  intro hz
  simp only [ShardCtrler.Hazard, Pc.Hazard] at hz
  have hle := h.servers.le_succ
  split at hz
  case h_1 hpc =>
    rw [hpc] at hs
    have := hs.right
    omega
  case h_2 hpc | h_3 hpc =>
    rw [hpc] at hs
    cases hs.right
  case h_4 => exact hz

end State

namespace Execution

variable [DecidableEq K] [DecidableEq Id] [Sharded K] {e : Execution K V Id}

-- At each moment only the controller `cur i` runs, and a controller that has been followed by
-- another one does not return. Requests of a controller that are executed late are executed before.
structure Sequential (e : Execution K V Id) (cur : Nat → Id) : Prop where
  actor  : ∀ i a c, e.label i = some a → (e.state i).actor a = some c → c = cur i
  passed : ∀ i j k, i ≤ j → j ≤ k → cur i = cur k → cur j = cur i

namespace Sequential

variable {cur : Nat → Id}

theorem untouched (h : e.Sequential cur) {i c} (hc : ∀ j < i, cur j ≠ c) :
    (e.state i).ctrler c = .make := by
  induction i
  case zero => rw [e.start]; rfl
  case succ i hi =>
    rw [←hi fun j hj => hc j (Nat.lt_succ_of_lt hj)]
    cases e.step_cases i
    case inl hs => rw [hs]
    case inr hs =>
      have ⟨a, ha, hs⟩ := hs
      refine (State.stepped hs).ctrler_eq fun hx => ?_
      exact hc i (Nat.lt_succ_self i) (h.actor i a c ha hx).symm

theorem steady (h : e.Sequential cur) (i : Nat) :
    ((e.state i).ctrler (cur i)).pc.Steady (cur i) (e.state i).servers := by
  induction i
  case zero =>
    rw [e.start]
    trivial
  case succ i hi =>
    by_cases hc : cur (i + 1) = cur i
    case pos =>
      rw [hc]
      cases e.step_cases i
      case inl hs => rwa [hs]
      case inr hs =>
        have ⟨a, ha, hs⟩ := hs
        exact (State.stepped hs).steady (fun c => h.actor i a c ha) hi
    case neg =>
      -- The next controller has not done anything yet.
      have hn j (hj : j < i + 1) : cur j ≠ cur (i + 1) := fun he =>
        hc ((h.passed j i (i + 1) (Nat.le_of_lt_succ hj) (Nat.le_succ i) he).trans he).symm
      rw [h.untouched hn]
      trivial

theorem guarded (h : e.Sequential cur) : e.Guarded := by
  intro i a ha hz
  cases a
  case rpc c =>
    obtain rfl := h.actor i _ c ha rfl
    exact (e.chained i).not_hazard (h.steady i) hz
  all_goals exact hz

end Sequential

-- One store that executes the requests that are accepted by any group, in the same order.
def flat (e : Execution K V Id) : Nat → KvSrv.KVServer K V
  | 0     => fun _ => none
  | i + 1 =>
    match (e.label i).bind (e.state i).accepts with
    | none          => flat e i
    | some (req, _) => (req.flat (flat e i)).elim (flat e i) Prod.fst

theorem Guarded.refines_flat (h : e.Guarded) (i : Nat) :
    ∃ m, (e.state i).Refines m ∧ m.flat = e.flat i := by
  induction i
  case zero =>
    rw [e.start]
    exact ⟨_, State.Refines.init, rfl⟩
  case succ i hi =>
    have ⟨m, hm, hf⟩ := hi
    have hs := e.step i
    simp only [flat]
    cases ha : e.label i <;> simp only [ha, Option.elim, Option.bind_none, Option.bind_some] at hs ⊢
    case none => exact ⟨m, hs ▸ hm, hf⟩
    case some a =>
      have ⟨m', hm', h₁, h₂⟩ := hm.step (State.stepped hs) (h i a ha)
      refine ⟨m', hm', ?_⟩
      cases hx : (e.state i).accepts a
      case none => exact (h₂ hx).trans hf
      case some r =>
        have hr := h₁ r.fst r.snd hx
        rw [hf] at hr
        simp only [hr]

theorem migration (e : Execution K V Id) (cur : Nat → Id) (h : e.Sequential cur) :
    (∀ i a req resp, e.label i = some a → (e.state i).accepts a = some (req, resp) →
      req.flat (e.flat i) = some (e.flat (i + 1), resp)) ∧
    (∀ i, (e.state (i + 1)).servers.config ≠ (e.state i).servers.config → ∀ shardId,
      (e.state (i + 1)).Working
        ((e.state (i + 1)).servers.config.value.shards shardId) shardId) := by
  refine ⟨fun i a req resp ha hx => ?answer, fun i hc shardId => ?publish⟩
  case answer =>
    have ⟨m, hm, hf⟩ := h.guarded.refines_flat i
    have ⟨m', _, hr, _⟩ := hm.step (State.stepped (e.next_of_label ha)) (h.guarded i a ha)
    have hr := hf ▸ hr req resp hx
    simp only [flat, ha, Option.bind_some, hx, hr, Option.elim]
  case publish =>
    have ⟨m, hm, _⟩ := h.guarded.refines_flat (i + 1)
    have hv := hm.models shardId
    have hs := hv.source
    rw [hv.settled (e.applyConfig_of_published hc)] at hs
    have ⟨_, hx, _⟩ := hs
    have ho : (m.plan (e.state (i + 1)).servers.config.value.num).shards shardId =
        (e.state (i + 1)).servers.config.value.shards shardId := by rw [hm.chained.servers.config]
    refine KVServer.site_active.mp ?_
    rw [←ho]
    exact congrArg Handover.Site.status hx

theorem Sequential.ofActions {as : List (Event K V Id)}
    {h : ((shardKv K V Id).exec .init as).isSome} {cur : Nat → Id}
    (hp : ∀ i j k, i ≤ j → j ≤ k → cur i = cur k → cur j = cur i) (ha : ∀ i : Fin as.length,
      ∀ c ∈ ((System.Behavior.ofActions _ as h).state i).actor (as.get i), c = cur i) :
    Execution.Sequential (.ofActions (shardKv K V Id) as h) cur where
  actor i a c hl hc := by
    obtain ⟨hi, rfl⟩ := List.getElem?_eq_some_iff.mp hl
    exact ha ⟨i, hi⟩ c hc
  passed := hp

-- Controller 0 stops after it has installed the shard in group 2, where a client changes a key
-- right away. Controller 1 moves the shard again.
def recovery : List (Event (List UInt8) String Nat) := .flatten [
  [.query, .client 1 (.put [109] "x" 0), .changeConfigTo 0 (moveTo 2 2)], .replicate 6 (.rpc 0),
  [.client 1 (.get [109]), .rpc 0, .client 2 (.put [109] "y" 1), .initController 1],
  .replicate 23 (.rpc 1), [.client 2 (.get [109])]
]

def recovered : Execution (List UInt8) String Nat :=
  .ofActions (shardKv _ _ _) recovery (by decide +kernel)

theorem recovered_sequential : recovered.Sequential fun i => if i < 11 then 0 else 1 := by
  refine .ofActions (fun i j k h₁ h₂ h => ?_) ?_
  · split_ifs at h ⊢ <;> omega
  · decide +kernel

theorem migration_recovered :
    (((recovered.state 36).accepts (.client 2 (.get [109]))).isSome ∧
      recovered.flat 36 [109] = some ⟨2, "y"⟩ ∧
      ∀ req resp, (recovered.state 36).accepts (.client 2 (.get [109])) = some (req, resp) →
      req.flat (recovered.flat 36) = some (recovered.flat 37, resp)) ∧
    (recovered.state 35).servers.config ≠ (recovered.state 34).servers.config ∧
    (recovered.state 35).Working 2 0 := by
  have h := migration recovered _ recovered_sequential
  have hc : (recovered.state 35).servers.config ≠ (recovered.state 34).servers.config := by
    decide +kernel
  have hl : recovery[36]? = some (.client 2 (.get [109])) := rfl
  refine ⟨⟨by decide +kernel, by decide +kernel, fun req resp => h.left 36 _ req resp hl⟩, hc, ?_⟩
  have hg : (recovered.state 35).servers.config.value.shards 0 = 2 := by decide +kernel
  have hw := h.right 34 hc 0
  rwa [hg] at hw

end Execution
end ShardKv
