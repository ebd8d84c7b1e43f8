import DistributedSystems.ShardKv.Controller
import DistributedSystems.ShardKv.Theorems.Group

-- What one RPC of a controller does, to the servers and to the controller that receives the reply.
namespace ShardKv

open KvSrv

variable {K V Id : Type} [DecidableEq K] [DecidableEq Id] [Sharded K]

namespace Servers

-- The version that a `Put` to the lock has to name.
def lockVersion (sv : Servers K V Id) : Nat :=
  sv.lock.elim 0 Data.version

def lockedBy (sv : Servers K V Id) (c : Id) : Prop :=
  sv.lock.map Data.value = some (some c)

instance (sv : Servers K V Id) (c : Id) : Decidable (sv.lockedBy c) :=
  inferInstanceAs (Decidable (_ = _))

def setLock (sv : Servers K V Id) (value : Option Id) : Servers K V Id :=
  { sv with lock := some ⟨sv.lockVersion + 1, value⟩ }

omit [DecidableEq Id] in
theorem doOp_some {sv sv' : Servers K V Id} {gid req resp}
    (h : sv.doOp gid req = some (sv', resp)) :
    ∃ kv, (sv.group gid).doOp req = some (kv, resp) ∧
    sv' = { sv with group := Function.update sv.group gid kv } := by
  simp only [doOp, Option.map_eq_some_iff, Prod.mk.injEq] at h
  obtain ⟨⟨kv, _⟩, hd, rfl, rfl⟩ := h
  exact ⟨kv, hd, rfl⟩

end Servers

inductive Served (c : Id) (sv : Servers K V Id) (sck : ShardCtrler K V) :
    Servers K V Id → ShardCtrler K V → Prop
  | saveUnneeded {new} :
    sck.pc = .saveApplyConfigGet new → new.num ≤ sv.applyConfig.value.num →
    Served c sv sck sv { sck with pc := .acquireLockPut .changeConfiguration }
  | saveNeeded {new} :
    sck.pc = .saveApplyConfigGet new → sv.applyConfig.value.num < new.num →
    Served c sv sck sv { sck with pc := .saveApplyConfigPut new sv.applyConfig.version }
  | saved {new version} :
    sck.pc = .saveApplyConfigPut new version → version = sv.applyConfig.version →
    Served c sv sck { sv with applyConfig := ⟨version + 1, new⟩ }
      { sck with pc := .acquireLockPut .changeConfiguration }
  | notSaved {new version} :
    sck.pc = .saveApplyConfigPut new version → version ≠ sv.applyConfig.version →
    Served c sv sck sv { sck with pc := .saveApplyConfigGet new }
  | lockPut {caller} :
    sck.pc = .acquireLockPut caller → sv.lockVersion = sck.lockVersion →
    Served c sv sck (sv.setLock (some c)) (sck.acquired (sck.lockVersion + 1) caller)
  | lockNotPut {caller} :
    sck.pc = .acquireLockPut caller → sv.lockVersion ≠ sck.lockVersion → sv.lock ≠ none →
    Served c sv sck sv { sck with pc := .acquireLockGet caller }
  | lockMissing {caller} :
    sck.pc = .acquireLockPut caller → sv.lockVersion ≠ sck.lockVersion → sv.lock = none →
    Served c sv sck sv sck
  | lockOwned {caller} :
    sck.pc = .acquireLockGet caller → sv.lockedBy c →
    Served c sv sck sv (sck.acquired (sv.lockVersion + 1) caller)
  | lockLost {caller} :
    sck.pc = .acquireLockGet caller → ¬ sv.lockedBy c →
    Served c sv sck sv (sck.denied false caller)
  | lockFree {caller} :
    sck.pc = .acquireLockGet caller → ¬ sv.lockedBy c → sck.wasLeader = false →
    Served c sv sck sv { sck with lockVersion := sv.lockVersion, pc := .acquireLockPut caller }
  | lockTaken {caller} :
    sck.pc = .acquireLockGet caller → ¬ sv.lockedBy c → sck.wasLeader = false →
    Served c sv sck sv ({ sck with lockVersion := sv.lockVersion }.denied true caller)
  | query :
    sck.pc = .query →
    Served c sv sck sv { sck with
      currentVersion := sv.config.version
      pc             := .getConfigToApply sv.config.value }
  | upToDate {oldCfg} :
    sck.pc = .getConfigToApply oldCfg → sv.applyConfig.value.num ≤ oldCfg.num →
    Served c sv sck sv { sck with currentVersion := sv.applyConfig.version, pc := .releaseLock }
  | outdated {oldCfg} :
    sck.pc = .getConfigToApply oldCfg → oldCfg.num < sv.applyConfig.value.num →
    Served c sv sck sv { sck with
      currentVersion := sv.applyConfig.version
      pc             := Job.enter ⟨oldCfg, sv.applyConfig.value⟩ 0 }
  | frozen {job : Job} {shardId sv' state num err} :
    sck.pc = .moveShardToGroup job shardId .freezeShard →
    sv.doOp (job.oldCfg.shards shardId) (.freezeShard shardId job.newCfg.num) =
      some (sv', .freezeShard state num err) →
    Served c sv sck sv' { sck with pc := .moveShardToGroup job shardId (.installShard state) }
  | installed {job : Job} {shardId state sv' resp} :
    sck.pc = .moveShardToGroup job shardId (.installShard state) →
    sv.doOp (job.newCfg.shards shardId) (.installShard shardId state job.newCfg.num) =
      some (sv', resp) →
    Served c sv sck sv' { sck with pc := .moveShardToGroup job shardId .deleteShard }
  | deleted {job : Job} {shardId sv' resp} :
    sck.pc = .moveShardToGroup job shardId .deleteShard →
    sv.doOp (job.oldCfg.shards shardId) (.deleteShard shardId job.newCfg.num) = some (sv', resp) →
    Served c sv sck sv' { sck with pc := .acquireLockPut (.nextShard job shardId true) }
  | publishUnneeded {newCfg} :
    sck.pc = .publishQuery newCfg → newCfg.num ≤ sv.config.value.num →
    Served c sv sck sv { sck with currentVersion := sv.config.version, pc := .releaseLock }
  | publishNeeded {newCfg} :
    sck.pc = .publishQuery newCfg → sv.config.value.num < newCfg.num →
    Served c sv sck sv { sck with currentVersion := sv.config.version, pc := .publishPut newCfg }
  | published {newCfg} :
    sck.pc = .publishPut newCfg → sck.currentVersion = sv.config.version →
    Served c sv sck { sv with config := ⟨sck.currentVersion + 1, newCfg⟩ }
      { sck with currentVersion := sck.currentVersion + 1, pc := .releaseLock }
  | notPublished {newCfg} :
    sck.pc = .publishPut newCfg → sck.currentVersion ≠ sv.config.version →
    Served c sv sck sv { sck with pc := .publishQuery newCfg }
  | released :
    sck.pc = .releaseLock → sv.lockVersion = sck.lockVersion →
    Served c sv sck (sv.setLock none) { sck with lockVersion := sck.lockVersion + 1, pc := .idle }
  | notReleased :
    sck.pc = .releaseLock → sv.lockVersion ≠ sck.lockVersion →
    Served c sv sck sv { sck with lockVersion := sck.lockVersion + 1, pc := .idle }

namespace ShardCtrler

variable {c : Id} {sv sv' : Servers K V Id} {sck : ShardCtrler K V} {reply : Reply K V Id}

section

variable {K V : Type} {sck : ShardCtrler K V} (caller : Caller K V)

theorem receiveLockPut_ok :
    sck.receiveLockPut caller .ok = sck.acquired (sck.lockVersion + 1) caller := by
  rw [receiveLockPut, Clerk.err_ok]
  rfl

theorem receiveLockPut_errVersion :
    sck.receiveLockPut caller .errVersion = { sck with pc := .acquireLockGet caller } := by
  rw [receiveLockPut]
  obtain h | h := Clerk.err_errVersion sck.isFirstTry <;> rw [h] <;> rfl

theorem receiveLockPut_errNoKey :
    sck.receiveLockPut caller .errNoKey = { sck with pc := .acquireLockPut caller } := by
  rw [receiveLockPut, Clerk.err_errNoKey]
  rfl

end

omit [DecidableEq Id] in
theorem serve_lock {value : Option Id} {version}
    (h : sv.serve (.putLock value version) = some (sv', reply)) :
    (sv.lockVersion = version ∧ sv' = sv.setLock value ∧ reply = .put .ok) ∨
    (sv.lockVersion ≠ version ∧ sv.lock ≠ none ∧ sv' = sv ∧ reply = .put .errVersion) ∨
    (sv.lockVersion ≠ version ∧ sv.lock = none ∧ sv' = sv ∧ reply = .put .errNoKey) := by
  simp only [Servers.serve, Option.some.injEq, Prod.mk.injEq] at h
  obtain ⟨rfl, rfl⟩ := h
  obtain ⟨hv, h⟩ | ⟨hv, hl, h⟩ | ⟨hv, hl, h⟩ := put_cases sv.lock value version
  · exact .inl ⟨hv, by rw [h, ←hv]; rfl, by rw [h]⟩
  · exact .inr <| .inl ⟨hv, hl, by rw [h], by rw [h]⟩
  · exact .inr <| .inr ⟨hv, hl, by rw [h], by rw [h]⟩

omit [DecidableEq Id] in
theorem doOp_freezeShard {gid shardId n resp}
    (h : sv.doOp gid (.freezeShard shardId n) = some (sv', resp)) :
    ∃ state num err, resp = .freezeShard state num err := by
  have ⟨_, h, _⟩ := Servers.doOp_some h
  have ⟨state, num, err, he, _⟩ := (sv.group gid).doFreezeShard_copy shardId n
  exact ⟨state, num, err, (congrArg Prod.snd (Option.some.inj h)).symm.trans he⟩

theorem rpc_acquireLockPut {caller} (hpc : sck.pc = .acquireLockPut caller)
    (h : sv.serve (.putLock (some c) sck.lockVersion) = some (sv', reply)) :
    Served c sv sck sv' (sck.receive c reply) := by
  obtain ⟨hv, rfl, rfl⟩ | ⟨hv, hl, rfl, rfl⟩ | ⟨hv, hl, rfl, rfl⟩ := serve_lock h <;>
    simp only [receive, hpc]
  · exact receiveLockPut_ok caller ▸ .lockPut hpc hv
  · exact receiveLockPut_errVersion caller ▸ .lockNotPut hpc hv hl
  · rw [receiveLockPut_errNoKey, ←hpc]
    exact .lockMissing hpc hv hl

theorem rpc_acquireLockGet {caller} (hpc : sck.pc = .acquireLockGet caller) :
    Served c sv sck sv (sck.receive c (.lock sv.lock)) := by
  simp only [receive, hpc, receiveLockGet, Lease.Fields.acquireGet]
  split_ifs with h
  · exact .lockOwned hpc h
  · exact .lockLost hpc h
  · exact .lockFree hpc h (Bool.eq_false_iff.mpr ‹_›)
  · exact .lockLost hpc h
  · exact .lockTaken hpc h (Bool.eq_false_iff.mpr ‹_›)

-- Every RPC of a controller is one of the cases above.
theorem served {rpc} (hr : sck.rpc c = some rpc) (h : sv.serve rpc = some (sv', reply)) :
    Served c sv sck sv' (sck.receive c reply) := by
  cases hpc : sck.pc <;> simp only [ShardCtrler.rpc, hpc, Option.some.injEq, reduceCtorEq] at hr
  case acquireLockPut => exact rpc_acquireLockPut hpc (hr ▸ h)
  case acquireLockGet =>
    obtain ⟨rfl, rfl⟩ := hr ▸ h
    exact rpc_acquireLockGet hpc
  case saveApplyConfigGet new =>
    obtain ⟨rfl, rfl⟩ := hr ▸ h
    simp only [receive, hpc]
    split
    case isTrue hn  => exact .saveUnneeded hpc hn
    case isFalse hn => exact .saveNeeded hpc (Nat.lt_of_not_le hn)
  case saveApplyConfigPut new version =>
    subst hr
    simp only [Servers.serve, Option.some.injEq, Prod.mk.injEq] at h
    obtain ⟨rfl, rfl⟩ := h
    obtain ⟨hv, h⟩ | ⟨hv, h⟩ := sv.applyConfig.put_cases new version <;>
      simp only [receive, hpc, h, Clerk.err_eq_ok, reduceCtorEq, if_true, if_false]
    · exact .saved hpc hv
    · exact .notSaved hpc hv
  case query =>
    obtain ⟨rfl, rfl⟩ := hr ▸ h
    simpa only [receive, hpc] using .query hpc
  case getConfigToApply oldCfg =>
    obtain ⟨rfl, rfl⟩ := hr ▸ h
    simp only [receive, hpc]
    split
    case isTrue hn  => exact .upToDate hpc hn
    case isFalse hn => exact .outdated hpc (Nat.lt_of_not_le hn)
  case moveShardToGroup job shardId move =>
    split at hr
    case isFalse => cases hr
    case isTrue  =>
      cases hr
      simp only [Servers.serve, Option.map_eq_some_iff, Prod.mk.injEq] at h
      obtain ⟨⟨_, resp⟩, h, rfl, rfl⟩ := h
      cases move
      case freezeShard =>
        obtain ⟨state, num, err, he⟩ := doOp_freezeShard h
        subst he
        simpa only [receive, hpc] using .frozen hpc h
      case installShard => simpa only [receive, hpc] using .installed hpc h
      case deleteShard  => simpa only [receive, hpc] using .deleted hpc h
  case publishQuery newCfg =>
    obtain ⟨rfl, rfl⟩ := hr ▸ h
    simp only [receive, hpc]
    split
    case isTrue hn  => exact .publishUnneeded hpc hn
    case isFalse hn => exact .publishNeeded hpc (Nat.lt_of_not_le hn)
  case publishPut newCfg =>
    subst hr
    simp only [Servers.serve, Option.some.injEq, Prod.mk.injEq] at h
    obtain ⟨rfl, rfl⟩ := h
    obtain ⟨hv, h⟩ | ⟨hv, h⟩ := sv.config.put_cases newCfg sck.currentVersion <;>
      simp only [receive, hpc, h, Clerk.err_eq_ok, reduceCtorEq, if_true, if_false]
    · exact .published hpc hv
    · exact .notPublished hpc hv
  case releaseLock =>
    obtain ⟨hv, rfl, rfl⟩ | ⟨hv, _, rfl, rfl⟩ | ⟨hv, _, rfl, rfl⟩ := serve_lock (hr ▸ h) <;>
      simp only [receive, hpc]
    · exact .released hpc hv
    · exact .notReleased hpc hv
    · exact .notReleased hpc hv

omit [DecidableEq K] [DecidableEq Id] [Sharded K] in
-- The only RPCs to a group are those of `moveShardToGroup`.
theorem rpc_group {gid req} (h : sck.rpc c = some (.group gid req)) :
    ∃ job shardId move, sck.pc = .moveShardToGroup job shardId move ∧
    gid = job.gid shardId move ∧ req = job.req shardId move := by
  cases hpc : sck.pc <;> simp only [ShardCtrler.rpc, hpc, Option.some.injEq, reduceCtorEq] at h
  case moveShardToGroup job shardId move =>
    split at h
    case isTrue =>
      cases h
      exact ⟨job, shardId, move, rfl, rfl, rfl⟩
    case isFalse => cases h

end ShardCtrler

omit [DecidableEq Id] in
theorem Served.doOp {c : Id} {sv sv' : Servers K V Id} {sck sck' : ShardCtrler K V} {gid req}
    (h : Served c sv sck sv' sck') (hr : sck.rpc c = some (.group gid req)) :
    ∃ resp, sv.doOp gid req = some (sv', resp) := by
  have ⟨job, shardId, move, hpc, hg, hq⟩ := ShardCtrler.rpc_group hr
  subst hg hq
  cases h
  case frozen h hd | installed h hd | deleted h hd =>
    cases h.symm.trans hpc
    exact ⟨_, hd⟩
  all_goals simp_all only [reduceCtorEq]

namespace State

variable {s s' : State K V Id}

section

variable {K V Id : Type}

@[simp]
theorem send_servers (s : State K V Id) (c : Id) (rpc : Rpc K V Id) :
    (s.send c rpc).servers = s.servers := by
  cases rpc <;> rfl

@[simp]
theorem send_ctrler (s : State K V Id) (c : Id) (rpc : Rpc K V Id) :
    (s.send c rpc).ctrler = s.ctrler := by
  cases rpc <;> rfl

@[simp]
theorem send_queried (s : State K V Id) (c : Id) (rpc : Rpc K V Id) :
    (s.send c rpc).queried = s.queried := by
  cases rpc <;> rfl

variable [DecidableEq Id]

@[simp]
theorem setCtrler_servers (s : State K V Id) (c : Id) (sck : ShardCtrler K V) :
    (s.setCtrler c sck).servers = s.servers :=
  rfl

@[simp]
theorem resend_servers (s : State K V Id) (c : Id) : (s.resend c).servers = s.servers :=
  rfl

end

-- What an event does to the servers, to the controllers and to the requests that have been sent.
inductive Stepped (s : State K V Id) : Event K V Id → State K V Id → Prop
  | initController (c) :
    (s.ctrler c).pc = .idle →
    Stepped s (.initController c) (s.setCtrler c (s.ctrler c).initController)
  | changeConfigTo (c new n) :
    (s.ctrler c).pc = .idle → n ∈ s.queried → new.num = n + 1 →
    Stepped s (.changeConfigTo c new) (s.setCtrler c ((s.ctrler c).changeConfigTo new))
  | query :
    Stepped s .query { s with queried := s.servers.config.value.num :: s.queried }
  | rpc (c) {rpc servers sck} :
    (s.ctrler c).rpc c = some rpc → Served c s.servers (s.ctrler c) servers sck →
    Stepped s (.rpc c)
      ({ s with servers }.send c rpc |>.setCtrler c { sck with isFirstTry := true })
  | lost (c) {rpc servers sck} :
    (s.ctrler c).rpc c = some rpc → Served c s.servers (s.ctrler c) servers sck →
    Stepped s (.lost c) ({ s with servers }.send c rpc |>.resend c)
  | dropped (c) :
    Stepped s (.dropped c) (s.resend c)
  | noResponse (c) {rpc job shardId move} :
    (s.ctrler c).rpc c = some rpc → (s.ctrler c).pc = .moveShardToGroup job shardId move →
    Stepped s (.noResponse c) (s.send c rpc |>.setCtrler c { s.ctrler c with
      isFirstTry := true
      pc         := .acquireLockPut (.moveShardToGroup job shardId move) })
  | late (k) {c gid req servers resp} :
    s.sent[k]? = some (c, gid, req) → s.servers.doOp gid req = some (servers, resp) →
    Stepped s (.late k) { s with servers }
  | client (gid) {req key servers resp} :
    req.key = some key → s.servers.doOp gid req = some (servers, resp) →
    Stepped s (.client gid req) { s with servers }

omit [DecidableEq K] [Sharded K] in
theorem begin_some {c : Id} {sck} (h : s.begin c sck = some s') :
    (s.ctrler c).pc = .idle ∧ s' = s.setCtrler c sck := by
  simp only [begin] at h
  split at h
  case h_1 hpc => exact ⟨hpc, (Option.some.inj h).symm⟩
  case h_2     => cases h

theorem stepped {e : Event K V Id} (h : s.next e = some s') : Stepped s e s' := by
  cases e <;> simp only [next] at h
  case initController c =>
    obtain ⟨hpc, rfl⟩ := begin_some h
    exact .initController c hpc
  case changeConfigTo c new =>
    split at h
    case isTrue hn =>
      obtain ⟨hpc, rfl⟩ := begin_some h
      have ⟨n, hn, he⟩ := hn
      exact .changeConfigTo c new n hpc hn he
    case isFalse => cases h
  case query =>
    cases h
    exact .query
  case rpc c =>
    simp only [Option.bind_eq_bind, Option.bind_eq_some_iff, Option.some.injEq] at h
    obtain ⟨rpc, hr, ⟨sv, reply⟩, hs, rfl⟩ := h
    exact .rpc c hr (ShardCtrler.served hr hs)
  case lost c =>
    simp only [Option.bind_eq_bind, Option.bind_eq_some_iff, Option.some.injEq] at h
    obtain ⟨rpc, hr, ⟨sv, reply⟩, hs, rfl⟩ := h
    exact .lost c hr (ShardCtrler.served hr hs)
  case dropped c =>
    simp only [Option.bind_eq_bind, Option.bind_eq_some_iff, Option.some.injEq] at h
    obtain ⟨_, _, rfl⟩ := h
    exact .dropped c
  case noResponse c =>
    split at h
    case h_1 hpc hr =>
      cases h
      exact .noResponse c hr hpc
    case h_2 => cases h
  case late k =>
    simp only [Option.bind_eq_bind, Option.bind_eq_some_iff, Option.some.injEq] at h
    obtain ⟨⟨c, gid, req⟩, hk, ⟨sv, resp⟩, hd, rfl⟩ := h
    exact .late k hk hd
  case client gid req =>
    split at h
    case isTrue hc =>
      simp only [Option.map_eq_some_iff] at h
      obtain ⟨⟨sv, resp⟩, hd, rfl⟩ := h
      cases req <;> simp only [Req.isClient, Bool.false_eq_true] at hc
      case put | get => exact .client gid rfl hd
    case isFalse => cases h

end State
end ShardKv
