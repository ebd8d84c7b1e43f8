import DistributedSystems.KvTest.Theorems.Linearizability
import DistributedSystems.ShardKv.Service
import DistributedSystems.ShardKv.Theorems.Migration

namespace ShardKv

open KvSrv KvTest Linearizability Sharded

variable {K V Id : Type}

theorem Req.of_key (input : KvInput K V) : (Req.of input).key = some input.key := by
  cases input <;> rfl

theorem Req.of_isClient (input : KvInput K V) : (Req.of input).isClient := by
  cases input <;> rfl

-- One flat store is the server of `kvsrv1`.
theorem Req.of_flat [DecidableEq K] {kv kv' : KvSrv.KVServer K V} {input : KvInput K V}
    {resp : Resp K V} (h : (Req.of input).flat kv = some (kv', resp)) :
    KvServer.handle kv input = (kv', resp.output) := by
  cases input <;> cases h <;> rfl

theorem Resp.output_err (resp : Resp K V) : resp.output.err = resp.err := by
  cases resp <;> rfl

section Rejected

variable [DecidableEq K] [Sharded K] {kv kv' : KVServer K V} {input : KvInput K V} {resp : Resp K V}

theorem KVServer.doOp_rejected (h : kv.doOp (.of input) = some (kv', resp))
    (he : resp.err = .errWrongGroup) :
    resp.output = ⟨none, 0, .errWrongGroup⟩ := by
  cases input
  case get key               =>
    obtain ⟨rfl, rfl⟩ := Prod.mk.inj (Option.some.inj h)
    simp only [doGet] at he ⊢
    split at he
    case isTrue hr => rw [if_pos hr, Resp.output]
    case isFalse   =>
      split at he
      · cases he
      · split at he <;> cases he
  case put key value version =>
    obtain ⟨err, hr⟩ : ∃ err, resp = .put err := by
      simp only [Req.of, doOp, doPut] at h
      split at h
      · exact ⟨_, (congrArg Prod.snd (Option.some.inj h)).symm⟩
      · split at h <;> split at h
        all_goals first
          | exact ⟨_, (congrArg Prod.snd (Option.some.inj h)).symm⟩
          | obtain ⟨_, _, h⟩ := Option.map_eq_some_iff.mp h
            exact ⟨_, (congrArg Prod.snd h).symm⟩
    subst hr
    exact congrArg (GetReply.mk none 0) he

end Rejected

namespace Service

variable [DecidableEq K] [DecidableEq Id] [Sharded K] {s s' : Service K V Id}
  {sent : List (KvInput K V)} {srv : KvServer K V}

-- A request that has been rejected has no reply of the flat store.
structure Refines (sent : List (KvInput K V)) (s : Service K V Id) (srv : KvServer K V) : Prop where
  state    : ∃ m, s.state.Refines m ∧ srv.kv = m.flat
  replies  : ∀ k, srv.replies k = (s.replies k).filter (·.err ≠ .errWrongGroup)
  rejected : ∀ k reply, s.replies k = some reply → reply.err = .errWrongGroup →
    reply = ⟨none, 0, .errWrongGroup⟩

def Hazard (_ : List (KvInput K V)) (s : Service K V Id) : Action K V Id → Prop
  | .step e => s.state.Hazard e
  | _       => False

theorem Refines.handle (h : s.Refines sent srv) {k : Nat} {gid : Gid} {input : KvInput K V}
    {servers resp} (hk : sent[k]? = some input) (hn : s.replies k = none)
    (hd : s.state.servers.doOp gid (.of input) = some (servers, resp)) :
    ∃ srv', (srv' = srv ∨ KvServer.next sent srv k = some srv') ∧
      Refines sent
        ⟨{ s.state with servers }, Function.update s.replies k (some resp.output)⟩ srv' := by
  obtain ⟨m, hm, hf⟩ := h.state
  have hsrv : srv.replies k = none := by rw [h.replies, hn]; rfl
  have ⟨kv, hkv, _⟩ := Servers.doOp_some hd
  have hrej k' reply (hr : Function.update s.replies k (some resp.output) k' = some reply)
      (he : reply.err = .errWrongGroup) : reply = ⟨none, 0, .errWrongGroup⟩ := by
    by_cases hk' : k' = k
    case neg => exact h.rejected k' reply (by rwa [Function.update_of_ne hk'] at hr) he
    case pos =>
      subst hk'
      rw [Function.update_self] at hr
      cases hr
      exact KVServer.doOp_rejected hkv (resp.output_err ▸ he)
  have hstep : State.Stepped s.state (.client gid (.of input)) { s.state with servers } :=
    .client gid (Req.of_key input) hd
  obtain ⟨m', hm', hacc, hrefuse⟩ := hm.step hstep id
  by_cases he : resp.err = .errWrongGroup
  case pos =>
    refine ⟨srv, .inl rfl, ⟨m', hm', hf.trans (hrefuse ?_).symm⟩, fun k' => ?_, hrej⟩
    · simp [State.accepts, hd, he]
    · by_cases hk' : k' = k
      case neg => simp only [Function.update_of_ne hk', h.replies]
      case pos => simp [hk', hsrv, Option.filter, resp.output_err, he]
  case neg =>
    have hh := Req.of_flat (hacc (.of input) resp (by simp [State.accepts, hd, he]))
    rw [←hf] at hh
    refine ⟨⟨m'.flat, Function.update srv.replies k (some resp.output)⟩, .inr ?_, ⟨m', hm', rfl⟩,
      fun k' => ?_, hrej⟩
    · simp [KvServer.next, hk, hsrv, hh]
    · by_cases hk' : k' = k
      case neg => simp only [Function.update_of_ne hk', h.replies]
      case pos => simp [hk', Option.filter, resp.output_err, he]

theorem Refines.step (h : s.Refines sent srv) {e : Event K V Id} {state}
    (hs : s.state.next e = some state) (hc : ∀ gid req, e ≠ .client gid req)
    (hz : ¬s.state.Hazard e) : { s with state }.Refines sent srv := by
  obtain ⟨m, hm, hf⟩ := h.state
  obtain ⟨m', hm', _, hrefuse⟩ := hm.step (State.stepped hs) hz
  refine ⟨⟨m', hm', hf.trans (hrefuse ?_).symm⟩, h.replies, h.rejected⟩
  cases e
  case client => exact absurd rfl (hc _ _)
  all_goals rfl

variable [DecidableEq V]

-- The clients cannot tell the groups from a single server.
theorem simulation :
    (service K V Id).Simulation (kvServer K V [.errWrongLeader, .errWrongGroup]) Hazard
      (fun _ _ _ => False)
      Refines where
  init                  := ⟨⟨_, State.Refines.init, rfl⟩, fun _ => rfl, by simp [service]⟩
  sent _ _ _ _ h        := ⟨h.state, h.replies, h.rejected⟩
  answers _ s srv k reply h ha := by
    simp only [service, kvServer, decide_eq_true_eq] at ha ⊢
    rcases ha with ha | rfl
    · by_cases he : reply.err = .errWrongGroup
      case pos => exact .inr ⟨.errWrongGroup, by simp, h.rejected k reply ha he⟩
      case neg => exact .inl (by simp [h.replies, ha, Option.filter, he])
    · exact .inr ⟨.errWrongLeader, by simp, rfl⟩
  next sent s srv a s' h hz hs := by
    cases a
    case handle k gid =>
      obtain ⟨input, hk, hs⟩ := Option.bind_eq_some_iff.mp hs
      split_ifs at hs with hn
      obtain ⟨⟨servers, resp⟩, hd, hs⟩ := Option.bind_eq_some_iff.mp hs
      cases hs
      obtain ⟨srv', hsrv, h'⟩ := h.handle hk (Option.isNone_iff_eq_none.mp hn) hd
      refine ⟨srv', ?_, h'⟩
      rcases hsrv with rfl | hsrv
      · exact .refl
      · exact .single ⟨k, id, hsrv⟩
    case step e =>
      obtain ⟨hc, hs⟩ : (∀ gid req, e ≠ .client gid req) ∧
          (s.state.next e).map (fun state => { s with state }) = some s' := by
        cases e <;> simp_all [service, Service.next]
      obtain ⟨state, hx, rfl⟩ := Option.map_eq_some_iff.mp hs
      exact ⟨srv, .refl, h.step hx hc hz⟩

section Run

variable {υ α : Type} {F : Frontend υ α (KvInput K V) (KvOutput V)}

-- The event of the groups and controllers in a step of the clients and the service.
def event (sent : List (KvInput K V)) :
    Session.Event α (Action K V Id) (KvOutput V) → Option (ShardKv.Event K V Id)
  | .front ..             => none
  | .back (.handle k gid) => sent[k]?.map fun input => .client gid (.of input)
  | .back (.step e)       => some e

-- What happens at the groups and the controllers.
def run (b : (F.session (service K V Id)).Behavior) : Execution K V Id where
  state i := (b.state i).back.state
  label i := (b.label i).bind (event (b.state i).sent)
  start   := by rw [b.start]; rfl
  step i  := by
    have h := b.step i
    cases hl : b.label i <;> simp only [hl, Option.elim] at h
    case none   => simp [h]
    case some a =>
      cases a
      case front a answer =>
        obtain ⟨_, front, reqs, _, h⟩ := Frontend.session_front.mp h
        simp [event, h]
      case back a =>
        obtain ⟨back, hb, h⟩ := Frontend.session_back.mp h
        cases a
        case handle k gid =>
          obtain ⟨input, hk, hb⟩ := Option.bind_eq_some_iff.mp hb
          split_ifs at hb
          obtain ⟨⟨servers, resp⟩, hd, hb⟩ := Option.bind_eq_some_iff.mp hb
          cases hb
          simp [event, hk, h, shardKv, State.next, Req.of_isClient, hd]
        case step e =>
          have hs : ((b.state i).back.state.next e).map
              (fun state => { (b.state i).back with state }) =
              some back := by
            cases e <;> simp_all [service, Service.next]
          obtain ⟨state, hx, rfl⟩ := Option.map_eq_some_iff.mp hs
          simpa [event, h, shardKv] using hx

end Run

end Service

theorem clerks_sound : clerks.Sound [.errWrongLeader, .errWrongGroup] Clerk.first where
  get servers := ⟨getClerk_reading servers, rfl⟩
  put servers := ⟨clerk_careful servers, rfl⟩

-- Clients of `shardkv1`, while one controller after the other moves shards and stops wherever it
-- likes.
theorem shardkv_linearizable {P : Type} [DecidableEq P] [DecidableEq Id]
    (b : ((test P String String clerks).session (service String String Id)).Behavior)
    (cur : Nat → Id) (hs : (Service.run b).Sequential cur)
    (hb : b.Avoids (Session.Bad Test.Unseen fun _ _ _ => False)) (i : Nat) :
    Completable (stores String String) (b.state i).front.oplog (b.state i).front.pending
      (b.state i).front.now ∧
    ((∀ p, (b.state i).front.client p = none) → Legal (b.state i).front.oplog) := by
  have hz : b.Avoids (Session.Bad Test.Unseen Service.Hazard) := by
    intro j a ha hbad
    cases a
    case front => exact hb j _ ha hbad
    case back a =>
      cases a
      case handle => exact hbad
      case step e =>
        refine hs.guarded j e ?_ hbad
        simp [Service.run, ha, Service.event]
  obtain ⟨_, hr, _⟩ := Service.simulation.reached (.of_avoids hz i)
  exact ⟨completable_of_reached clerks_sound hr, legal_of_reached clerks_sound hr⟩

-- A key is put in group 1, and found again by a clerk that is sent on to group 2.
def moving :
    List (Session.Event (Test.Event Unit Nat Clerk.Input String String)
      (Service.Action String String Unit)
    (KvOutput String)) := .flatten [
  [.front (.call () 1 (.put "m" "x" 0)) none, .back (.handle 0 1),
    .front (.respond () ⟨false, 1⟩) (some (0, ⟨none, 0, .ok⟩)), .front .tick none,
    .front (.done ()) none,
    .back (.step .query), .back (.step (.changeConfigTo () (Execution.moveTo 2 2)))],
  .replicate 23 (.back (.step (.rpc ()))),
  [.front (.call () 1 (.get "m")) none, .back (.handle 1 1),
    .front (.respond () ⟨false, 1⟩) (some (1, ⟨none, 0, .errWrongGroup⟩)), .back (.handle 2 2),
    .front (.respond () ⟨false, 1⟩) (some (2, ⟨some "x", 1, .ok⟩)), .front .tick none,
    .front (.done ()) none]]

def moved : ((test Unit String String clerks).session (service String String Unit)).Behavior :=
  .ofActions _ moving (by decide +kernel)

theorem shardkv_linearizable_moved :
    (moved.state 37).front.oplog =
      [⟨.put "m" "x" 0, ⟨none, 0, .ok⟩, 0, 1⟩, ⟨.get "m", ⟨some "x", 1, .ok⟩, 1, 2⟩] ∧
    Legal (moved.state 37).front.oplog := by
  have hs : (Service.run moved).Sequential fun _ => () :=
    ⟨fun _ _ _ _ _ => rfl, fun _ _ _ _ _ _ => rfl⟩
  have hb : moved.Avoids (Session.Bad Test.Unseen fun _ _ _ => False) :=
    System.Behavior.avoids_ofActions (by decide +kernel)
  exact ⟨by decide +kernel,
    (shardkv_linearizable moved _ hs hb 37).right fun () =>
      Option.isNone_iff_eq_none.mp (by decide +kernel)⟩

end ShardKv
