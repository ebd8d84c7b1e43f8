import DistributedSystems.Clerk.Theorems.Call
import DistributedSystems.Lock.Basic

open KvSrv

namespace Locks

variable {ι : Type} [DecidableEq ι] {id : ι → String} {lockname : String} {s s' : Locks ι}
  {e : Event ι}

-- All that can happen to the locks.
inductive Stepped (id : ι → String) (lockname : String) (s : Locks ι) : Event ι → Locks ι → Prop
  | acquire (p) (hp : (s.lock p).phase = .released) :
    Stepped id lockname s (.acquire p) (s.set p ((s.lock p).acquire lockname (id p)))
  | release (p) (hp : (s.lock p).phase = .acquired) :
    Stepped id lockname s (.release p) (s.set p ((s.lock p).release lockname))
  | acquiring (p) (e : Call.Event Unit) {put put' kv} (hp : (s.lock p).phase = .acquiring put)
    (hs : put.Stepped clerk s.kv e kv put') :
    Stepped id lockname s (.put p e)
      ({ s with kv }.set p { s.lock p with phase := .acquiring put' })
  | releasing (p) (e : Call.Event Unit) {put put' kv} (hp : (s.lock p).phase = .releasing put)
    (hs : put.Stepped clerk s.kv e kv put') :
    Stepped id lockname s (.put p e)
      ({ s with kv }.set p { s.lock p with phase := .releasing put' })
  | acquired (p) {put err} (hp : (s.lock p).phase = .acquiring put) (hd : put.outcome = .done err) :
    Stepped id lockname s (.proceed p) (s.set p
      ({ s.lock p with stale := put.args :: (s.lock p).stale }.acquired lockname (id p) err))
  | released (p) {put err} (hp : (s.lock p).phase = .releasing put) (hd : put.outcome = .done err) :
    Stepped id lockname s (.proceed p) (s.set p
      { s.lock p with stale := put.args :: (s.lock p).stale }.released)
  | duplicate (p) {put}
    (hp : (s.lock p).phase = .acquiring put ∨ (s.lock p).phase = .releasing put) :
    Stepped id lockname s (.duplicate p) (s.execute put.args)
  | stale (p k) {args} (ha : args ∈ (s.lock p).stale) :
    Stepped id lockname s (.stale p k) (s.execute args)
  | get (p) {reply} (hp : (s.lock p).phase = .resyncing reply) :
    Stepped id lockname s (.get p) (s.set p
      { s.lock p with phase := .resyncing (some (s.kv.get lockname)) })
  | lose (p) {reply} (hp : (s.lock p).phase = .resyncing reply) :
    Stepped id lockname s (.lose p) (s.set p { s.lock p with phase := .resyncing none })
  | resync (p) {reply} (hp : (s.lock p).phase = .resyncing (some reply)) :
    Stepped id lockname s (.resync p) (s.set p ((s.lock p).resync lockname (id p) reply))
  | other (args) (hk : args.key ≠ lockname) : Stepped id lockname s (.other args) (s.execute args)

theorem next_stepped (h : s.next id lockname e = some s') : Stepped id lockname s e s' := by
  cases e <;> simp only [next] at h
  case acquire p =>
    split at h <;> cases h
    exact .acquire p ‹_›
  case release p =>
    split at h <;> cases h
    exact .release p ‹_›
  case put p e =>
    split at h
    case h_1 put hp =>
      have ⟨⟨kv, put'⟩, hn, h⟩ := Option.bind_eq_some_iff.mp h
      cases h
      exact .acquiring p e hp (Call.next_stepped hn)
    case h_2 put hp =>
      have ⟨⟨kv, put'⟩, hn, h⟩ := Option.bind_eq_some_iff.mp h
      cases h
      exact .releasing p e hp (Call.next_stepped hn)
    case h_3 => cases h
  case proceed p =>
    split at h
    case h_1 put hp =>
      split at h <;> cases h
      exact .acquired p hp ‹_›
    case h_2 put hp =>
      split at h <;> cases h
      exact .released p hp ‹_›
    case h_3 => cases h
  case duplicate p =>
    split at h <;> cases h
    case h_1 hp => exact .duplicate p (.inl hp)
    case h_2 hp => exact .duplicate p (.inr hp)
  case stale p k =>
    have ⟨args, ha, h⟩ := Option.bind_eq_some_iff.mp h
    cases h
    exact .stale p k (List.mem_of_getElem? ha)
  case get p =>
    split at h <;> cases h
    exact .get p ‹_›
  case lose p =>
    split at h <;> cases h
    exact .lose p ‹_›
  case resync p =>
    split at h <;> cases h
    exact .resync p ‹_›
  case other args =>
    split_ifs at h with hk
    cases h
    exact .other args hk

end Locks

namespace Lock

variable {entry entry' : Option (Data String)} {lockname id : String} {lk : Lock}

-- The version under which the next request succeeds.
def current (entry : Option (Data String)) : Nat :=
  entry.elim 0 Data.version

-- The lock with the given id is the one that was written last.
def Mine (entry : Option (Data String)) (id : String) : Prop :=
  entry.map Data.value = some id

-- A lock is available at even versions and taken at odd ones.
def Alternates (data : Data String) : Prop :=
  1 ≤ data.version ∧ (data.value = availableState ↔ data.version % 2 = 0)

-- A client that owns the lock but expects a version that will never come. This is what `resync`
-- makes of a lock that it finds to be its own.
def Stuck (entry : Option (Data String)) (id : String) (version : Nat) : Prop :=
  Mine entry id ∧ current entry < version

-- A request with the version `n` is in vain: it is too late, or its lock is stuck.
def Harmless (entry : Option (Data String)) (id : String) (version n : Nat) : Prop :=
  n < current entry ∨ (Stuck entry id version ∧ current entry < n)

def Phase.Seeks : Phase → Prop
  | acquiring _ | resyncing _ => True
  | _                         => False

-- A request that takes the lock as soon as it is available.
structure Bid (entry : Option (Data String)) (id : String) (phase : Phase)
    (args : PutArgs String String) :
    Prop where
  value : args.value = id
  even  : args.version % 2 = 0
  lower : current entry ≤ args.version
  upper : args.version ≤ current entry + 1
  mine  : ¬Mine entry id
  seeks : phase.Seeks

-- What `resync` has read. The entry may have changed since then, but not if it was its own.
structure Read (entry : Option (Data String)) (id : String) (version : Nat) (data : Data String) :
    Prop where
  alternates : Alternates data
  upper      : data.version ≤ current entry
  latest     : data.version = current entry → entry = some data
  own        : data.value = id → entry = some data
  foreign    : data.value ≠ id → ¬Stuck entry id version

-- What is known in each phase.
def Phase.Sound (entry : Option (Data String)) (lockname id : String) (version : Nat) : Phase → Prop
  | released => (version % 2 = 0 ∧ version ≤ current entry) ∨ Stuck entry id version
  | acquiring put =>
    put.args = ⟨lockname, id, version⟩ ∧
    (Harmless entry id version version ∨ Bid entry id (.acquiring put) ⟨lockname, id, version⟩) ∧
    (put.Got .ok → Mine entry id ∧ current entry = version + 1) ∧
    (put.Got .errVersion → entry ≠ none)
  | resyncing reply =>
    entry ≠ none ∧ (¬Mine entry id → version ≤ current entry + 1) ∧
    ∀ r ∈ reply, ∃ data, r = KvSrv.get (some data) ∧ Read entry id version data
  | acquired => Mine entry id ∧ current entry ≤ version
  | releasing put =>
    put.args = ⟨lockname, availableState, version⟩ ∧
    (version % 2 = 1 ∨ Stuck entry id version) ∧
    (Harmless entry id version version ∨
      (version = current entry ∧ Mine entry id ∧ ∀ err, ¬put.Got err))

-- What is known of the requests that are still on their way.
def Awaits (entry : Option (Data String)) (lockname id : String) (version : Nat) (phase : Phase)
    (args : PutArgs String String) : Prop :=
  args.key = lockname ∧ (Harmless entry id version args.version ∨ Bid entry id phase args)

structure Sound (entry : Option (Data String)) (lockname id : String) (lk : Lock) : Prop where
  phase : lk.phase.Sound entry lockname id lk.version
  stale : ∀ args ∈ lk.stale, Awaits entry lockname id lk.version lk.phase args

-- The requests of a lock that the server may execute.
def Sends (lk : Lock) (args : PutArgs String String) : Prop :=
  args ∈ lk.stale ∨ ∃ put, (lk.phase = .acquiring put ∨ lk.phase = .releasing put) ∧ args = put.args

section Entry

theorem mine_iff : Mine entry id ↔ ∃ version, entry = some ⟨version, id⟩ := by
  constructor
  · intro h
    have ⟨⟨version, value⟩, hd, hv⟩ := Option.map_eq_some_iff.mp h
    cases hv
    exact ⟨version, hd⟩
  · rintro ⟨version, rfl⟩
    rfl

theorem Mine.entry_eq (h : Mine entry id) : entry = some ⟨current entry, id⟩ := by
  have ⟨version, h⟩ := mine_iff.mp h
  rw [h]
  rfl

theorem Mine.odd (h : Mine entry id) (hw : ∀ data ∈ entry, Alternates data)
    (hi : id ≠ availableState) :
    current entry % 2 = 1 := by
  have := (hw _ h.entry_eq).right
  simp only [hi, false_iff] at this
  omega

theorem Mine.unique {id' : String} (h : Mine entry id) (h' : Mine entry id') : id = id' :=
  Option.some.inj <| h.symm.trans h'

end Entry

variable {version : Nat} {phase phase' : Phase} {args : PutArgs String String}

theorem Harmless.le {n : Nat} (h : Harmless entry id version n) (hm : ¬Mine entry id) :
    n < current entry :=
  h.resolve_right fun hs => hm hs.left.left

theorem Awaits.seeks (h : Awaits entry lockname id version phase args) (hs : phase'.Seeks) :
    Awaits entry lockname id version phase' args :=
  h.imp_right <| Or.imp_right fun hb => { hb with seeks := hs }

theorem Awaits.harmless (h : Awaits entry lockname id version phase args) (hs : ¬phase.Seeks) :
    args.key = lockname ∧ Harmless entry id version args.version :=
  h.imp_right fun hb => hb.resolve_right fun hb => hs hb.seeks

-- The version that the clients of a lock other than the owner use.
theorem Phase.Sound.seeks (h : phase.Sound entry lockname id version) (hs : phase.Seeks)
    (hm : ¬Mine entry id) : version ≤ current entry + 1 := by
  cases phase <;> simp only [Phase.Seeks] at hs
  case resyncing => exact h.right.left hm
  case acquiring =>
    cases h.right.left
    case inl hb => exact (hb.le hm).le.trans (Nat.le_succ _)
    case inr hb => exact hb.upper

section Overtaken

variable (hm : ¬Mine entry id) (hm' : ¬Mine entry' id) (hc : current entry' = current entry + 1)
include hm hc

theorem Harmless.overtaken {n : Nat} (h : Harmless entry id version n) :
    Harmless entry' id version n := by
  have := h.le hm
  exact .inl (by omega)

include hm'

theorem Awaits.overtaken (h : Awaits entry lockname id version phase args) :
    Awaits entry' lockname id version phase args := by
  refine h.imp_right fun h => ?_
  cases h
  case inl h => exact .inl (h.overtaken hm hc)
  case inr h =>
    have hl := h.lower
    have hu := h.upper
    by_cases hv : args.version = current entry
    · exact .inl <| .inl (by omega)
    · exact .inr { h with lower := by omega, upper := by omega, mine := hm' }

-- Another client has written the entry.
theorem Sound.overtaken (h : lk.Sound entry lockname id) (hn : entry' ≠ none) :
    lk.Sound entry' lockname id := by
  refine { phase := ?phase, stale := fun args ha => (h.stale args ha).overtaken hm hm' hc }
  have hp := h.phase
  cases hx : lk.phase <;> rw [hx] at hp
  case acquired => exact absurd hp.left hm
  case released =>
    cases hp
    case inl hp => exact .inl ⟨hp.left, by omega⟩
    case inr hp => exact absurd hp.left hm
  case acquiring put =>
    have ⟨ha, hb, hok, _⟩ := hp
    have hb : Awaits entry lockname id lk.version (.acquiring put) ⟨lockname, id, lk.version⟩ :=
      ⟨rfl, hb⟩
    exact ⟨ha, (hb.overtaken hm hm' hc).right, fun hg => absurd (hok hg).left hm, fun _ => hn⟩
  case resyncing reply =>
    have ⟨_, hb, hr⟩ := hp
    refine ⟨hn, fun _ => (hb hm).trans (by omega), fun r hr' => ?_⟩
    have ⟨data, he, hd⟩ := hr r hr'
    have hu := hd.upper
    refine ⟨data, he, { hd with upper := by omega, latest := fun hl => by omega, own := ?own,
                                foreign := ?foreign }⟩
    case own     => exact fun ho => absurd (mine_iff.mpr ⟨_, (hd.own ho).trans (by rw [←ho])⟩) hm
    case foreign => exact fun _ hs => hm' hs.left
  case releasing put =>
    have ⟨ha, ho, hb⟩ := hp
    refine ⟨ha, .inl <| ho.resolve_right fun hs => hm hs.left, ?_⟩
    cases hb
    case inl hb => exact .inl (hb.overtaken hm hc)
    case inr hb => exact absurd hb.right.left hm

end Overtaken

-- A request of the lock itself has taken it, all others are too late now.
theorem Awaits.won (h : Awaits entry lockname id version phase args) (hm : ¬Mine entry id)
    (he : current entry % 2 = 0) (hc : current entry' = current entry + 1) :
    Awaits entry' lockname id version phase args := by
  refine h.imp_right fun h => .inl <| .inl ?_
  cases h
  case inl h =>
    have := h.le hm
    omega
  case inr h =>
    have := h.upper
    have := h.even
    omega

theorem Sound.won (h : lk.Sound entry lockname id) (hs : lk.phase.Seeks) (hm : ¬Mine entry id)
    (he : current entry % 2 = 0) (hc : current entry' = current entry + 1) (hm' : Mine entry' id) :
    lk.Sound entry' lockname id := by
  have hn : entry' ≠ none := by
    rintro rfl
    cases hm'
  refine { phase := ?phase, stale := fun args ha => (h.stale args ha).won hm he hc }
  have hp := h.phase
  have hv := hp.seeks hs hm
  cases hx : lk.phase <;> simp only [hx, Phase.Seeks] at hs <;> rw [hx] at hp
  case acquiring put =>
    have ⟨ha, hb, hok, _⟩ := hp
    have hb : Awaits entry lockname id lk.version (.acquiring put) ⟨lockname, id, lk.version⟩ :=
      ⟨rfl, hb⟩
    exact ⟨ha, (hb.won hm he hc).right, fun hg => absurd (hok hg).left hm, fun _ => hn⟩
  case resyncing reply =>
    refine ⟨hn, fun h => absurd hm' h, fun r hr => ?_⟩
    have ⟨data, he, hd⟩ := hp.right.right r hr
    have hu := hd.upper
    refine ⟨data, he, { hd with upper := by omega, latest := fun hl => by omega, own := ?own,
                                foreign := ?foreign }⟩
    case own => exact fun ho => absurd (mine_iff.mpr ⟨_, (hd.own ho).trans (by rw [←ho])⟩) hm
    case foreign =>
      intro _ hs
      have := hs.right
      omega

theorem Sound.phase_of {phase : Phase} (h : lk.Sound entry lockname id) (hp : lk.phase = phase) :
    phase.Sound entry lockname id lk.version :=
  hp ▸ h.phase

-- A request of the lock itself has released it.
theorem Sound.freed {put : Call Bool String String} (h : lk.Sound entry lockname id)
    (hp : lk.phase = .releasing put) (hv : lk.version = current entry) (hm : Mine entry id)
    (hc : current entry' = current entry + 1) : lk.Sound entry' lockname id := by
  have hs : ¬Stuck entry id lk.version := fun hs => by have := hs.right; omega
  have ⟨ha, ho, _⟩ := h.phase_of hp
  refine { phase := ?phase,
           stale := fun args hargs => (h.stale args hargs).imp_right fun hb => ?stale }
  case phase =>
    rw [hp]
    exact ⟨ha, .inl <| ho.resolve_right hs, .inl <| .inl (by omega)⟩
  case stale =>
    cases hb
    case inr hb => exact absurd hm hb.mine
    case inl hb =>
      have := hb.resolve_right fun hb => hs hb.left
      exact .inl <| .inl (by omega)

-- The current call has gone on.
theorem Sound.acquiring {put put' : Call Bool String String} (h : lk.Sound entry lockname id)
    (hp : lk.phase = .acquiring put) (ha : put'.args = put.args)
    (hok : put'.Got .ok → Mine entry id ∧ current entry = lk.version + 1)
    (hv : put'.Got .errVersion → entry ≠ none) :
    { lk with phase := .acquiring put' }.Sound entry lockname id := by
  have ⟨ha', hb, _⟩ := h.phase_of hp
  refine { phase := ⟨ha.trans ha', ?_, hok, hv⟩,
           stale := fun args hargs => (h.stale args hargs).seeks trivial }
  exact hb.imp_right fun hb => { hb with seeks := trivial }

theorem Sound.releasing {put put' : Call Bool String String} (h : lk.Sound entry lockname id)
    (hp : lk.phase = .releasing put) (ha : put'.args = put.args)
    (hg : Harmless entry id lk.version lk.version ∨ ∀ err, put'.Got err → put.Got err) :
    { lk with phase := .releasing put' }.Sound entry lockname id := by
  have ⟨ha', ho, hb⟩ := h.phase_of hp
  refine { phase := ⟨ha.trans ha', ho, ?phase⟩, stale := fun args hargs => ?stale }
  case phase =>
    cases hg
    case inl hg => exact .inl hg
    case inr hg => exact hb.imp_right fun ⟨hv, hm, hn⟩ => ⟨hv, hm, fun err h => hn err (hg err h)⟩
  case stale => exact ((h.stale args hargs).harmless (by simp [hp, Phase.Seeks])).imp_right .inl

-- A round of `Acquire` starts with a version that is even and not too large.
theorem Sound.acquire
    (hs : ∀ args ∈ lk.stale, Awaits entry lockname id lk.version (.resyncing none) args)
    (hv : Harmless entry id lk.version lk.version ∨
      (lk.version % 2 = 0 ∧ current entry ≤ lk.version ∧ lk.version ≤ current entry + 1 ∧
        ¬Mine entry id)) :
    (lk.acquire lockname id).Sound entry lockname id := by
  refine { phase := ⟨rfl, ?bid, ?ok, ?version⟩, stale := fun args ha => (hs args ha).seeks trivial }
  case bid     => exact hv.imp_right fun ⟨he, hl, hu, hm⟩ => ⟨rfl, he, hl, hu, hm, trivial⟩
  case ok      => exact fun hg => absurd hg (Call.not_got_make _ _)
  case version => exact fun hg => absurd hg (Call.not_got_make _ _)

theorem Sound.acquireReleased (h : lk.Sound entry lockname id) (hp : lk.phase = .released)
    (hw : ∀ data ∈ entry, Alternates data) (hi : id ≠ availableState) :
    (lk.acquire lockname id).Sound entry lockname id := by
  have hv := h.phase_of hp
  refine .acquire (fun args ha => (h.stale args ha).seeks trivial) ?_
  cases hv
  case inr hv => exact .inl <| .inr ⟨hv, hv.right⟩
  case inl hv =>
    have ⟨he, hl⟩ := hv
    by_cases hc : lk.version = current entry
    case neg => exact .inl <| .inl (by omega)
    case pos =>
      refine .inr ⟨he, by omega, by omega, fun hm => ?_⟩
      have := hm.odd hw hi
      omega

theorem Sound.release (h : lk.Sound entry lockname id) (hp : lk.phase = .acquired)
    (hw : ∀ data ∈ entry, Alternates data) (hi : id ≠ availableState) :
    (lk.release lockname).Sound entry lockname id := by
  have ⟨hm, hv⟩ := h.phase_of hp
  have ho := hm.odd hw hi
  have hs : ∀ args ∈ lk.stale, Awaits entry lockname id lk.version
      (.releasing (lk.put lockname availableState))
      args := fun args ha => ((h.stale args ha).harmless (by simp [hp, Phase.Seeks])).imp_right .inl
  by_cases hc : lk.version = current entry
  case pos =>
    have hodd : lk.version % 2 = 1 := by omega
    exact { phase := ⟨rfl, .inl hodd, .inr ⟨hc, hm, fun err => Call.not_got_make _ _⟩⟩,
            stale := hs }
  case neg =>
    have hl : current entry < lk.version := by omega
    exact { phase := ⟨rfl, .inr ⟨hm, hl⟩, .inl <| .inr ⟨⟨hm, hl⟩, hl⟩⟩, stale := hs }

-- `Acquire` goes on after its call of `Put`.
theorem Sound.acquired {put : Call Bool String String} {err e : Err} {first : Bool}
    (h : lk.Sound entry lockname id) (hp : lk.phase = .acquiring put) (hg : put.Got e)
    (he : err = Clerk.err first e) (hr : e = .ok ∨ e = .errVersion ∨ e = .errNoKey) :
    ({ lk with stale := put.args :: lk.stale }.acquired lockname id err).Sound
      entry lockname id := by
  have ⟨ha, hb, hok, hv⟩ := h.phase_of hp
  -- All requests that are still on their way.
  have hs : ∀ args ∈ put.args :: lk.stale,
      Awaits entry lockname id lk.version (.acquiring put) args := by
    rintro args (_ | ⟨_, hargs⟩)
    · exact ha ▸ ⟨rfl, hb⟩
    · exact hp ▸ h.stale args hargs
  obtain rfl | rfl | rfl := hr
  case inl =>
    have ⟨hm, hc⟩ := hok hg
    rw [he, Clerk.err_ok]
    refine { phase := ⟨hm, hc.le⟩,
             stale := fun args hargs => (hs args hargs).imp_right fun hx => .inl <| .inl ?_ }
    cases hx
    case inl hx => exact hx.resolve_right fun hx => by have := hx.left.right; omega
    case inr hx => exact absurd hm hx.mine
  case inr.inl =>
    have resync :
        Lock.Sound entry lockname id ⟨lk.version, .resyncing none, put.args :: lk.stale⟩ := {
      phase := ⟨hv hg, fun hm => h.phase.seeks (by simp [hp, Phase.Seeks]) hm, nofun⟩
      stale := fun args hargs => (hs args hargs).seeks trivial
    }
    cases first <;> rw [he] <;> exact resync
  case inr.inr =>
    rw [he, Clerk.err_errNoKey]
    refine .acquire (fun args hargs => (hs args hargs).seeks trivial) (hb.imp_right fun hb => ?_)
    exact ⟨hb.even, hb.lower, hb.upper, hb.mine⟩

theorem Sound.released {put : Call Bool String String} {err : Err} (h : lk.Sound entry lockname id)
    (hp : lk.phase = .releasing put) (hg : put.Got err) :
    { lk with stale := put.args :: lk.stale }.released.Sound entry lockname id := by
  have ⟨ha, ho, hb⟩ := h.phase_of hp
  have hb := hb.resolve_right fun ⟨_, _, hn⟩ => hn err hg
  have step {n : Nat} (h : Harmless entry id lk.version n) : Harmless entry id (lk.version + 1) n :=
    h.imp_right fun ⟨⟨hm, hl⟩, hn⟩ => ⟨⟨hm, by omega⟩, hn⟩
  refine { phase := ?phase, stale := ?stale }
  case phase =>
    cases hb
    case inr hb => exact .inr ⟨hb.left.left, Nat.lt_succ_of_lt hb.left.right⟩
    case inl hb =>
      have hodd := ho.resolve_right fun hs => by have := hs.right; omega
      refine .inl ⟨?_, hb⟩
      change (lk.version + 1) % 2 = 0
      omega
  case stale =>
    rintro args (_ | ⟨_, hargs⟩)
    · exact ha ▸ ⟨rfl, .inl (step hb)⟩
    · exact ((h.stale args hargs).harmless (by simp [hp, Phase.Seeks])).imp_right fun h =>
        .inl (step h)

theorem Sound.get {reply : Option (GetReply String)} (h : lk.Sound entry lockname id)
    (hp : lk.phase = .resyncing reply) (hw : ∀ data ∈ entry, Alternates data) :
    { lk with phase := .resyncing (some (KvSrv.get entry)) }.Sound entry lockname id := by
  have ⟨hn, hv, _⟩ := h.phase_of hp
  refine { phase := ⟨hn, hv, ?_⟩, stale := fun args hargs => (h.stale args hargs).seeks trivial }
  rintro _ ⟨⟩
  have ⟨data, hd⟩ := Option.ne_none_iff_exists'.mp hn
  subst hd
  refine ⟨data, rfl, ?_⟩
  exact {
    alternates := hw data rfl
    upper      := le_rfl
    latest     := fun _ => rfl
    own        := fun _ => rfl
    foreign    := fun hne hs => hne <| Option.some.inj hs.left
  }

theorem Sound.lose {reply : Option (GetReply String)} (h : lk.Sound entry lockname id)
    (hp : lk.phase = .resyncing reply) :
    { lk with phase := .resyncing none }.Sound entry lockname id := by
  have ⟨hn, hv, _⟩ := h.phase_of hp
  exact { phase := ⟨hn, hv, nofun⟩, stale := fun args hargs => (h.stale args hargs).seeks trivial }

section Resync

variable {data : Data String}

theorem resync_own (h : data.value = id) :
    lk.resync lockname id (KvSrv.get (some data)) = ⟨data.version + 1, .acquired, lk.stale⟩ :=
  if_pos h

theorem resync_available (hi : data.value ≠ id) (h : data.value = availableState) :
    lk.resync lockname id (KvSrv.get (some data)) =
      { lk with version := data.version }.acquire lockname id :=
  (if_neg hi).trans (if_pos h)

theorem resync_other (hi : data.value ≠ id) (h : data.value ≠ availableState) :
    lk.resync lockname id (KvSrv.get (some data)) =
      { lk with version := data.version + 1 }.acquire lockname id :=
  (if_neg hi).trans (if_neg h)

end Resync

theorem Sound.resync {reply : GetReply String} (h : lk.Sound entry lockname id)
    (hp : lk.phase = .resyncing (some reply)) (hw : ∀ data ∈ entry, Alternates data)
    (hi : id ≠ availableState) : (lk.resync lockname id reply).Sound entry lockname id := by
  have ⟨_, _, hr⟩ := h.phase_of hp
  have ⟨data, he, hd⟩ := hr reply rfl
  have hu := hd.upper
  have halt := hd.alternates.right
  subst he
  -- Unless the lock is its own, it is not stuck and starts again.
  have hs (ho : data.value ≠ id) (version : Nat) :
      ∀ args ∈ lk.stale, Awaits entry lockname id version (.resyncing none) args := by
    intro args hargs
    have ha : Awaits entry lockname id lk.version (.resyncing none) args :=
      (h.stale args hargs).seeks trivial
    refine ha.imp_right <| Or.imp_left fun hx => ?_
    exact .inl <| hx.resolve_right fun hx => hd.foreign ho hx.left
  by_cases ho : data.value = id
  case pos =>
    have hm : Mine entry id := mine_iff.mpr ⟨_, (hd.own ho).trans (by rw [←ho])⟩
    have hc : current entry < data.version + 1 := by rw [hd.own ho]; exact Nat.lt_succ_self _
    rw [resync_own ho]
    refine { phase := ⟨hm, hc.le⟩, stale := fun args hargs => ?_ }
    refine (h.stale args hargs).imp_right fun hx => ?_
    cases hx
    case inl hx => exact .inl <| hx.imp_right fun hx => ⟨⟨hm, hc⟩, hx.right⟩
    case inr hx => exact absurd hm hx.mine
  case neg =>
    by_cases hv : data.value = availableState
    case pos =>
      rw [resync_available ho hv]
      refine .acquire (hs ho _) ?_
      by_cases hc : data.version = current entry
      case neg => exact .inl <| .inl <| Nat.lt_of_le_of_ne hu hc
      case pos =>
        refine .inr ⟨halt.mp hv, hc.ge, hc.le.trans (Nat.le_succ _), fun hm => ho ?_⟩
        exact Option.some.inj <| (congrArg _ (hd.latest hc).symm).trans hm
    case neg =>
      rw [resync_other ho hv]
      have hodd : data.version % 2 = 1 := by
        have := mt halt.mpr hv
        omega
      refine .acquire (hs ho _) ?_
      change Harmless entry id (data.version + 1) (data.version + 1) ∨ (data.version + 1) % 2 = 0 ∧
        current entry ≤ data.version + 1 ∧ data.version + 1 ≤ current entry + 1 ∧ ¬Mine entry id
      by_cases hc : data.version + 1 < current entry
      case pos => exact .inl <| .inl hc
      case neg =>
        refine .inr ⟨by omega, by omega, by omega, fun hm => ?_⟩
        by_cases hl : data.version = current entry
        · exact ho <| Option.some.inj <| (congrArg _ (hd.latest hl).symm).trans hm
        · have := hm.odd hw hi
          omega

-- What the server can make of the requests of a lock.
theorem Sound.sends (h : lk.Sound entry lockname id) (hs : lk.Sends args) :
    args.key = lockname ∧ (Harmless entry id lk.version args.version ∨ Bid entry id lk.phase args ∨
      (args.value = availableState ∧ args.version = lk.version ∧ lk.version = current entry ∧
        Mine entry id ∧ ∃ put, lk.phase = .releasing put)) := by
  cases hs
  case inl hs => exact (h.stale args hs).imp_right <| Or.imp_right .inl
  case inr hs =>
    obtain ⟨put, hp | hp, rfl⟩ := hs
    case inl =>
      have ⟨ha, hb, _⟩ := h.phase_of hp
      rw [ha, hp]
      exact ⟨rfl, hb.imp_right .inl⟩
    case inr =>
      have ⟨ha, _, hb⟩ := h.phase_of hp
      rw [ha]
      refine ⟨rfl, hb.imp_right fun ⟨hv, hm, _⟩ => .inr ⟨rfl, rfl, hv, hm, put, hp⟩⟩

theorem Harmless.ne {n : Nat} (h : Harmless entry id version n) : current entry ≠ n := by
  cases h <;> omega

end Lock

namespace Locks

open Lock

variable {ι : Type} {id : ι → String} {lockname : String} {s s' : Locks ι} {e : Event ι}
variable {p q : ι} {args : PutArgs String String} {kv : KVServer String String} {err : Err}
  {lk : Lock}

structure Sound (id : ι → String) (lockname : String) (s : Locks ι) : Prop where
  entry : ∀ data ∈ s.kv lockname, Alternates data
  lock  : ∀ p, (s.lock p).Sound (s.kv lockname) lockname (id p)
  put   : ∀ p put, ((s.lock p).phase = .acquiring put ∨ (s.lock p).phase = .releasing put) →
    put.Sound (fun isFirstTry => isFirstTry) s.kv

namespace Sound

theorem set [DecidableEq ι] (h : s.Sound id lockname)
    (hl : lk.Sound (s.kv lockname) lockname (id p))
    (hp : ∀ put, (lk.phase = .acquiring put ∨ lk.phase = .releasing put) →
      put.Sound (fun isFirstTry => isFirstTry) s.kv) : (s.set p lk).Sound id lockname where
  entry    := h.entry
  lock q   := by
    simp only [Locks.set, Function.update_apply]
    split_ifs with hq
    · exact hq ▸ hl
    · exact h.lock q
  put q pt := by
    simp only [Locks.set, Function.update_apply]
    split_ifs with hq
    · exact hp pt
    · exact h.put q pt

-- The entry of the lock has not changed.
theorem frame (h : s.Sound id lockname) (hk : kv lockname = s.kv lockname)
    (hv : ∀ key, s.kv.version key ≤ kv.version key) : { s with kv }.Sound id lockname where
  entry data hd := h.entry data (hk ▸ hd)
  lock q        := (congrArg (Lock.Sound · lockname (id q) (s.lock q)) hk).mpr (h.lock q)
  put q pt hp   := (h.put q pt hp).mono (hv _)

-- Who changes the entry either takes the lock or releases it.
theorem put_cases (h : s.Sound id lockname) (hs : (s.lock p).Sends args)
    (hp : s.kv.put args.key args.value args.version = (kv, err)) :
    args.key = lockname ∧
    ((err ≠ .ok ∧ current (s.kv lockname) ≠ args.version ∧ kv lockname = s.kv lockname) ∨
    (err = .ok ∧ current (s.kv lockname) = args.version ∧
      kv lockname = some ⟨args.version + 1, args.value⟩ ∧
      (Bid (s.kv lockname) (id p) (s.lock p).phase args ∨
        (args.value = availableState ∧ args.version = (s.lock p).version ∧
          Mine (s.kv lockname) (id p) ∧ ∃ put, (s.lock p).phase = .releasing put)))) := by
  have ⟨hk, hx⟩ := (h.lock p).sends hs
  subst hk
  refine ⟨rfl, ?_⟩
  obtain ⟨hr, hv, hk⟩ | hn := KVServer.put_cases hp
  case inr => exact .inl hn
  case inl =>
    refine .inr ⟨hr, hv, hk, (hx.resolve_left fun hx => hx.ne hv).imp_right ?_⟩
    exact fun ⟨ha, hv, _, hm, hp⟩ => ⟨ha, hv, hm, hp⟩

theorem got_acquiring {put put' : Call Bool String String} (h : s.Sound id lockname)
    (hp : (s.lock p).phase = .acquiring put)
    (hx : s.kv.put put.args.key put.args.value put.args.version = (kv, err))
    (hg : ∀ err', put'.Got err' → put.Got err' ∨ err' = err) :
    (put'.Got .ok → Mine (kv lockname) (id p) ∧ current (kv lockname) = (s.lock p).version + 1) ∧
    (put'.Got .errVersion → kv lockname ≠ none) := by
  have ⟨ha, _, hok, hv⟩ := (h.lock p).phase_of hp
  obtain ⟨hk, ⟨hr, _, he⟩ | ⟨hr, _, he, hb⟩⟩ := h.put_cases (.inr ⟨put, .inl hp, rfl⟩) hx
  case inl =>
    rw [he]
    refine ⟨fun h => hok <| (hg _ h).resolve_right hr.symm, fun h => ?_⟩
    cases hg _ h
    case inl h => exact hv h
    case inr h =>
      subst h
      exact put_errVersion (hk ▸ KVServer.put_eq hx)
  case inr =>
    rw [he, ha]
    exact ⟨fun _ => ⟨rfl, rfl⟩, fun _ => nofun⟩

theorem got_releasing {put : Call Bool String String} (h : s.Sound id lockname)
    (hp : (s.lock p).phase = .releasing put)
    (hx : s.kv.put put.args.key put.args.value put.args.version = (kv, err)) :
    Harmless (kv lockname) (id p) (s.lock p).version (s.lock p).version := by
  have ⟨ha, _, hb⟩ := (h.lock p).phase_of hp
  obtain ⟨_, ⟨_, hv, he⟩ | ⟨_, _, he, _⟩⟩ := h.put_cases (.inr ⟨put, .inr hp, rfl⟩) hx
  case inl =>
    rw [ha] at hv
    rw [he]
    exact hb.resolve_right fun hb => hv hb.left.symm
  case inr =>
    rw [he, ha]
    exact .inl (Nat.lt_succ_self _)

section Ids

variable (hi : Function.Injective id) (ha : ∀ p, id p ≠ availableState)
include hi ha

theorem execute (h : s.Sound id lockname) (hs : (s.lock p).Sends args)
    (hp : s.kv.put args.key args.value args.version = (kv, err)) :
    { s with kv }.Sound id lockname := by
  have hle := KVServer.put_version_le hp
  obtain ⟨rfl, ⟨_, _, hk⟩ | ⟨_, hv, hk, hb⟩⟩ := h.put_cases hs hp
  case inl => exact h.frame hk hle
  case inr =>
    have hc : current (kv args.key) = current (s.kv args.key) + 1 := by
      rw [hk, hv]
      rfl
    have hn : kv args.key ≠ none := by simp [hk]
    have hval {i : String} : Mine (kv args.key) i ↔ args.value = i := by simp [hk, Mine]
    refine { entry := ?entry, lock := fun q => ?lock,
             put := fun q pt hq => (h.put q pt hq).mono (hle _) }
    case entry =>
      rintro data hd
      cases hd.symm.trans hk
      refine ⟨Nat.le_add_left .., ?_⟩
      cases hb
      case inl hb =>
        have := hb.even
        simp only [hb.value, ha p, false_iff]
        omega
      case inr hb =>
        have := hb.right.right.left.odd h.entry (ha p)
        simp only [hb.left, true_iff]
        omega
    case lock =>
      by_cases hq : q = p
      case pos =>
        subst hq
        cases hb
        case inl hb =>
          exact (h.lock q).won hb.seeks hb.mine (hv ▸ hb.even) hc (hval.mpr hb.value)
        case inr hb =>
          have ⟨_, hv', hm, put, hph⟩ := hb
          exact (h.lock q).freed hph (hv'.symm.trans hv.symm) hm hc
      case neg =>
        cases hb
        case inl hb =>
          refine (h.lock q).overtaken (fun hm => ?_) (fun hm => hq ?_) hc hn
          · have := hm.odd h.entry (ha q)
            have := hb.even
            omega
          · exact hi <| (hval.mp hm).symm.trans hb.value
        case inr hb =>
          refine (h.lock q).overtaken (fun hm => hq ?_) (fun hm => ?_) hc hn
          · exact hi <| hm.unique hb.right.right.left
          · exact ha q <| (hval.mp hm).symm.trans hb.left

theorem next [DecidableEq ι] (h : s.Sound id lockname) (hs : Stepped id lockname s e s') :
    s'.Sound id lockname := by
  have hmake (args : PutArgs String String) :
      (Call.make clerk args).Sound (fun isFirstTry => isFirstTry) s.kv :=
    .make clerk_careful _
  cases hs
  case acquire p hp =>
    refine h.set ((h.lock p).acquireReleased hp h.entry (ha p)) ?_
    rintro _ (⟨⟨⟩⟩ | ⟨⟨⟩⟩)
    exact hmake _
  case release p hp =>
    refine h.set ((h.lock p).release hp h.entry (ha p)) ?_
    rintro _ (⟨⟨⟩⟩ | ⟨⟨⟩⟩)
    exact hmake _
  case acquiring p e put put' kv hp hs =>
    have hput := (h.put p put (.inl hp)).next clerk_careful hs
    obtain ⟨rfl, hg⟩ | ⟨k, err, rfl, hx, hg⟩ := hs.got
    case inl =>
      have ⟨_, _, hok, hv⟩ := (h.lock p).phase_of hp
      refine h.set ((h.lock p).acquiring hp hs.args (hok ∘ hg _) (hv ∘ hg _)) ?_
      rintro _ (⟨⟨⟩⟩ | ⟨⟨⟩⟩)
      exact hput
    case inr =>
      have h' := h.execute hi ha (.inr ⟨put, .inl hp, rfl⟩) hx
      have ⟨hok, hv⟩ := h.got_acquiring hp hx hg
      refine h'.set ((h'.lock p).acquiring hp hs.args hok hv) ?_
      rintro _ (⟨⟨⟩⟩ | ⟨⟨⟩⟩)
      exact hput
  case releasing p e put put' kv hp hs =>
    have hput := (h.put p put (.inr hp)).next clerk_careful hs
    obtain ⟨rfl, hg⟩ | ⟨k, err, rfl, hx, hg⟩ := hs.got
    case inl =>
      refine h.set ((h.lock p).releasing hp hs.args (.inr hg)) ?_
      rintro _ (⟨⟨⟩⟩ | ⟨⟨⟩⟩)
      exact hput
    case inr =>
      have h' := h.execute hi ha (.inr ⟨put, .inr hp, rfl⟩) hx
      refine h'.set ((h'.lock p).releasing hp hs.args (.inl <| h.got_releasing hp hx)) ?_
      rintro _ (⟨⟨⟩⟩ | ⟨⟨⟩⟩)
      exact hput
  case acquired p put err hp hd =>
    have ⟨first, e, hg, he, hr⟩ := (h.put p put (.inl hp)).got hd
    refine h.set ((h.lock p).acquired hp hg he hr) ?_
    obtain rfl | rfl | rfl := hr
    case inr.inr =>
      rw [he, Clerk.err_errNoKey]
      rintro _ (⟨⟨⟩⟩ | ⟨⟨⟩⟩)
      exact hmake _
    all_goals cases first <;> rw [he] <;> rintro _ (⟨⟨⟩⟩ | ⟨⟨⟩⟩)
  case released p put err hp hd =>
    have ⟨_, _, hg, _⟩ := (h.put p put (.inr hp)).got hd
    refine h.set ((h.lock p).released hp hg) ?_
    rintro _ (⟨⟨⟩⟩ | ⟨⟨⟩⟩)
  case duplicate p put hp => exact h.execute hi ha (.inr ⟨put, hp, rfl⟩) rfl
  case stale p k args hargs => exact h.execute hi ha (.inl hargs) rfl
  case get p reply hp =>
    refine h.set ((h.lock p).get hp h.entry) ?_
    rintro _ (⟨⟨⟩⟩ | ⟨⟨⟩⟩)
  case lose p reply hp =>
    refine h.set ((h.lock p).lose hp) ?_
    rintro _ (⟨⟨⟩⟩ | ⟨⟨⟩⟩)
  case resync p reply hp =>
    refine h.set ((h.lock p).resync hp h.entry (ha p)) ?_
    intro put
    rw [Lock.resync]
    split_ifs <;> rintro (⟨⟨⟩⟩ | ⟨⟨⟩⟩)
    all_goals exact hmake _
  case other args hk => exact h.frame (KVServer.put_of_ne rfl hk.symm) (KVServer.put_version_le rfl)

end Ids
end Sound

theorem sound [DecidableEq ι] (hi : Function.Injective id) (ha : ∀ p, id p ≠ availableState)
    (b : (locks id lockname).Behavior) : ∀ i, (b.state i).Sound id lockname := by
  refine b.invariant ?init fun _ _ _ _ hn h => h.next hi ha (next_stepped hn)
  exact {
    entry  := nofun
    lock _ := { phase := .inl ⟨rfl, le_rfl⟩, stale := nofun }
    put    := by rintro _ _ (⟨⟨⟩⟩ | ⟨⟨⟩⟩)
  }

-- Between the return of `Acquire` and the next call of `Release`.
def Holds (s : Locks ι) (p : ι) : Prop :=
  (s.lock p).phase = .acquired

theorem mutual_exclusion [DecidableEq ι] (hi : Function.Injective id)
    (ha : ∀ p, id p ≠ availableState) (b : (locks id lockname).Behavior) (i : Nat)
    (hp : (b.state i).Holds p) (hq : (b.state i).Holds q) :
    p = q := by
  have hs := sound hi ha b i
  have hmine {r : ι} (hr : (b.state i).Holds r) : Mine ((b.state i).kv lockname) (id r) := by
    have h : Phase.Sound _ lockname (id r) _ .acquired := hr ▸ (hs.lock r).phase
    exact h.left
  exact hi <| (hmine hp).unique (hmine hq)

-- The names of the two locks in the following runs.
def name : Bool → String
  | true  => "x"
  | false => "y"

-- The request that takes the lock is executed, but its reply is lost.
def rediscovery : List (Event Bool) :=
  [.acquire true, .acquire false, .put true (.execute 0), .put true (.lose ()),
    .put true (.execute 1), .put true (.respond ()), .proceed true, .get true, .resync true]

theorem mutual_exclusion_rediscovery :
    ∃ b : (locks name "lock").Behavior, (b.state 9).Holds true ∧ ¬(b.state 9).Holds false := by
  have held : Holds ((System.Behavior.ofActions (locks name "lock") rediscovery
      (by decide)).state 9) true := rfl
  refine ⟨_, held, fun h => ?_⟩
  have he : false = true := mutual_exclusion (by decide) (by decide) _ 9 h held
  cases he

end Locks
