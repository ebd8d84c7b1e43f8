import DistributedSystems.Lock.Theorems.Exclusion

open KvSrv

namespace Locks

open Lock

variable {ι : Type} {id : ι → String} {lockname : String} {s s' : Locks ι} {e : Event ι}
variable {p q : ι} {args : PutArgs String String} {kv : KVServer String String} {err : Err}
  {lk : Lock}

-- The reply says that the lock is its own.
def Owned (id : String) : Phase → Prop
  | .resyncing (some reply) => reply.value.getD "" = id
  | _                       => False

instance (id : String) : DecidablePred (Owned id)
  | .resyncing (some _) => inferInstanceAs <| Decidable <| _ = _
  | .resyncing none | .released | .acquiring _ | .acquired | .releasing _ => isFalse nofun

-- `resync` finds the lock to be its own.
def Rediscovers (id : ι → String) (s : Locks ι) : Event ι → Prop
  | .resync p => Owned (id p) (s.lock p).phase
  | _         => False

instance : Decidable (s.Rediscovers id e) :=
  match e with
  | .resync p => inferInstanceAs <| Decidable <| Owned (id p) (s.lock p).phase
  | .acquire _ | .release _ | .put _ _ | .proceed _ | .duplicate _ | .stale _ _ | .get _ | .lose _
  | .other _ => isFalse nofun

def Free (id : ι → String) (lockname : String) (s : Locks ι) : Prop :=
  ∀ p, ¬Stuck (s.kv lockname) (id p) (s.lock p).version

namespace Free

variable (ha : ∀ p, id p ≠ availableState)

theorem set [DecidableEq ι] (h : s.Free id lockname)
    (hl : ¬Stuck (s.kv lockname) (id p) lk.version) :
    (s.set p lk).Free id lockname := by
  intro q
  simp only [Locks.set, Function.update_apply]
  split_ifs with hq
  · exact hq ▸ hl
  · exact h q

include ha in
theorem execute (h : s.Free id lockname) (hi : Function.Injective id) (hs : s.Sound id lockname)
    (hsend : (s.lock p).Sends args) (hp : s.kv.put args.key args.value args.version = (kv, err)) :
    { s with kv }.Free id lockname := by
  intro q
  obtain ⟨_, ⟨_, _, hk⟩ | ⟨_, hv, hk, hb⟩⟩ := hs.put_cases hsend hp
  case inl => exact (congrArg (¬Stuck · (id q) (s.lock q).version) hk).mpr (h q)
  case inr =>
    rintro ⟨hm, hl⟩
    have hval : args.value = id q := by simpa [hk, Mine] using hm
    change current (kv lockname) < (s.lock q).version at hl
    rw [hk] at hl
    cases hb
    case inr hb => exact ha q <| hval.symm.trans hb.left
    case inl hb =>
      have hq : q = p := hi <| hval.symm.trans hb.value
      subst hq
      have := (hs.lock q).phase.seeks hb.seeks hb.mine
      simp only [current, Option.elim] at hl hv this
      omega

include ha in
theorem next [DecidableEq ι] (h : s.Free id lockname) (hi : Function.Injective id)
    (hs : s.Sound id lockname) (hn : Stepped id lockname s e s') (hr : ¬s.Rediscovers id e) :
    s'.Free id lockname := by
  cases hn
  case acquire p hp     => exact h.set (h p)
  case release p hp     => exact h.set (h p)
  case get p _ hp       => exact h.set (h p)
  case lose p _ hp      => exact h.set (h p)
  case duplicate put hp => exact h.execute ha hi hs (.inr ⟨put, hp, rfl⟩) rfl
  case stale hargs      => exact h.execute ha hi hs (.inl hargs) rfl
  case other args hk =>
    have hk : (s.execute args).kv lockname = s.kv lockname := KVServer.put_of_ne rfl hk.symm
    exact fun q => (congrArg (¬Stuck · (id q) (s.lock q).version) hk).mpr (h q)
  case acquiring p e put put' kv hp hs' =>
    obtain ⟨rfl, _⟩ | ⟨_, _, _, hx, _⟩ := hs'.got
    case inl => exact h.set (h p)
    case inr =>
      have h' := h.execute ha hi hs (.inr ⟨put, .inl hp, rfl⟩) hx
      exact h'.set (h' p)
  case releasing p e put put' kv hp hs' =>
    obtain ⟨rfl, _⟩ | ⟨_, _, _, hx, _⟩ := hs'.got
    case inl => exact h.set (h p)
    case inr =>
      have h' := h.execute ha hi hs (.inr ⟨put, .inr hp, rfl⟩) hx
      exact h'.set (h' p)
  case acquired p put err hp hd =>
    have ⟨_, _, hok, _⟩ := (hs.lock p).phase_of hp
    have ⟨first, e, hg, he, hr⟩ := (hs.put p put (.inl hp)).got hd
    refine h.set ?_
    obtain rfl | rfl | rfl := hr
    case inl =>
      have hc := (hok hg).right
      rw [he, Clerk.err_ok]
      exact fun hs => Nat.lt_irrefl _ <| hc ▸ hs.right
    all_goals cases first <;> rw [he] <;> exact h p
  case released p put err hp hd =>
    have ⟨_, _, hb⟩ := (hs.lock p).phase_of hp
    have ⟨_, e, hg, _⟩ := (hs.put p put (.inr hp)).got hd
    have hb := hb.resolve_right fun hb => hb.right.right e hg
    have hb := hb.resolve_right fun hb => h p hb.left
    exact h.set fun hs => Nat.lt_irrefl _ <| hs.right.trans_le hb
  case resync p reply hp =>
    have ⟨_, _, hread⟩ := (hs.lock p).phase_of hp
    have ⟨data, he, hd⟩ := hread reply rfl
    subst he
    have ho : data.value ≠ id p := fun ho => hr <| by rwa [Rediscovers, hp]
    refine h.set ?_
    by_cases hv : data.value = availableState
    case pos =>
      rw [resync_available ho hv]
      exact fun hs => Nat.lt_irrefl _ <| hs.right.trans_le hd.upper
    case neg =>
      rw [resync_other ho hv]
      rintro ⟨hm, hl⟩
      have hl := hd.latest <| Nat.le_antisymm hd.upper (Nat.le_of_lt_succ hl)
      exact ho <| Option.some.inj <| (congrArg _ hl.symm).trans hm

end Free

-- The current call of `Put` of the given lock has a request executed.
def Event.Executes (p : ι) : Event ι → Prop
  | .put q (.execute _) | .duplicate q => q = p
  | _                                  => False

-- `Release` has not been executed yet, but will be by any of its requests.
def Pending (id : ι → String) (lockname : String) (s : Locks ι) (p : ι) : Prop :=
  (s.lock p).version = current (s.kv lockname) ∧ Mine (s.kv lockname) (id p) ∧
  ∃ put, (s.lock p).phase = .releasing put ∧ ∀ err, ¬put.Got err

namespace Pending

theorem frame (h : s.Pending id lockname p) (hk : s'.kv lockname = s.kv lockname)
    (hl : s'.lock p = s.lock p) : s'.Pending id lockname p := by
  rw [Pending, hk, hl]
  exact h

theorem set [DecidableEq ι] (h : s.Pending id lockname p) (hq : p ≠ q) :
    (s.set q lk).Pending id lockname p :=
  h.frame rfl (Function.update_of_ne hq _ _)

-- No other request can change the entry.
theorem execute (h : s.Pending id lockname p) (hi : Function.Injective id)
    (ha : ∀ p, id p ≠ availableState) (hs : s.Sound id lockname) (hsend : (s.lock q).Sends args)
    (hp : s.kv.put args.key args.value args.version = (kv, err)) :
    kv lockname = s.kv lockname ∨
    (q = p ∧ kv lockname = some ⟨(s.lock p).version + 1, availableState⟩) := by
  have ⟨hv, hm, _⟩ := h
  obtain ⟨_, ⟨_, _, hk⟩ | ⟨_, hv', hk, hb⟩⟩ := hs.put_cases hsend hp
  case inl => exact .inl hk
  case inr =>
    cases hb
    case inl hb =>
      have := hm.odd hs.entry (ha p)
      have := hb.even
      omega
    case inr hb =>
      refine .inr ⟨hi <| hb.right.right.left.unique hm, ?_⟩
      rw [hk, hb.left, hv, hv']

theorem next [DecidableEq ι] (h : s.Pending id lockname p) (hi : Function.Injective id)
    (ha : ∀ p, id p ≠ availableState) (hs : s.Sound id lockname) (hn : Stepped id lockname s e s') :
    (s'.Pending id lockname p ∧ e ≠ .proceed p) ∨
    (e.Executes p ∧ s'.kv lockname = some ⟨(s.lock p).version + 1, availableState⟩) := by
  have ⟨hv, hm, put₀, hp₀, hg₀⟩ := h
  -- A client in another phase is not the one that releases the lock.
  have other {q : ι} (hq : ∀ put, (s.lock q).phase ≠ .releasing put) : p ≠ q := by
    rintro rfl
    exact hq put₀ hp₀
  cases hn
  case acquire q hp  => exact .inl ⟨h.set <| other (by simp [hp]), by simp⟩
  case release q hp  => exact .inl ⟨h.set <| other (by simp [hp]), by simp⟩
  case get q _ hp    => exact .inl ⟨h.set <| other (by simp [hp]), by simp⟩
  case lose q _ hp   => exact .inl ⟨h.set <| other (by simp [hp]), by simp⟩
  case resync q _ hp => exact .inl ⟨h.set <| other (by simp [hp]), by simp⟩
  case acquired q put err hp hd =>
    have hq : p ≠ q := other (by simp [hp])
    exact .inl ⟨h.set hq, by simpa using hq.symm⟩
  case other args hk => exact .inl ⟨h.frame (KVServer.put_of_ne rfl hk.symm) rfl, by simp⟩
  case stale q k args hargs =>
    refine .inl ⟨h.frame ?_ rfl, by simp⟩
    cases h.execute hi ha hs (.inl hargs) rfl
    case inl hk => exact hk
    case inr hx =>
      -- The requests of its earlier calls are too late.
      obtain ⟨rfl, _⟩ := hx
      obtain ⟨rfl, hx⟩ := ((hs.lock q).stale args hargs).harmless (by simp [hp₀, Phase.Seeks])
      obtain ⟨_, hc, _⟩ | ⟨_, _, hk⟩ := KVServer.put_cases (rfl : s.kv.put args.key _ _ = _)
      · exact absurd hc hx.ne
      · exact hk
  case duplicate q put hp =>
    cases h.execute hi ha hs (.inr ⟨put, hp, rfl⟩) rfl
    case inl hk => exact .inl ⟨h.frame hk rfl, by simp⟩
    case inr hx => exact .inr hx
  case acquiring q e put put' kv hp hs' =>
    have hq : p ≠ q := other (by simp [hp])
    refine .inl ⟨h.frame ?_ (Function.update_of_ne hq _ _), by simp⟩
    obtain ⟨rfl, _⟩ | ⟨_, _, _, hx, _⟩ := hs'.got
    case inl => rfl
    case inr =>
      cases h.execute hi ha hs (.inr ⟨put, .inl hp, rfl⟩) hx
      case inl hk => exact hk
      case inr hx => exact absurd hx.left hq.symm
  case releasing q e put put' kv hp hs' =>
    obtain ⟨rfl, hg⟩ | ⟨k, _, rfl, hx, _⟩ := hs'.got
    case inl =>
      refine .inl ⟨?_, by simp⟩
      by_cases hq : p = q
      case neg => exact h.set hq
      case pos =>
        subst hq
        cases hp.symm.trans hp₀
        simp only [Pending, Locks.set, Function.update_self]
        exact ⟨hv, hm, put', rfl, fun err h => hg₀ err (hg err h)⟩
    case inr =>
      cases h.execute hi ha hs (.inr ⟨put, .inr hp, rfl⟩) hx
      case inr hx => exact .inr hx
      case inl hk =>
        refine .inl ⟨h.frame hk (Function.update_of_ne ?_ _ _), by simp⟩
        rintro rfl
        exact (hs.got_releasing hp hx).ne <| (congrArg current hk).trans hv.symm
  case released q put err hp hd =>
    obtain ⟨_, e, hg, _⟩ := (hs.put q put (.inr hp)).got hd
    have hq : p ≠ q := by
      rintro rfl
      cases hp.symm.trans hp₀
      exact hg₀ e hg
    exact .inl ⟨h.set hq, by simpa using hq.symm⟩

theorem release [DecidableEq ι] (hs : s.Sound id lockname) (hf : s.Free id lockname)
    (hn : Stepped id lockname s (.release p) s') : s'.Pending id lockname p := by
  cases hn
  case release hp =>
    have ⟨hm, hv⟩ := (hs.lock p).phase_of hp
    have hv := Nat.le_antisymm (Nat.le_of_not_lt fun hl => hf p ⟨hm, hl⟩) hv
    simp only [Pending, Locks.set, Function.update_self]
    exact ⟨hv, hm, _, rfl, fun err => Call.not_got_make _ _⟩

end Pending

def Releases (s : Locks ι) (p : ι) : Prop :=
  ∃ put, (s.lock p).phase = .releasing put

theorem release_releases [DecidableEq ι] (hi : Function.Injective id)
    (ha : ∀ p, id p ≠ availableState) (b : (locks id lockname).Behavior)
    (hr : b.Avoids (Rediscovers id)) {i j : Nat} (hij : i < j)
    (hcall : b.label i = some (.release p)) (hret : b.label j = some (.proceed p)) :
    ∃ k, i < k ∧ k < j ∧ (∀ m, i < m → m ≤ k → (b.state m).Releases p) ∧
      (∃ e, b.label k = some e ∧ e.Executes p) ∧
      ∃ version, (b.state k).kv lockname = some ⟨version, id p⟩ ∧
        (b.state (k + 1)).kv lockname = some ⟨version + 1, availableState⟩ := by
  have hs := sound hi ha b
  have hf : ∀ k, (b.state k).Free id lockname :=
    b.invariant (fun p hp => by cases hp.left) fun k e _ hl hn h =>
      h.next ha hi (hs k) (next_stepped hn) (hr k e hl)
  have stepped {k : Nat} {e : Event ι} (hl : b.label k = some e) :
      Stepped id lockname (b.state k) e (b.state (k + 1)) :=
    next_stepped (b.next_of_label hl)
  by_contra hne
  -- As long as it has not been executed, the call of `Release` stays pending.
  have hpending : ∀ k, i < k → k ≤ j → ∀ m, i < m → m ≤ k → (b.state m).Pending id lockname p := by
    intro k hk
    induction hk
    case refl =>
      intro _ m hm hmi
      cases Nat.le_antisymm hmi hm
      exact .release (hs i) (hf i) (stepped hcall)
    case step k hk hind =>
      intro hkj m hm hmk
      have h := hind (Nat.le_of_succ_le hkj)
      obtain hmk | rfl := Nat.le_succ_iff.mp hmk
      case inl => exact h m hm hmk
      case inr =>
        have hp := h k hk le_rfl
        cases b.step_cases k
        case inl he => exact he ▸ hp
        case inr he =>
          have ⟨e, hl, hn⟩ := he
          cases hp.next hi ha (hs k) (next_stepped hn)
          case inl hp => exact hp.left
          case inr hx =>
            have hrel m (hm : i < m) (hmk : m ≤ k) : (b.state m).Releases p :=
              (h m hm hmk).right.right.imp fun _ => And.left
            have hown := hp.left ▸ hp.right.left.entry_eq
            exact absurd ⟨k, hk, hkj, hrel, ⟨e, hl, hx.left⟩, _, hown, hx.right⟩ hne
  cases (hpending j hij le_rfl j hij le_rfl).next hi ha (hs j) (stepped hret)
  case inl h => exact h.right rfl
  case inr h => exact h.left

-- The lock is handed from one client to the other, although some of the requests and replies are
-- lost.
def alternation : List (Event Bool) :=
  .flatten [
    [.acquire true, .put true (.lose ()), .put true (.execute 1), .put true (.respond ()),
      .proceed true],
    [.acquire false, .put false (.execute 0), .put false (.respond ()), .proceed false, .get false,
      .resync false],
    [.release true, .put true (.execute 0), .put true (.lose ()), .put true (.execute 1),
      .put true (.respond ()), .proceed true],
    [.put false (.execute 0), .put false (.respond ()), .proceed false]]

theorem release_releases_alternation :
    ∃ b : (locks name "lock").Behavior, b.label 11 = some (.release true) ∧
      b.label 16 = some (.proceed true) ∧ (b.state 20).Holds false ∧
      ∃ k, 11 < k ∧ k < 16 ∧
      ∃ version, (b.state (k + 1)).kv "lock" = some ⟨version + 1, availableState⟩ := by
  refine ⟨.ofActions _ alternation (by decide), rfl, rfl, rfl, ?_⟩
  have ⟨k, hk, hk', _, _, version, _, h⟩ :=
    release_releases (by decide) (by decide)
      (.ofActions (locks name "lock") alternation (by decide))
      (System.Behavior.avoids_ofActions (by decide +kernel)) (show 11 < 16 by decide) rfl rfl
  exact ⟨k, hk, hk', version, h⟩

-- A lock that has been rediscovered is released with the wrong version.
def captured : List (Event Bool) :=
  .flatten [rediscovery,
    [.release true, .put true (.execute 0), .put true (.respond ()), .proceed true]]

theorem release_captured :
    ∃ b : (locks name "lock").Behavior, b.label 9 = some (.release true) ∧
      b.label 12 = some (.proceed true) ∧ (b.state 9).Holds true ∧
      ∀ k, ((b.state k).kv "lock").map Data.value ≠ some availableState := by
  refine ⟨.ofActions _ captured (by decide), rfl, rfl, rfl, ?_⟩
  exact System.Behavior.forall_state_ofActions
    (I := fun s : Locks Bool => (s.kv "lock").map Data.value ≠ some availableState)
    (by decide +kernel)

end Locks
