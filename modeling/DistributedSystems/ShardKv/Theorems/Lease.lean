import DistributedSystems.Clerk.Theorems.Call
import DistributedSystems.ShardKv.Lease

open KvSrv Lease

namespace Leases

variable {ι : Type}

@[simp]
theorem execute_ctrler (s : Leases ι) (args : PutArgs String String) :
    (s.execute args).ctrler = s.ctrler :=
  rfl

variable [DecidableEq ι]

-- All that can happen to the controllers.
inductive Stepped (id : ι → String) (s : Leases ι) : Event ι → Leases ι → Prop
  | call (p method) (hp : (s.ctrler p).phase = .idle) :
    Stepped id s (.call p method) (s.set p ({ s.ctrler p with returned := none }.put (id p) method))
  | put (p e) {method call call' kv} (hp : (s.ctrler p).phase = .put method call)
    (hs : call.Stepped clerk s.kv e kv call') :
    Stepped id s (.put p e) ({ s with kv }.set p { s.ctrler p with phase := .put method call' })
  | proceed (p) {method call err} (hp : (s.ctrler p).phase = .put method call)
    (hd : call.outcome = .done err) :
    Stepped id s (.proceed p) (s.set p
      ({ s.ctrler p with stale := call.args :: (s.ctrler p).stale }.proceed (id p) err method))
  | duplicate (p) {method call} (hp : (s.ctrler p).phase = .put method call) :
    Stepped id s (.duplicate p) (s.execute call.args)
  | stale (p k) {args} (ha : args ∈ (s.ctrler p).stale) :
    Stepped id s (.stale p k) (s.execute args)
  | get (p) {reply} (hp : (s.ctrler p).phase = .get reply) :
    Stepped id s (.get p) (s.set p { s.ctrler p with phase := .get (some (s.kv.get lockKey)) })
  | lose (p) {reply} (hp : (s.ctrler p).phase = .get reply) :
    Stepped id s (.lose p) (s.set p { s.ctrler p with phase := .get none })
  | resume (p) {reply} (hp : (s.ctrler p).phase = .get (some reply)) :
    Stepped id s (.resume p) (s.set p ((s.ctrler p).acquireGet (id p) reply))
  | other (args) (hk : args.key ≠ lockKey) : Stepped id s (.other args) (s.execute args)

variable {id : ι → String} {s s' : Leases ι} {e : Event ι} {p q : ι}

theorem next_stepped (h : s.next id e = some s') : Stepped id s e s' := by
  cases e <;> simp only [next] at h
  case call p method =>
    split at h <;> cases h
    exact .call p method ‹_›
  case put p e =>
    split at h
    case h_1 method call hp =>
      have ⟨⟨kv, call'⟩, hn, h⟩ := Option.bind_eq_some_iff.mp h
      cases h
      exact .put p e hp (Call.next_stepped hn)
    case h_2 => cases h
  case proceed p =>
    split at h
    case h_1 method call hp =>
      split at h <;> cases h
      exact .proceed p hp ‹_›
    case h_2 => cases h
  case duplicate p =>
    split at h <;> cases h
    exact .duplicate p ‹_›
  case stale p k =>
    have ⟨args, ha, h⟩ := Option.bind_eq_some_iff.mp h
    cases h
    exact .stale p k (List.mem_of_getElem? ha)
  case get p =>
    split at h <;> cases h
    exact .get p ‹_›
  case lose p =>
    split at h <;> cases h
    exact .lose p ‹_›
  case resume p =>
    split at h <;> cases h
    exact .resume p ‹_›
  case other args =>
    split_ifs at h with hk
    cases h
    exact .other args hk

@[simp]
theorem set_ctrler_self (s : Leases ι) (p : ι) (sck : Lease) : (s.set p sck).ctrler p = sck :=
  Function.update_self ..

theorem set_ctrler_of_ne {q : ι} (h : q ≠ p) (s : Leases ι) (sck : Lease) :
    (s.set p sck).ctrler q = s.ctrler q :=
  Function.update_of_ne h ..

end Leases

-- Versions

-- What the controller remembers is never ahead of the server, and the requests of its earlier calls
-- are behind it.
structure Lease.Fresh (kv : KVServer String String) (id : String) (sck : Lease) : Prop where
  version : sck.lockVersion ≤ kv.version lockKey
  put     : ∀ method call, sck.phase = .put method call →
    call.args = ⟨lockKey, method.value id, sck.lockVersion⟩ ∧ call.Sound (·) kv ∧
    ∀ err, call.Got err → err ≠ .errNoKey ∧ sck.lockVersion < kv.version lockKey
  get     : ∀ reply, sck.phase = .get (some reply) → reply.version ≤ kv.version lockKey
  stale   : ∀ args ∈ sck.stale, args.key = lockKey ∧ args.version < kv.version lockKey

namespace Lease.Fresh

variable {kv kv' : KVServer String String} {id : String} {sck : Lease} {method : Method}
  {call : Call Bool String String}

theorem mono (h : sck.Fresh kv id) (hv : ∀ key, kv.version key ≤ kv'.version key) :
    sck.Fresh kv' id where
  version := h.version.trans (hv _)
  put m c hp := by
    have ⟨h₁, h₂, h₃⟩ := h.put m c hp
    exact ⟨h₁, h₂.mono (hv _), fun err hg => ⟨(h₃ err hg).left, (h₃ err hg).right.trans_le (hv _)⟩⟩
  get r hp := (h.get r hp).trans (hv _)
  stale args ha := ⟨(h.stale args ha).left, (h.stale args ha).right.trans_le (hv _)⟩

-- A method is called, or `acquireLock` starts over.
theorem start (hv : sck.lockVersion ≤ kv.version lockKey)
    (hs : ∀ args ∈ sck.stale, args.key = lockKey ∧ args.version < kv.version lockKey) :
    (sck.put id method).Fresh kv id where
  version := hv
  put m c hp := by
    cases hp
    exact ⟨rfl, .make clerk_careful _, fun err hg => absurd hg (Call.not_got_make _ _)⟩
  get _ hp := nomatch hp
  stale := hs

theorem idle (hi : sck.phase = .idle) (hv : sck.lockVersion ≤ kv.version lockKey)
    (hs : ∀ args ∈ sck.stale, args.key = lockKey ∧ args.version < kv.version lockKey) :
    sck.Fresh kv id where
  version := hv
  put m c hp := by cases hi.symm.trans hp
  get _ hp := by cases hi.symm.trans hp
  stale := hs

variable {err : Err}

-- A request of the current call is executed, whatever its result is.
theorem got (h : sck.Fresh kv id) (hp : sck.phase = .put method call)
    (hx : kv.put call.args.key call.args.value call.args.version = (kv', err)) :
    err ≠ .errNoKey ∧ sck.lockVersion < kv'.version lockKey := by
  have hv := h.version
  rw [(h.put method call hp).left] at hx
  obtain ⟨rfl, _, hk⟩ | ⟨_, hne, hk⟩ := KVServer.put_cases hx
  · rw [KVServer.version, hk]
    exact ⟨by decide, Nat.lt_succ_self _⟩
  · refine ⟨?_, by rw [KVServer.version, hk]; exact Nat.lt_of_le_of_ne hv hne.symm⟩
    rintro rfl
    obtain ⟨hn, hz⟩ := put_errNoKey <| KVServer.put_eq hx
    rw [KVServer.version, hn] at hv
    exact hz <| Nat.le_zero.mp hv

theorem done (h : sck.Fresh kv id) (hp : sck.phase = .put method call)
    (hd : call.outcome = .done err) :
    ∃ first e, call.Got e ∧ err = Clerk.err first e ∧ (e = .ok ∨ e = .errVersion) ∧
      sck.lockVersion < kv.version lockKey := by
  have ⟨_, hs, hg⟩ := h.put method call hp
  have ⟨first, e, he, herr, hr⟩ := hs.got hd
  have ⟨hne, hv⟩ := hg e he
  refine ⟨first, e, he, herr, ?_, hv⟩
  obtain rfl | rfl | rfl := hr
  · exact .inl rfl
  · exact .inr rfl
  · exact absurd rfl hne

theorem executed {e : Call.Event Unit} {call' : Call Bool String String} (h : sck.Fresh kv id)
    (hp : sck.phase = .put method call) (hs : call.Stepped clerk kv e kv' call') :
    { sck with phase := .put method call' }.Fresh kv' id := by
  have hv key : kv.version key ≤ kv'.version key := by
    obtain ⟨rfl, _⟩ | ⟨_, _, _, hx, _⟩ := hs.got
    · exact le_rfl
    · exact KVServer.put_version_le hx key
  have h' := h.mono hv
  have ⟨ha, hsound, _⟩ := h.put method call hp
  refine { version := h'.version, put := ?put, get := nofun, stale := h'.stale }
  case put =>
    rintro m c ⟨⟩
    refine ⟨hs.args.trans ha, hsound.next clerk_careful hs, fun err hg => ?_⟩
    have hold := (h'.put method call hp).right.right
    obtain ⟨_, hsub⟩ | ⟨_, err', _, hx, hsub⟩ := hs.got
    case inl => exact hold err (hsub err hg)
    case inr =>
      cases hsub err hg
      case inl hg => exact hold err hg
      case inr he => exact he ▸ h.got hp hx

theorem proceed (h : sck.Fresh kv id) (hp : sck.phase = .put method call)
    (hd : call.outcome = .done err) :
    ({ sck with stale := call.args :: sck.stale }.proceed id err method).Fresh kv id := by
  have ⟨first, e, _, _, _, hv⟩ := h.done hp hd
  have hs : ∀ args ∈ call.args :: sck.stale, args.key = lockKey ∧
      args.version < kv.version lockKey := by
    intro args ha
    cases ha
    case head      => exact (h.put method call hp).left ▸ ⟨rfl, hv⟩
    case tail _ ha => exact h.stale args ha
  cases method
  case releaseLock => exact .idle rfl hv hs
  case acquireLock =>
    cases err
    case ok                    => exact .idle rfl hv hs
    case errVersion | errMaybe =>
      exact { version := h.version, put := nofun, get := nofun, stale := hs }
    all_goals exact .start h.version hs

end Lease.Fresh

namespace Lease

variable {id : String} {sck : Lease} {method : Method} {err : Err} {reply : GetReply String}

-- `acquireLock` has been called and has not returned yet.
def Phase.Acquires : Phase → Prop
  | .put .acquireLock _ | .get _ => True
  | .idle | .put .releaseLock _  => False

instance : DecidablePred Phase.Acquires
  | .put .acquireLock _ | .get _ => isTrue trivial
  | .idle | .put .releaseLock _  => isFalse nofun

-- `Get` has found the given id.
def Phase.Found (id : String) : Phase → Prop
  | .get (some reply) => reply.value.getD "" = id
  | _                 => False

instance : DecidablePred (Phase.Found id)
  | .get (some _)                  => inferInstanceAs <| Decidable <| _ = _
  | .get none | .idle | .put _ _   => isFalse nofun

-- The current call of `Put` has taken the lock.
def Wrote (sck : Lease) : Prop :=
  ∃ call, sck.phase = .put .acquireLock call ∧ call.Got .ok

-- A new call of `Put` has not been executed yet.
theorem not_wrote_put : ¬(sck.put id method).Wrote := by
  rintro ⟨_, hp, hg⟩
  cases hp
  exact Call.not_got_make _ _ hg

theorem not_wrote_proceed : ¬(sck.proceed id err method).Wrote := by
  cases method
  case releaseLock => nofun
  case acquireLock =>
    cases err
    case ok | errVersion | errMaybe => nofun
    all_goals exact not_wrote_put

theorem acquireGet_eq : sck.acquireGet id reply =
    if reply.value.getD "" = id then
      { sck with lockVersion := reply.version + 1, wasLeader := true }.returns true true
    else if sck.wasLeader then
      sck.returns false false
    else if reply.value.getD "" = lockAvailable then
      { sck with lockVersion := reply.version }.put id .acquireLock
    else
      { sck with lockVersion := reply.version }.returns false true := by
  rw [acquireGet, Fields.acquireGet]
  split_ifs <;> rfl

theorem not_wrote_acquireGet : ¬(sck.acquireGet id reply).Wrote := by
  rw [acquireGet_eq]
  split_ifs <;> first | exact not_wrote_put | exact fun h => nomatch h.choose_spec.left

-- The only way to return with the lock, if `Get` does not find the caller's id.
theorem proceed_returned (hi : (sck.proceed id err .acquireLock).phase = .idle) :
    err = .ok ∧ (sck.proceed id err .acquireLock).lockVersion = sck.lockVersion + 1 := by
  cases err <;> first | exact ⟨rfl, rfl⟩ | cases hi

theorem acquireGet_returned (hne : reply.value.getD "" ≠ id)
    (hi : (sck.acquireGet id reply).phase = .idle) :
    (sck.acquireGet id reply).returned ≠ some (true, true) := by
  rw [acquireGet_eq, if_neg hne] at hi ⊢
  split_ifs at hi ⊢ <;> simp [returns, put] at hi ⊢

-- The entry is the caller's, in the version that the caller knows of or will get to know of.
def Phase.Owns (id : String) (lockVersion version : Nat) : Phase → Prop
  | .idle                  => version = lockVersion
  | .put .acquireLock call =>
    (version = lockVersion ∧ ∀ err, ¬call.Got err) ∨ version = lockVersion + 1
  | .put .releaseLock call => version = lockVersion ∧ ∀ err, ¬call.Got err
  | .get reply             => ∀ r ∈ reply, r.value = some id

def Owns (entry : Option (Data String)) (id : String) (sck : Lease) : Prop :=
  ∃ version, entry = some ⟨version, id⟩ ∧ sck.phase.Owns id sck.lockVersion version

namespace Owns

variable {entry : Option (Data String)} {kv kv' : KVServer String String}
  {call call' : Call Bool String String}

theorem start (h : sck.Owns entry id) (hi : sck.phase = .idle) :
    (sck.put id method).Owns entry id := by
  have ⟨version, he, ho⟩ := h
  rw [hi] at ho
  refine ⟨version, he, ?_⟩
  cases method
  case acquireLock => exact .inl ⟨ho, fun _ => Call.not_got_make _ _⟩
  case releaseLock => exact ⟨ho, fun _ => Call.not_got_make _ _⟩

-- The call of `Put` goes on without a request being executed.
theorem frame (h : sck.Owns entry id) (hp : sck.phase = .put method call)
    (hg : ∀ err, call'.Got err → call.Got err) :
    { sck with phase := .put method call' }.Owns entry id := by
  have ⟨version, he, ho⟩ := h
  rw [hp] at ho
  refine ⟨version, he, ?_⟩
  cases method
  case acquireLock => exact ho.imp_left fun ho => ⟨ho.left, fun err => mt (hg err) (ho.right err)⟩
  case releaseLock => exact ⟨ho.left, fun err => mt (hg err) (ho.right err)⟩

-- A request of the current call is executed.
theorem execute (h : sck.Owns (kv lockKey) id) (hp : sck.phase = .put method call)
    (ha : call.args = ⟨lockKey, method.value id, sck.lockVersion⟩)
    (hx : kv.put call.args.key call.args.value call.args.version = (kv', err)) :
    (method = .acquireLock ∧ kv' lockKey = some ⟨sck.lockVersion + 1, id⟩) ∨
    (method = .releaseLock ∧ kv lockKey = some ⟨sck.lockVersion, id⟩ ∧
      kv' lockKey = some ⟨sck.lockVersion + 1, lockAvailable⟩) := by
  obtain ⟨version, he, ho⟩ := h
  rw [hp] at ho
  rw [ha] at hx
  cases method
  case acquireLock =>
    refine .inl ⟨rfl, ?_⟩
    obtain ⟨_, _, hk⟩ | ⟨_, hv, hk⟩ := KVServer.put_cases hx
    case inl => exact hk
    case inr =>
      rw [KVServer.version, he] at hv
      have ho := ho.resolve_left fun ho => hv ho.left
      rw [hk, he, ho]
  case releaseLock =>
    obtain ⟨hv, _⟩ := ho
    subst hv
    refine .inr ⟨rfl, he, ?_⟩
    obtain ⟨_, _, hk⟩ | ⟨_, hv, hk⟩ := KVServer.put_cases hx
    case inl => exact hk
    case inr =>
      rw [KVServer.version, he] at hv
      exact absurd rfl hv

-- The call of `Put` returns, and so does `releaseLock` only if it has been executed.
theorem proceed (h : sck.Owns (kv lockKey) id) (hf : sck.Fresh kv id)
    (hp : sck.phase = .put method call) (hd : call.outcome = .done err) :
    method = .acquireLock ∧
    ({ sck with stale := call.args :: sck.stale }.proceed id err method).Owns (kv lockKey) id := by
  have ⟨version, he, ho⟩ := h
  have ⟨first, e, hg, herr, hr, _⟩ := hf.done hp hd
  rw [hp] at ho
  cases method
  case releaseLock => exact absurd hg (ho.right e)
  case acquireLock =>
    have ho := ho.resolve_left fun ho => ho.right e hg
    refine ⟨rfl, version, he, ?_⟩
    obtain rfl | rfl := hr
    case inl =>
      rw [herr, Clerk.err_ok]
      exact ho
    case inr =>
      -- In either case `Get` is called next.
      cases first <;> rw [herr] <;> exact fun _ h => nomatch h

end Owns
end Lease

namespace Leases

variable {ι : Type} {id : ι → String} {s s' : Leases ι} {e : Event ι} {p q : ι}

-- `acquireLock` learns from `Get` that the lock is the caller's own.
def Rediscovers (id : ι → String) (s : Leases ι) : Event ι → Prop
  | .resume p => (s.ctrler p).phase.Found (id p)
  | _         => False

instance : Decidable (s.Rediscovers id e) :=
  match e with
  | .resume p => inferInstanceAs <| Decidable <| (s.ctrler p).phase.Found (id p)
  | .call _ _ | .put _ _ | .proceed _ | .duplicate _ | .stale _ _ | .get _ | .lose _ | .other _ =>
    isFalse nofun

def Fresh (id : ι → String) (s : Leases ι) : Prop :=
  ∀ p, (s.ctrler p).Fresh s.kv (id p)

theorem Fresh.execute (h : s.Fresh id) (args : PutArgs String String) : (s.execute args).Fresh id :=
  fun q => (h q).mono <| KVServer.put_version_le rfl

namespace Fresh

variable [DecidableEq ι]

theorem set {sck : Lease} (h : s.Fresh id) (hp : sck.Fresh s.kv (id p)) :
    (s.set p sck).Fresh id := by
  intro q
  by_cases hq : q = p
  case pos => rwa [hq, set_ctrler_self]
  case neg =>
    rw [set_ctrler_of_ne hq]
    exact h q

theorem next (h : s.Fresh id) (hn : Stepped id s e s') (hr : ¬s.Rediscovers id e) :
    s'.Fresh id := by
  cases hn
  case call p method hp => exact h.set <| .start (h p).version (h p).stale
  case put p e method call call' kv hp hs =>
    have hp' := (h p).executed hp hs
    refine set (s := { s with kv }) (fun q => (h q).mono ?_) hp'
    obtain ⟨rfl, _⟩ | ⟨_, _, _, hx, _⟩ := hs.got
    · exact fun _ => le_rfl
    · exact KVServer.put_version_le hx
  case proceed p method call err hp hd => exact h.set <| (h p).proceed hp hd
  case duplicate => exact h.execute _
  case stale     => exact h.execute _
  case other     => exact h.execute _
  case get p reply hp =>
    refine h.set { version := (h p).version, put := by simp, get := ?_, stale := (h p).stale }
    rintro _ ⟨⟩
    rw [KVServer.get, KVServer.version]
    cases s.kv lockKey <;> exact le_rfl
  case lose p reply hp =>
    exact h.set { version := (h p).version, put := by simp, get := by simp, stale := (h p).stale }
  case resume p reply hp =>
    have hne : reply.value.getD "" ≠ id p := fun he => hr <| by rwa [Rediscovers, hp]
    have hv := (h p).get reply hp
    refine h.set ?_
    rw [acquireGet_eq, if_neg hne]
    split_ifs
    · exact .idle rfl (h p).version (h p).stale
    · exact .start hv (h p).stale
    · exact .idle rfl hv (h p).stale

end Fresh

-- Whose step it is.
def Event.ctrler : Event ι → Option ι
  | .call p _ | .put p _ | .proceed p | .duplicate p | .stale p _ | .get p | .lose p | .resume p =>
    some p
  | .other _ => none

def Releases (s : Leases ι) (p : ι) : Prop :=
  ∃ call, (s.ctrler p).phase = .put .releaseLock call

theorem not_releases (h : (s.ctrler p).phase.Acquires) : ¬s.Releases p := by
  rintro ⟨_, hr⟩
  rwa [hr] at h

theorem not_releases_of_ne {phase : Phase} (hp : (s.ctrler p).phase = phase)
    (hne : ∀ call, phase ≠ .put .releaseLock call) : ¬s.Releases p := by
  rintro ⟨call, hr⟩
  exact hne call (hp.symm.trans hr)

-- A request of the current call of `Put` is executed.
def Event.Executes (p : ι) : Event ι → Prop
  | .put q (.execute _) | .duplicate q => q = p
  | _                                  => False

-- Another controller changes the entry while it has the id of `p`.
def Overwrites (id : ι → String) (p : ι) (s : Leases ι) (e : Event ι) (s' : Leases ι) : Prop :=
  e.ctrler ≠ some p ∧ (s.kv lockKey).map Data.value = some (id p) ∧ s'.kv lockKey ≠ s.kv lockKey

instance [DecidableEq ι] : Decidable (Overwrites id p s e s') :=
  inferInstanceAs <| Decidable <| _ ∧ _ ∧ _

namespace Stepped

variable [DecidableEq ι]

theorem ctrler_eq (h : Stepped id s e s') (he : e.ctrler ≠ some p) : s'.ctrler p = s.ctrler p := by
  cases h
  case duplicate | stale | other => rfl
  all_goals exact set_ctrler_of_ne (fun h => he <| congrArg some h.symm) _ _

theorem called {method : Method} (h : Stepped id s (.call p method) s') :
    (s.ctrler p).phase = .idle ∧ ∃ sck : Lease, s'.ctrler p = sck.put (id p) method := by
  cases h
  case call hp => exact ⟨hp, _, set_ctrler_self ..⟩

-- If the call of `Put` has taken the lock, then it has done so before or by this step.
theorem wrote (h : Stepped id s e s') (hf : s.Fresh id) (hw : (s'.ctrler p).Wrote) :
    (s'.ctrler p).lockVersion = (s.ctrler p).lockVersion ∧
    ((s.ctrler p).Wrote ∨ ∃ k, e = .put p (.execute k) ∧
      s.kv.version lockKey = (s.ctrler p).lockVersion ∧
      s'.kv lockKey = some ⟨(s.ctrler p).lockVersion + 1, id p⟩) := by
  by_cases he : e.ctrler = some p
  case neg =>
    rw [h.ctrler_eq he] at hw ⊢
    exact ⟨rfl, .inl hw⟩
  case pos =>
    cases h <;> cases he <;> simp only [set_ctrler_self, execute_ctrler] at hw ⊢
    case call      => exact absurd hw not_wrote_put
    case proceed   => exact absurd hw not_wrote_proceed
    case resume    => exact absurd hw not_wrote_acquireGet
    case get       => cases hw.choose_spec.left
    case lose      => cases hw.choose_spec.left
    case duplicate => exact ⟨trivial, .inl hw⟩
    case stale     => exact ⟨trivial, .inl hw⟩
    case put e method call call' kv hs hp =>
      refine ⟨trivial, ?_⟩
      have ⟨call', hp', hg⟩ := hw
      cases hp'
      obtain ⟨_, hsub⟩ | ⟨k, err, rfl, hx, hsub⟩ := hs.got
      case inl => exact .inl ⟨call, hp, hsub _ hg⟩
      case inr =>
        cases hsub _ hg
        case inl hg => exact .inl ⟨call, hp, hg⟩
        case inr hok =>
          rw [((hf p).put _ _ hp).left] at hx
          obtain ⟨_, hv, hk⟩ | ⟨hne, _⟩ := KVServer.put_cases hx
          · exact .inr ⟨k, rfl, hv, hk⟩
          · exact absurd hok.symm hne

theorem returned (h : Stepped id s e s') (hf : s.Fresh id) (hr : ¬s.Rediscovers id e)
    (ha : (s.ctrler p).phase.Acquires) (hi : (s'.ctrler p).phase = .idle)
    (ht : (s'.ctrler p).returned = some (true, true)) :
    (s.ctrler p).Wrote ∧ (s'.ctrler p).lockVersion = (s.ctrler p).lockVersion + 1 := by
  have hne : (s.ctrler p).phase ≠ .idle := by
    intro hi
    rwa [hi] at ha
  by_cases he : e.ctrler = some p
  case neg => exact absurd (h.ctrler_eq he ▸ hi) hne
  case pos =>
    cases h <;> cases he <;> simp only [set_ctrler_self, execute_ctrler] at hi ht ⊢
    case call hp       => exact absurd hp hne
    case put           => cases hi
    case get           => cases hi
    case lose          => cases hi
    case duplicate     => exact absurd hi hne
    case stale         => exact absurd hi hne
    case resume reply hp =>
      exact absurd ht <| acquireGet_returned (fun he => hr <| by rwa [Rediscovers, hp]) hi
    case proceed method call err hd hp =>
      cases method
      case releaseLock =>
        rw [hp] at ha
        exact ha.elim
      case acquireLock =>
        have ⟨hok, hv⟩ := proceed_returned hi
        have ⟨_, e, hg, herr, _⟩ := (hf p).done hp hd
        have he : e = .ok := Clerk.err_eq_ok.mp <| herr.symm.trans hok
        exact ⟨⟨call, hp, he ▸ hg⟩, hv⟩

-- The entry stays the caller's until `releaseLock` is executed.
theorem owns (h : Stepped id s e s') (hf : s.Fresh id) (hr : ¬s.Rediscovers id e)
    (hw : ¬Overwrites id p s e s') (ho : (s.ctrler p).Owns (s.kv lockKey) (id p)) :
    ((s'.ctrler p).Owns (s'.kv lockKey) (id p) ∧ (s.Releases p → s'.Releases p ∧ e ≠ .proceed p)) ∨
    (s.Releases p ∧ e.Executes p ∧ s.kv lockKey = some ⟨(s.ctrler p).lockVersion, id p⟩ ∧
      s'.kv lockKey = some ⟨(s.ctrler p).lockVersion + 1, lockAvailable⟩) := by
  by_cases he : e.ctrler = some p
  case neg =>
    have hk : s'.kv lockKey = s.kv lockKey := by
      by_contra hk
      have ⟨version, hv, _⟩ := ho
      exact hw ⟨he, by rw [hv]; rfl, hk⟩
    rw [Releases, Releases, h.ctrler_eq he, hk]
    exact .inl ⟨ho, fun hrel => ⟨hrel, fun hp => he <| hp ▸ rfl⟩⟩
  case pos =>
    cases h <;> cases he
    case call method hp =>
      refine .inl ⟨?_, (absurd · (not_releases_of_ne hp nofun))⟩
      simp only [set_ctrler_self]
      have ho : { s.ctrler p with returned := none }.Owns (s.kv lockKey) (id p) := ho
      exact ho.start hp
    case get reply hp =>
      refine .inl ⟨?_, (absurd · (not_releases_of_ne hp nofun))⟩
      have ⟨version, hv, _⟩ := ho
      simp only [set_ctrler_self]
      refine ⟨version, hv, ?_⟩
      rintro _ ⟨⟩
      rw [KVServer.get, hv]
      rfl
    case lose reply hp =>
      refine .inl ⟨?_, (absurd · (not_releases_of_ne hp nofun))⟩
      have ⟨version, hv, _⟩ := ho
      simp only [set_ctrler_self]
      exact ⟨version, hv, nofun⟩
    case resume reply hp =>
      have ⟨version, hv, hget⟩ := ho
      rw [hp] at hget
      refine absurd ?_ hr
      rw [Rediscovers, hp, Phase.Found, hget reply rfl]
      rfl
    case stale k args ha =>
      have ⟨hkey, hv⟩ := (hf p).stale args ha
      have hk : (s.execute args).kv lockKey = s.kv lockKey := by
        obtain ⟨_, hv', _⟩ | ⟨_, _, hk⟩ := KVServer.put_cases (rfl : s.kv.put args.key _ _ = _)
        · exact absurd (hkey ▸ hv') hv.ne'
        · exact hkey ▸ hk
      refine .inl ⟨?_, fun hrel => ⟨hrel, nofun⟩⟩
      rw [hk]
      exact ho
    case proceed method call err hd hp =>
      obtain ⟨rfl, ho⟩ := ho.proceed (hf p) hp hd
      refine .inl ⟨?_, (absurd · (not_releases_of_ne hp nofun))⟩
      simp only [set_ctrler_self]
      exact ho
    case duplicate method call hp =>
      obtain ⟨rfl, hk⟩ | ⟨rfl, hk, hk'⟩ := ho.execute hp ((hf p).put _ _ hp).left rfl
      case inr => exact .inr ⟨⟨call, hp⟩, rfl, hk, hk'⟩
      case inl =>
        refine .inl ⟨⟨_, hk, ?_⟩, (absurd · (not_releases_of_ne hp nofun))⟩
        change (s.ctrler p).phase.Owns _ _ _
        rw [hp]
        exact .inr rfl
    case put e method call call' kv hs hp =>
      obtain ⟨rfl, hsub⟩ | ⟨k, err, rfl, hx, _⟩ := hs.got
      case inl =>
        refine .inl ⟨?_, fun ⟨call, hrel⟩ => ⟨?_, nofun⟩⟩
        · simp only [set_ctrler_self]
          exact ho.frame hp hsub
        · cases hp.symm.trans hrel
          exact ⟨call', by simp only [set_ctrler_self]⟩
      case inr =>
        obtain ⟨rfl, hk⟩ | ⟨rfl, hk, hk'⟩ := ho.execute hp ((hf p).put _ _ hp).left hx
        case inr => exact .inr ⟨⟨call, hp⟩, rfl, hk, hk'⟩
        case inl =>
          refine .inl ⟨⟨_, hk, ?_⟩, (absurd · (not_releases_of_ne hp nofun))⟩
          simp only [set_ctrler_self]
          exact .inr rfl

theorem releases (h : Stepped id s e s') (he : e ≠ .call p .releaseLock) (hr : s'.Releases p) :
    s.Releases p := by
  by_cases hp : e.ctrler = some p
  case neg => rwa [Releases, h.ctrler_eq hp] at hr
  case pos =>
    have ⟨call', hr'⟩ := hr
    cases h <;> cases hp <;> simp only [set_ctrler_self, execute_ctrler] at hr'
    case call method hp =>
      cases method
      case acquireLock => cases hr'
      case releaseLock => exact absurd rfl he
    case put e method call call' kv hs hp =>
      cases hr'
      exact ⟨call, hp⟩
    case proceed method call err hd hp =>
      cases method
      case releaseLock => exact ⟨call, hp⟩
      case acquireLock => cases err <;> cases hr'
    case duplicate => exact hr
    case stale     => exact hr
    case get       => cases hr'
    case lose      => cases hr'
    case resume    =>
      rw [acquireGet_eq] at hr'
      split_ifs at hr' <;> cases hr'

end Stepped

section Runs

variable [DecidableEq ι] {b : (leases id).Behavior}

theorem fresh (hr : b.Avoids (Rediscovers id)) : ∀ i, (b.state i).Fresh id :=
  b.invariant (fun _ => .idle rfl le_rfl nofun) fun i e _ hl hn h =>
    h.next (next_stepped hn) (hr i e hl)

-- A call of `Put` that has taken the lock has done so at some moment, and `lockVersion` has not
-- changed since then.
theorem exists_write (hf : ∀ i, (b.state i).Fresh id) {i j : Nat} (hij : i ≤ j)
    (hi : ¬((b.state i).ctrler p).Wrote) (hj : ((b.state j).ctrler p).Wrote) :
    ∃ k a, i ≤ k ∧ k < j ∧ b.label k = some (.put p (.execute a)) ∧
      ((b.state (k + 1)).ctrler p).Wrote ∧
      (b.state k).kv.version lockKey = ((b.state j).ctrler p).lockVersion ∧
      (b.state (k + 1)).kv lockKey = some ⟨((b.state j).ctrler p).lockVersion + 1, id p⟩ ∧
      ((b.state (k + 1)).ctrler p).lockVersion = ((b.state j).ctrler p).lockVersion := by
  have ⟨k, hik, hkj, hk, hw⟩ :=
    System.Behavior.exists_since (P := fun n => ((b.state n).ctrler p).Wrote) hij hi hj
  have hv n (hn : k < n) : n ≤ j →
      ((b.state n).ctrler p).lockVersion = ((b.state (k + 1)).ctrler p).lockVersion := by
    induction hn
    case refl => exact fun _ => rfl
    case step n hn hind =>
      intro hnj
      refine .trans ?_ (hind (Nat.le_of_succ_le hnj))
      cases b.step_cases n
      case inl he => rw [he]
      case inr he =>
        have ⟨e, _, hs⟩ := he
        exact ((next_stepped hs).wrote (hf n) (hw _ (Nat.lt_succ_of_lt hn) hnj)).left
  have hwk := hw (k + 1) (Nat.lt_succ_self k) hkj
  cases b.step_cases k
  case inl he => exact absurd (he ▸ hwk) hk
  case inr he =>
    have ⟨e, hl, hs⟩ := he
    have ⟨hvk, hx⟩ := (next_stepped hs).wrote (hf k) hwk
    obtain ⟨a, rfl, hver, hent⟩ := hx.resolve_left hk
    rw [←hvk, ←hv j hkj le_rfl] at hver hent
    exact ⟨k, a, hik, hkj, hl, hwk, hver, hent, (hv j hkj le_rfl).symm⟩

-- The entry stays the caller's while nobody writes over it and `releaseLock` is not called.
theorem owns_of_le (hf : ∀ i, (b.state i).Fresh id) (hr : b.Avoids (Rediscovers id)) {k l : Nat}
    (hkl : k ≤ l) (ho : ((b.state k).ctrler p).Owns ((b.state k).kv lockKey) (id p))
    (hrel : ∀ n, k ≤ n → n < l → ¬(b.state n).Releases p)
    (hw : ∀ n e, k ≤ n → n < l → b.label n = some e →
      ¬Overwrites id p (b.state n) e (b.state (n + 1))) :
    ((b.state l).ctrler p).Owns ((b.state l).kv lockKey) (id p) := by
  induction hkl
  case refl => exact ho
  case step l hkl hind =>
    have ho := hind (fun n h₁ h₂ => hrel n h₁ (Nat.lt_succ_of_lt h₂))
      fun n e h₁ h₂ => hw n e h₁ (Nat.lt_succ_of_lt h₂)
    cases b.step_cases l
    case inl he => rwa [Nat.succ_eq_add_one, he]
    case inr he =>
      have ⟨e, hl, hs⟩ := he
      cases (next_stepped hs).owns (hf l) (hr l e hl) (hw l e hkl (Nat.lt_succ_self l) hl) ho
      case inl h => exact h.left
      case inr h => exact absurd h.left (hrel l hkl (Nat.lt_succ_self l))

theorem not_releases_of_le {j l : Nat} (hjl : j ≤ l) (hj : ¬(b.state j).Releases p)
    (hnone : ∀ n, j ≤ n → n < l → b.label n ≠ some (.call p .releaseLock)) :
    ¬(b.state l).Releases p := by
  induction hjl
  case refl => exact hj
  case step l hjl hind =>
    have hl := hind fun n h₁ h₂ => hnone n h₁ (Nat.lt_succ_of_lt h₂)
    cases b.step_cases l
    case inl he => rwa [Nat.succ_eq_add_one, he]
    case inr he =>
      have ⟨e, hlabel, hs⟩ := he
      refine fun hrel => hl <| (next_stepped hs).releases ?_ hrel
      rintro rfl
      exact hnone l hjl (Nat.lt_succ_self l) hlabel

theorem release_stores (hf : ∀ i, (b.state i).Fresh id) (hr : b.Avoids (Rediscovers id)) {l m : Nat}
    (hlm : l < m) (ho : ((b.state l).ctrler p).Owns ((b.state l).kv lockKey) (id p))
    (hcall : b.label l = some (.call p .releaseLock)) (hret : b.label m = some (.proceed p))
    (hw : ∀ n e, l < n → n < m → b.label n = some e →
      ¬Overwrites id p (b.state n) e (b.state (n + 1))) :
    ∃ n e, l < n ∧ n < m ∧ (∀ o, l < o → o ≤ n → (b.state o).Releases p) ∧
      b.label n = some e ∧ e.Executes p ∧ ∃ version,
        (b.state n).kv lockKey = some ⟨version, id p⟩ ∧
        (b.state (n + 1)).kv lockKey = some ⟨version + 1, lockAvailable⟩ := by
  by_contra hne
  have own {n : Nat} {e : Event ι} (he : e.ctrler = some p) :
      ¬Overwrites id p (b.state n) e (b.state (n + 1)) :=
    fun h => h.left he
  -- As long as it has not been executed, the call of `releaseLock` goes on.
  have hpending n (hn : l < n) : n ≤ m →
      ((b.state n).ctrler p).Owns ((b.state n).kv lockKey) (id p) ∧
      ∀ o, l < o → o ≤ n → (b.state o).Releases p := by
    induction hn
    case refl =>
      intro _
      have hs := next_stepped <| b.next_of_label hcall
      have ⟨hidle, sck, hc⟩ := hs.called
      have hrel : (b.state (l + 1)).Releases p := ⟨_, congrArg _ hc⟩
      cases hs.owns (hf l) (hr l _ hcall) (own rfl) ho
      case inr h =>
        have ⟨_, h⟩ := h.left
        cases hidle.symm.trans h
      case inl h =>
        refine ⟨h.left, fun o h₁ h₂ => ?_⟩
        rwa [Nat.le_antisymm h₂ h₁]
    case step n hn hind =>
      intro hnm
      have ⟨ho, hrel⟩ := hind (Nat.le_of_succ_le hnm)
      have hrel' (h : (b.state (n + 1)).Releases p) o (h₁ : l < o) (h₂ : o ≤ n + 1) :
          (b.state o).Releases p := by
        obtain h₂ | rfl := Nat.le_succ_iff.mp h₂
        · exact hrel o h₁ h₂
        · exact h
      cases b.step_cases n
      case inl he =>
        rw [Nat.succ_eq_add_one]
        exact ⟨by rwa [he], hrel' (he ▸ hrel n hn le_rfl)⟩
      case inr he =>
        have ⟨e, hl, hs⟩ := he
        cases (next_stepped hs).owns (hf n) (hr n e hl) (hw n e hn hnm hl) ho
        case inl h => exact ⟨h.left, hrel' (h.right (hrel n hn le_rfl)).left⟩
        case inr h => exact absurd ⟨n, e, hn, hnm, hrel, hl, h.right.left, _, h.right.right⟩ hne
  have ⟨ho, hrel⟩ := hpending m hlm le_rfl
  cases (next_stepped <| b.next_of_label hret).owns (hf m) (hr m _ hret) (own rfl) ho
  case inl h => exact (h.right (hrel m hlm le_rfl)).right rfl
  case inr h => exact h.right.left

theorem acquireLock_exact (hr : b.Avoids (Rediscovers id)) {i j : Nat} (hij : i < j)
    (hcall : b.label i = some (.call p .acquireLock))
    (hin : ∀ n, i < n → n ≤ j → ((b.state n).ctrler p).phase.Acquires)
    (hidle : ((b.state (j + 1)).ctrler p).phase = .idle)
    (hret : ((b.state (j + 1)).ctrler p).returned = some (true, true)) :
    ∃ k a version, i < k ∧ k < j ∧ b.label k = some (.put p (.execute a)) ∧
      (b.state k).kv.version lockKey = version ∧
      (b.state (k + 1)).kv lockKey = some ⟨version + 1, id p⟩ ∧
      ((b.state (j + 1)).ctrler p).lockVersion = version + 1 ∧
      ∀ l m, j < l → l < m → b.label l = some (.call p .releaseLock) →
      b.label m = some (.proceed p) →
        (∀ n, j < n → n < l → b.label n ≠ some (.call p .releaseLock)) →
        (∀ n e, k < n → n < m → b.label n = some e →
          ¬Overwrites id p (b.state n) e (b.state (n + 1))) →
        ∃ n e, l < n ∧ n < m ∧ (∀ o, l < o → o ≤ n → (b.state o).Releases p) ∧
          b.label n = some e ∧ e.Executes p ∧ ∃ version,
            (b.state n).kv lockKey = some ⟨version, id p⟩ ∧
            (b.state (n + 1)).kv lockKey = some ⟨version + 1, lockAvailable⟩ := by
  have hf := fresh hr
  have ⟨hwj, hvj⟩ : ((b.state j).ctrler p).Wrote ∧
      ((b.state (j + 1)).ctrler p).lockVersion = ((b.state j).ctrler p).lockVersion + 1 := by
    have ha := hin j hij le_rfl
    cases b.step_cases j
    case inl he =>
      rw [he] at hidle
      rw [hidle] at ha
      exact ha.elim
    case inr he =>
      have ⟨e, hl, hs⟩ := he
      exact (next_stepped hs).returned (hf j) (hr j e hl) ha hidle hret
  have hwi : ¬((b.state (i + 1)).ctrler p).Wrote := by
    have ⟨_, sck, hc⟩ := (next_stepped <| b.next_of_label hcall).called
    exact hc ▸ not_wrote_put
  have ⟨k, a, hik, hkj, hl, hwk, hver, hent, hvk⟩ := exists_write hf hij hwi hwj
  refine ⟨k, a, _, hik, hkj, hl, hver, hent, hvj, fun l m hjl hlm hcall' hret' hnone hover => ?_⟩
  have ho : ((b.state (k + 1)).ctrler p).Owns ((b.state (k + 1)).kv lockKey) (id p) := by
    have ⟨call, hp, _⟩ := hwk
    refine ⟨_, hent, ?_⟩
    rw [hp, hvk]
    exact .inr rfl
  have hrel n (hkn : k < n) (hnl : n < l) : ¬(b.state n).Releases p := by
    by_cases hnj : n ≤ j
    case pos => exact not_releases <| hin n (Nat.lt_of_le_of_lt (Nat.le_of_succ_le hik) hkn) hnj
    case neg =>
      have hj : ¬(b.state (j + 1)).Releases p := fun ⟨_, hp⟩ => nomatch hidle.symm.trans hp
      exact not_releases_of_le (Nat.lt_of_not_le hnj) hj fun o h₁ h₂ => hnone o h₁ (h₂.trans hnl)
  have ho := owns_of_le hf hr (hkj.trans hjl) ho hrel fun n e h₁ h₂ => hover n e h₁ (h₂.trans hlm)
  exact release_stores hf hr hlm ho hcall' hret' fun n e h₁ h₂ =>
    hover n e ((hkj.trans hjl).trans h₁) h₂

end Runs

def ctrlerId : Bool → String
  | true  => "x"
  | false => "y"

-- The lock is taken, renewed by a request that had to be sent twice, and released. The other
-- controller gets to know that it has to wait.
def renewal : List (Event Bool) :=
  .flatten [
    [.call true .acquireLock, .put true (.execute 0), .put true (.respond ()), .proceed true],
    [.call false .acquireLock, .put false (.execute 0), .put false (.respond ()), .proceed false,
      .get false, .resume false],
    [.call true .acquireLock, .put true (.lose ()), .put true (.execute 1), .put true (.respond ()),
      .proceed true],
    [.call true .releaseLock, .put true (.execute 0), .put true (.respond ()), .proceed true]]

theorem acquireLock_exact_renewal :
    ∃ b : (leases ctrlerId).Behavior,
      ((b.state 4).ctrler true).lockVersion = 1 ∧ ((b.state 15).ctrler true).lockVersion = 2 ∧
      ((b.state 10).ctrler false).returned = some (false, true) ∧
      (∃ k, 10 < k ∧ k < 14 ∧ (b.state (k + 1)).kv lockKey = some ⟨2, "x"⟩) ∧
      (∃ n version, 15 < n ∧ n < 18 ∧
        (b.state (n + 1)).kv lockKey = some ⟨version, lockAvailable⟩) := by
  let b : (leases ctrlerId).Behavior := .ofActions _ renewal (by decide)
  have hr : b.Avoids (Rediscovers ctrlerId) := System.Behavior.avoids_ofActions (by decide +kernel)
  have hin : ∀ n : Fin 15, 10 < n.val → ((b.state n).ctrler true).phase.Acquires := by
    decide +kernel
  have hover : ∀ n : Fin renewal.length, ¬Overwrites ctrlerId true (b.state n) (renewal.get n)
      (b.state (n + 1)) := by
    decide +kernel
  have ⟨k, _, version, h₁, h₂, _, _, hent, hv, hrel⟩ :=
    acquireLock_exact hr (show 10 < 14 by decide) rfl
      (fun n h₁ h₂ => hin ⟨n, Nat.lt_succ_of_le h₂⟩ h₁)
      rfl rfl
  have ⟨n, _, h₃, h₄, _, _, _, _, _, hn⟩ :=
    hrel 15 18 (by decide) (by decide) rfl rfl
      (fun n h₁ h₂ => absurd h₁ (Nat.not_lt.mpr <| Nat.le_of_lt_succ h₂))
      fun n e _ hn hl => by
        have ⟨hn, hx⟩ := List.getElem?_eq_some_iff.mp hl
        exact hx ▸ hover ⟨n, hn⟩
  have hv : 2 = version + 1 := hv
  exact ⟨b, rfl, rfl, rfl, ⟨k, h₁, h₂, hv ▸ hent⟩, n, _, h₃, h₄, hn⟩

-- The reply to the first request is lost, so that `acquireLock` has to ask for the state. Each of
-- its later calls is off by one.
def lapse : List (Event Bool) :=
  .flatten [
    [.call true .acquireLock, .put true (.execute 0), .put true (.lose ()), .put true (.execute 1),
      .put true (.respond ()), .proceed true, .get true, .resume true],
    [.call true .acquireLock, .put true (.execute 0), .put true (.respond ()), .proceed true,
      .get true, .resume true],
    [.call true .releaseLock, .put true (.execute 0), .put true (.respond ()), .proceed true]]

theorem acquireLock_lapse :
    ∃ b : (leases ctrlerId).Behavior,
      b.label 8 = some (.call true .acquireLock) ∧
      (∀ n, 8 < n → n ≤ 13 → ((b.state n).ctrler true).phase.Acquires) ∧
      ((b.state 14).ctrler true).phase = .idle ∧
      ((b.state 14).ctrler true).returned = some (true, true) ∧
      ((b.state 14).ctrler true).lockVersion = 2 ∧
      b.label 14 = some (.call true .releaseLock) ∧ b.label 17 = some (.proceed true) ∧
      (∀ n e, b.label n = some e → e.ctrler = some true) ∧
      ∀ n, 1 < n → (b.state n).kv lockKey = some ⟨1, "x"⟩ := by
  let b : (leases ctrlerId).Behavior := .ofActions _ lapse (by decide)
  have hin : ∀ n : Fin 14, 8 < n.val → ((b.state n).ctrler true).phase.Acquires := by decide +kernel
  have hent : ∀ n : Fin 19, 1 < n.val → (b.state n).kv lockKey = some ⟨1, "x"⟩ := by decide +kernel
  have hown : ∀ e ∈ lapse, e.ctrler = some true := by decide +kernel
  refine ⟨b, rfl, fun n h₁ h₂ => hin ⟨n, Nat.lt_succ_of_le h₂⟩ h₁, rfl, rfl, rfl, rfl, rfl,
    fun n e hl => hown e (List.mem_of_getElem? hl), fun n h => ?_⟩
  by_cases hn : n < 19
  case pos => exact hent ⟨n, hn⟩ h
  case neg =>
    rw [System.Behavior.state_ofActions_of_le (show lapse.length ≤ n by simp [lapse]; omega)]
    exact hent (.last _) (by decide)

end Leases
