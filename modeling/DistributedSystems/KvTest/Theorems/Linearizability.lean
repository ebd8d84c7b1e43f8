import DistributedSystems.Clerk.Theorems.Get
import DistributedSystems.KvTest.Basic

namespace KvSrv.KVServer

variable {K V : Type} [DecidableEq K] {kv kv' : KVServer K V} {key : K} {value : V} {version : Nat}
  {err : Err}

-- What has been overtaken does not change anything any more.
theorem put_of_lt (h : version < kv.version key) :
    kv.put key value version = (kv, .errVersion) := by
  rw [KVServer.version] at h
  obtain ⟨hv, _⟩ | ⟨_, _, he⟩ | ⟨_, hn, _⟩ := KvSrv.put_cases (kv key) value version
  · omega
  · simp [KVServer.put, he]
  · simp [hn] at h

theorem put_of_le (hv : version ≤ kv.version key) (h : kv.put key value version = (kv', err)) :
    (err = .ok ∨ err = .errVersion) ∧ version < kv'.version key := by
  rcases Nat.lt_or_eq_of_le hv with hv | hv
  · obtain ⟨rfl, rfl⟩ := Prod.mk.inj ((put_of_lt hv).symm.trans h)
    exact ⟨.inr rfl, hv⟩
  · rcases put_cases h with ⟨rfl, _, hk⟩ | ⟨_, hne, _⟩
    · refine ⟨.inl rfl, ?_⟩
      rw [KVServer.version, hk]
      exact Nat.lt_succ_self version
    · exact absurd hv.symm hne

omit [DecidableEq K] in
theorem get_version : (kv.get key).version = kv.version key := by
  rw [KVServer.get, KVServer.version]
  cases kv key <;> rfl

end KvSrv.KVServer

namespace KvTest

open KvSrv Linearizability

section Store

variable {K V : Type} [DecidableEq V]

-- An entry of the map as the clients should see it, with the versions and all errors.
def store : Model (Option (Data V)) (KvInput K V) (KvOutput V) where
  init := none
  step
    | entry, .get _, out               => (out = KvSrv.get entry, entry)
    | entry, .put _ value version, out =>
      let (entry', err) := KvSrv.put entry value version
      (out.err = err ∨ out.err = .errMaybe ∧ err ≠ .errNoKey, entry')

-- A service with all of its keys.
def stores (K V : Type) [DecidableEq K] [DecidableEq V] :
    Model (KVServer K V) (KvInput K V) (KvOutput V) :=
  store.each KvInput.key

variable [DecidableEq K] {kv kv' : KVServer K V} {key : K} {value : V} {version : Nat} {err : Err}

theorem stores_get : (stores K V).step kv (.get key) (kv.get key) = (true, kv) := by
  simp [stores, Model.each, store, KvInput.key, KVServer.get]

theorem stores_put {out : KvOutput V} (h : kv.put key value version = (kv', err))
    (ho : out.err = err ∨ out.err = .errMaybe ∧ err ≠ .errNoKey) :
    (stores K V).step kv (.put key value version) out = (true, kv') := by
  simp only [KVServer.put, Prod.mk.injEq] at h
  obtain ⟨rfl, rfl⟩ := h
  simpa [stores, Model.each, store, KvInput.key] using ho

-- What the model of the tester knows about an entry.
def KvState.of : Option (Data String) → KvState
  | none      => ⟨"", 0⟩
  | some data => ⟨data.value, data.version⟩

theorem kvModel_step {entry entry' : Option (Data String)} {input : KvInput String String}
    {out : KvOutput String}
    (hn : ∀ key value version, input = .put key value version → out.err ≠ .errNoKey)
    (h : store.step entry input out = (true, entry')) :
    kvModel.step (.of entry) input out = (true, .of entry') := by
  cases input
  case get key =>
    simp only [store, Prod.mk.injEq, decide_eq_true_eq] at h
    obtain ⟨rfl, rfl⟩ := h
    cases entry <;> simp [kvModel, KvState.of, KvSrv.get]
  case put key value version =>
    have hn := hn key value version rfl
    have hv : (KvState.of entry).version = entry.elim 0 Data.version := by cases entry <;> rfl
    simp only [store, Prod.mk.injEq, decide_eq_true_eq] at h
    simp only [kvModel]
    obtain ⟨hv', he⟩ | ⟨hv', _, he⟩ | ⟨_, _, he⟩ := put_cases entry value version <;>
      rw [he] at h <;> obtain ⟨ho, rfl⟩ := h
    · rw [if_pos (hv.trans hv'), hv.trans hv']
      simpa [KvState.of] using ho
    · rw [if_neg (hv ▸ hv')]
      simpa using ho
    · simp [hn] at ho

end Store

-- A log that the store explains passes the check.
theorem legal_of_linearizable {oplog : List (KvOperation String String)}
    (h : Linearizable (stores String String) oplog)
    (hn : ∀ op ∈ oplog, ∀ key value version, op.input = .put key value version →
      op.output.err ≠ .errNoKey) :
    Legal oplog := by
  intro ops ho
  obtain ⟨key, -, rfl⟩ := List.mem_map.mp ho
  refine (h.filter key).map KvState.of rfl fun op hm s s' hs => kvModel_step ?_ hs
  exact hn op (List.mem_of_mem_filter hm)

-- The clerks understand the same refusals as the service.
structure Clerks.Sound {κ σ ι : Type} (C : Clerks κ σ ι) (refusals : List Err)
    (isFirstTry : σ → Bool) :
    Prop where
  get : ∀ ck, (C.get ck).Reading ∧ (C.get ck).refusals = refusals
  put : ∀ ck, (C.put ck).Careful isFirstTry ∧ (C.put ck).refusals = refusals

section Tracks

variable {P κ σ ι K V : Type} {isFirstTry : σ → Bool} {srv srv' : KvServer K V}
  {op op' : Op κ σ K V} {key : K} {value : V} {version n : Nat}
    {effect : Option (KVServer K V × KVServer K V)}

-- A `Get` takes effect when its last request is executed.
structure Reads (srv : KvServer K V) (op : Op κ σ K V) (key : K)
    (effect : Option (KVServer K V × KVServer K V)) : Prop where
  same     : ∀ e ∈ effect, e.fst = e.snd ∧ e.fst.version key ≤ srv.kv.version key
  last     : ∀ k reply, op.requests.getLast? = some k → srv.replies k = some reply →
    ∃ kv, effect = some (kv, kv) ∧ reply = kv.get key
  returned : ∀ out, op.phase = .returned out →
    ∃ k, op.requests.getLast? = some k ∧ srv.replies k = some out

variable [DecidableEq K]

-- A `Put` takes effect when the first of its requests is executed. After that, all others come too
-- late.
structure Writes (isFirstTry : σ → Bool) (srv : KvServer K V) (op : Op κ σ K V) (key : K)
    (value : V) (version : Nat) (effect : Option (KVServer K V × KVServer K V)) : Prop where
  before   : effect = none → version ≤ srv.kv.version key ∧ ∀ k ∈ op.requests, srv.replies k = none
  after    : ∀ kv kv', effect = some (kv, kv') → version < srv.kv.version key ∧
    ∃ err, kv.put key value version = (kv', err) ∧ (err = .ok ∨ err = .errVersion) ∧
      (err = .ok → ∃ k ∈ op.requests, srv.replies k = some ⟨none, 0, .ok⟩) ∧
      ∀ k ∈ op.requests, ∀ reply, srv.replies k = some reply →
        reply = ⟨none, 0, .errVersion⟩ ∨ err = .ok ∧ reply = ⟨none, 0, .ok⟩
  first    : ∀ s, op.phase = .waiting s → isFirstTry s → op.requests.length ≤ 1
  returned : ∀ out, op.phase = .returned out → ∃ k first err, op.requests.getLast? = some k ∧
    srv.replies k = some ⟨none, 0, err⟩ ∧ out = ⟨none, 0, Clerk.err first err⟩ ∧
    (first → op.requests.length ≤ 1)

structure Tracks (isFirstTry : σ → Bool) (srv : KvServer K V) (op : Op κ σ K V)
    (inv : Invocation (KVServer K V) (KvInput K V)) : Prop where
  input : inv.input = op.input
  call  : inv.call = op.start
  get   : ∀ key, op.input = .get key → Reads srv op key inv.effect
  put   : ∀ key value version, op.input = .put key value version →
    Writes isFirstTry srv op key value version inv.effect

-- What the server does for others.
theorem Tracks.mono {inv : Invocation (KVServer K V) (KvInput K V)}
    (h : Tracks isFirstTry srv op inv) (hr : ∀ k ∈ op.requests, srv'.replies k = srv.replies k)
    (hv : ∀ key, srv.kv.version key ≤ srv'.kv.version key) : Tracks isFirstTry srv' op inv where
  input := h.input
  call  := h.call
  get key hi := by
    have h := h.get key hi
    refine ⟨fun e he => ⟨(h.same e he).left, (h.same e he).right.trans (hv key)⟩,
      fun k r hk hs => ?_, fun out ho => ?_⟩
    · exact h.last k r hk (hr k (List.mem_of_getLast? hk) ▸ hs)
    · have ⟨k, hk, hs⟩ := h.returned out ho
      exact ⟨k, hk, (hr k (List.mem_of_getLast? hk)).trans hs⟩
  put key value version hi := by
    have h := h.put key value version hi
    refine ⟨fun he => ?_, fun kv kv' he => ?_, h.first, fun out ho => ?_⟩
    · have ⟨hle, hn⟩ := h.before he
      exact ⟨hle.trans (hv key), fun k hk => (hr k hk).trans (hn k hk)⟩
    · have ⟨hlt, err, hp, he, hok, hall⟩ := h.after kv kv' he
      refine ⟨hlt.trans_le (hv key), err, hp, he, fun ho => ?_, fun k hk reply hs => ?_⟩
      · have ⟨k, hk, hs⟩ := hok ho
        exact ⟨k, hk, (hr k hk).trans hs⟩
      · exact hall k hk reply (hr k hk ▸ hs)
    · have ⟨k, first, err, hk, hs, ho⟩ := h.returned out ho
      exact ⟨k, first, err, hk, (hr k (List.mem_of_getLast? hk)).trans hs, ho⟩

theorem Tracks.panic {inv : Invocation (KVServer K V) (KvInput K V)}
    (h : Tracks isFirstTry srv op inv) :
    Tracks isFirstTry srv { op with phase := .panicked } inv where
  input := h.input
  call  := h.call
  get key hi               := ⟨(h.get key hi).same, (h.get key hi).last, nofun⟩
  put key value version hi := by
    have h := h.put key value version hi
    exact ⟨h.before, h.after, nofun, nofun⟩

theorem Tracks.resend {inv : Invocation (KVServer K V) (KvInput K V)}
    (h : Tracks isFirstTry srv op inv) (hn : srv.replies n = none) {s : σ}
    (hs : ∀ key value version, op.input = .put key value version → isFirstTry s →
      op.requests = []) :
    Tracks isFirstTry srv { op with requests := op.requests ++ [n], phase := .waiting s } inv where
  input := h.input
  call  := h.call
  get key hi := by
    refine ⟨(h.get key hi).same, fun k reply hk hr => ?_, nofun⟩
    obtain rfl : n = k := by simpa using hk
    simp [hn] at hr
  put key value version hi := by
    have h := h.put key value version hi
    refine ⟨fun he => ⟨(h.before he).left, ?_⟩, fun kv kv' he => ?_, ?_, nofun⟩
    · exact List.forall_mem_append.mpr ⟨(h.before he).right, by simpa using hn⟩
    · have ⟨hlt, err, hp, he, hok, hall⟩ := h.after kv kv' he
      refine ⟨hlt, err, hp, he, fun ho => ?_, ?_⟩
      · have ⟨k, hk, hs⟩ := hok ho
        exact ⟨k, List.mem_append_left _ hk, hs⟩
      · exact List.forall_mem_append.mpr ⟨hall, by simp [hn]⟩
    · rintro s' ⟨⟩ hf
      simp [hs key value version hi hf]

-- A new call.
theorem Tracks.make (clerk : κ) (start : Nat) {input : KvInput K V}
    (hv : ∀ key value version, input = .put key value version → version ≤ srv.kv.version key) :
    Tracks isFirstTry srv (⟨clerk, input, start, [], .panicked⟩ : Op κ σ K V)
      ⟨input, start, none⟩ where
  input := rfl
  call  := rfl
  get _ _                  := ⟨nofun, nofun, nofun⟩
  put key value version hi := ⟨fun _ => ⟨hv key value version hi, nofun⟩, nofun, nofun, nofun⟩

variable {C : Clerks κ σ ι} {refusals : List Err}

theorem Tracks.start {inv : Invocation (KVServer K V) (KvInput K V)}
    (hC : C.Sound refusals isFirstTry) (h : Tracks isFirstTry srv op inv) (hr : op.requests = [])
    (hn : srv.replies n = none) :
    Tracks isFirstTry srv (op.follow n Test.noReply (op.clerkOf C).start).fst inv := by
  cases ho : (op.clerkOf C).start
  case call s   => exact h.resend hn fun _ _ _ _ _ => hr
  case panic    => exact h.panic
  case done err =>
    rw [Op.clerkOf] at ho
    split at ho
    case h_1 => exact absurd ho ((hC.get _).left.start err)
    case h_2 => exact absurd ho ((hC.put _).left.start err)

variable [DecidableEq V]

-- The clerk goes on, with an answer to its last request or without one.
theorem Tracks.proceed {inv : Invocation (KVServer K V) (KvInput K V)}
    (hC : C.Sound refusals isFirstTry) (h : Tracks isFirstTry srv op inv)
    (hn : srv.replies n = none) {s : σ} (hs : op.phase = .waiting s)
    {answer : Option (Nat × KvOutput V)}
    (hl : ∀ k r, answer = some (k, r) → op.requests.getLast? = some k)
    (ha : ∀ k r, answer = some (k, r) → (kvServer K V refusals).answers srv k r) (i : ι) :
    Tracks isFirstTry srv (op.follow n (answer.elim Test.noReply Prod.snd)
      ((op.clerkOf C).proceed s (answer.map (·.snd.err)) i)).fst inv := by
  -- Only the map's own answers make it return.
  have hans {err : Err} (hm : answer.map (·.snd.err) = some err) (hr : err ∉ refusals) :
      ∃ k r, answer = some (k, r) ∧ r.err = err ∧ op.requests.getLast? = some k ∧
      srv.replies k = some r := by
    obtain ⟨⟨k, r⟩, rfl, rfl⟩ := Option.map_eq_some_iff.mp hm
    have ha := ha k r rfl
    simp only [kvServer, decide_eq_true_eq] at ha
    obtain hk | ⟨err, he, rfl⟩ := ha
    · exact ⟨k, r, rfl, rfl, hl k r rfl, hk⟩
    · exact absurd he hr
  cases ho : (op.clerkOf C).proceed s (answer.map (·.snd.err)) i
  case panic   => exact h.panic
  case call s' =>
    refine h.resend hn fun key value version hi hf => ?_
    rw [Op.clerkOf, hi] at ho
    simp [(hC.put _).left.resent _ _ _ _ ho] at hf
  case done err =>
    refine ⟨h.input, h.call, fun key hi => ?_, fun key value version hi => ?_⟩ <;>
      replace hi : op.input = _ := hi <;> rw [Op.clerkOf, hi] at ho
    · have h := h.get key hi
      have ⟨hm, hr⟩ := (hC.get _).left.answered _ _ _ _ ho
      obtain ⟨k, r, rfl, rfl, hk, hrk⟩ := hans hm ((hC.get _).right ▸ hr)
      refine ⟨h.same, h.last, fun out hout => ⟨k, hk, ?_⟩⟩
      simp only [Op.follow, Phase.returned.injEq, KvInput.output, hi, Option.elim] at hout
      exact hout ▸ hrk
    · have h := h.put key value version hi
      have ⟨e, hm, hr, he⟩ := (hC.put _).left.answered _ _ _ _ ho
      obtain ⟨k, r, rfl, rfl, hk, hrk⟩ := hans hm ((hC.put _).right ▸ hr)
      refine ⟨h.before, h.after, nofun,
        fun out hout => ⟨k, isFirstTry s, r.err, hk, ?_, ?_, h.first s hs⟩⟩
      · rcases hx : inv.effect with _ | ⟨kv, kv'⟩
        · have hnone := (h.before hx).right k (List.mem_of_getLast? hk)
          simp [hnone] at hrk
        · have ⟨_, _, _, _, _, hall⟩ := h.after kv kv' hx
          obtain rfl | ⟨_, rfl⟩ := hall k (List.mem_of_getLast? hk) r hrk <;> exact hrk
      · simp only [Op.follow, Phase.returned.injEq, KvInput.output, hi] at hout
        rw [←hout, he]

-- One of the requests is executed. Either the call takes effect with it, or the server stays as it
-- is.
theorem Tracks.execute {inv : Invocation (KVServer K V) (KvInput K V)}
    (h : Tracks isFirstTry srv op inv) {k : Nat} (hk : k ∈ op.requests) (hn : srv.replies k = none)
    {kv : KVServer K V} {reply : KvOutput V} (hh : KvServer.handle srv.kv op.input = (kv, reply)) :
    (kv = srv.kv ∧ Tracks isFirstTry ⟨kv, Function.update srv.replies k (some reply)⟩ op inv) ∨
    ((∀ e ∈ inv.effect, e.fst = e.snd) ∧ (∃ o, (stores K V).step srv.kv inv.input o = (true, kv)) ∧
      Tracks isFirstTry ⟨kv, Function.update srv.replies k (some reply)⟩ op
        { inv with effect := some (srv.kv, kv) }) := by
  cases hi : op.input
  case get key =>
    have hg := h.get key hi
    rw [hi, KvServer.handle, Prod.mk.injEq] at hh
    obtain ⟨rfl, rfl⟩ := hh
    by_cases hl : op.requests.getLast? = some k
    case pos =>
      refine .inr ⟨fun e he => (hg.same e he).left, ⟨_, by rw [h.input, hi]; exact stores_get⟩,
        h.input, h.call, fun key' hi' => ?_, fun _ _ _ hi' => by simp [hi] at hi'⟩
      obtain rfl : key = key' := by simpa [hi] using hi'
      refine ⟨by simp, fun k' r hk' hr => ⟨srv.kv, rfl, ?_⟩, fun out ho => ?_⟩
      · obtain rfl := Option.some.inj (hl.symm.trans hk')
        simpa [eq_comm] using hr
      · have ⟨k', hk', hr⟩ := hg.returned out ho
        obtain rfl := Option.some.inj (hl.symm.trans hk')
        simp [hn] at hr
    case neg =>
      have hne {k'} (hk' : op.requests.getLast? = some k') : k' ≠ k := fun he => hl (he ▸ hk')
      refine .inl ⟨rfl, h.input, h.call, fun key' hi' => ?_, fun _ _ _ hi' => by simp [hi] at hi'⟩
      have hg := h.get key' hi'
      refine ⟨hg.same, fun k' r hk' hr => ?_, fun out ho => ?_⟩
      · exact hg.last k' r hk' (by simpa [hne hk'] using hr)
      · have ⟨k', hk', hr⟩ := hg.returned out ho
        exact ⟨k', hk', by simpa [hne hk'] using hr⟩
  case put key value version =>
    have hw := h.put key value version hi
    rw [hi, KvServer.handle] at hh
    rcases hp : srv.kv.put key value version with ⟨kv', err⟩
    rw [hp, Prod.mk.injEq] at hh
    obtain ⟨rfl, rfl⟩ := hh
    have hne k' (hr : srv.replies k' ≠ none) : k' ≠ k := by
      rintro rfl
      exact hr hn
    rcases he : inv.effect with _ | ⟨kv₀, kv₀'⟩
    · have ⟨hle, hnone⟩ := hw.before he
      have ⟨herr, hlt⟩ := KVServer.put_of_le hle hp
      refine .inr ⟨nofun, ⟨⟨none, 0, err⟩, by rw [h.input, hi]; exact stores_put hp (.inl rfl)⟩,
        h.input, h.call, fun _ hi' => by simp [hi] at hi', fun key' value' version' hi' => ?_⟩
      obtain ⟨rfl, rfl, rfl⟩ : key = key' ∧ value = value' ∧ version = version' := by
        simpa [hi] using hi'
      refine ⟨nofun, ?_, hw.first, fun out ho => ?_⟩
      · rintro _ _ ⟨⟩
        refine ⟨hlt, err, hp, herr, fun ho => ⟨k, hk, by simp [ho]⟩, fun k' hk' r hr => ?_⟩
        by_cases hkk : k' = k
        case pos =>
          obtain rfl : _ = r := by simpa [hkk] using hr
          obtain rfl | rfl := herr
          · exact .inr ⟨rfl, rfl⟩
          · exact .inl rfl
        case neg => simp [hkk, hnone k' hk'] at hr
      · have ⟨k', _, _, hk', hr, _⟩ := hw.returned out ho
        simp [hnone k' (List.mem_of_getLast? hk')] at hr
    · have ⟨hlt, err₀, hp₀, herr, hok, hall⟩ := hw.after kv₀ kv₀' he
      obtain ⟨rfl, rfl⟩ := Prod.mk.inj ((KVServer.put_of_lt hlt).symm.trans hp)
      refine .inl ⟨rfl, h.input, h.call, fun _ hi' => by simp [hi] at hi',
        fun key' value' version' hi' => ?_⟩
      obtain ⟨rfl, rfl, rfl⟩ : key = key' ∧ value = value' ∧ version = version' := by
        simpa [hi] using hi'
      refine ⟨fun hx => by simp [he] at hx, fun kv₁ kv₁' hx => ?_, hw.first, fun out ho => ?_⟩
      · obtain ⟨rfl, rfl⟩ : kv₀ = kv₁ ∧ kv₀' = kv₁' := by simpa [he] using hx
        refine ⟨hlt, err₀, hp₀, herr, fun ho => ?_, fun k' hk' r hr => ?_⟩
        · have ⟨k', hk', hr⟩ := hok ho
          exact ⟨k', hk', by simpa [hne k' (by simp [hr])] using hr⟩
        · by_cases hkk : k' = k
          case pos => exact .inl (by simpa [hkk, eq_comm] using hr)
          case neg => exact hall k' hk' r (by simpa [hkk] using hr)
      · have ⟨k', first, e, hk', hr, ho⟩ := hw.returned out ho
        exact ⟨k', first, e, hk', by simpa [hne k' (by simp [hr])] using hr, ho⟩

-- The call may return what it returns.
theorem Tracks.accepted {inv : Invocation (KVServer K V) (KvInput K V)}
    (h : Tracks isFirstTry srv op inv) {out : KvOutput V} (hr : op.phase = .returned out) :
    ∃ kv kv', inv.effect = some (kv, kv') ∧ (stores K V).step kv inv.input out = (true, kv') ∧
      op.input.seen out ≤ srv.kv.version op.input.key ∧
      ∀ key value version, op.input = .put key value version → out.err ≠ .errNoKey := by
  rw [h.input]
  cases hi : op.input
  case get key =>
    have h := h.get key hi
    have ⟨k, hk, hs⟩ := h.returned out hr
    obtain ⟨kv, he, rfl⟩ := h.last k out hk hs
    refine ⟨kv, kv, he, stores_get, ?_, nofun⟩
    rw [KvInput.seen, KVServer.get_version]
    exact (h.same _ he).right
  case put key value version =>
    have h := h.put key value version hi
    obtain ⟨k, first, e, hk, hs, rfl, hf⟩ := h.returned out hr
    have hk := List.mem_of_getLast? hk
    rcases he : inv.effect with _ | ⟨kv, kv'⟩
    · simp [(h.before he).right k hk] at hs
    · have ⟨hlt, err, hp, herr, hok, hall⟩ := h.after kv kv' he
      refine ⟨kv, kv', rfl, stores_put hp ?_, hlt, ?_⟩
      · obtain ⟨⟨⟩⟩ | ⟨rfl, ⟨⟩⟩ := hall k hk _ hs
        · rcases herr with rfl | rfl
          · -- Another one of its requests has been successful, so there have been two.
            obtain ⟨k', hk', hs'⟩ := hok rfl
            have hne : k ≠ k' := by
              rintro rfl
              simp [hs] at hs'
            cases first
            case false => exact .inr ⟨rfl, nofun⟩
            case true  =>
              obtain ⟨x, hx⟩ :=
                List.length_eq_one_iff.mp (le_antisymm (hf rfl) (List.length_pos_of_mem hk))
              simp only [hx, List.mem_singleton] at hk hk'
              exact absurd (hk.trans hk'.symm) hne
          · rcases Clerk.err_errVersion first with h | h
            · exact .inl h
            · exact .inr ⟨h, nofun⟩
        · exact .inl (Clerk.err_ok first)
      · obtain ⟨⟨⟩⟩ | ⟨_, ⟨⟩⟩ := hall k hk _ hs
        · rcases Clerk.err_errVersion first with h | h <;> simp [h]
        · simp

end Tracks

namespace KvServer

variable {K V : Type} [DecidableEq K] {sent : List (KvInput K V)} {srv srv' : KvServer K V}
  {k : Nat}

theorem next_eq (h : KvServer.next sent srv k = some srv') :
    ∃ input kv reply, sent[k]? = some input ∧ srv.replies k = none ∧
    handle srv.kv input = (kv, reply) ∧
      srv' = ⟨kv, Function.update srv.replies k (some reply)⟩ := by
  obtain ⟨input, hi, h⟩ := Option.bind_eq_some_iff.mp h
  split_ifs at h with hn
  cases h
  exact ⟨input, _, _, hi, by simpa using hn, rfl, rfl⟩

theorem handle_version_le {kv kv' : KVServer K V} {input : KvInput K V} {reply : KvOutput V}
    (h : handle kv input = (kv', reply)) (key : K) : kv.version key ≤ kv'.version key := by
  cases input
  case get => cases h; rfl
  case put =>
    cases h
    exact KVServer.put_version_le rfl key

end KvServer

theorem Op.follow_cases {κ σ K V : Type} {op op' : Op κ σ K V} {n : Nat} {reply : KvOutput V}
    {outcome : Outcome σ} {reqs : List (KvInput K V)}
    (h : op.follow n reply outcome = (op', reqs)) :
    op'.input = op.input ∧
    ((op'.requests = op.requests ++ [n] ∧ reqs = [op.input]) ∨
      (op'.requests = op.requests ∧ reqs = [])) := by
  cases outcome <;> cases h <;> simp

-- All that the clients can do.
inductive Test.Stepped {P κ σ ι K V : Type} [DecidableEq P] (C : Clerks κ σ ι) (ts : Test P κ σ K V)
    (n : Nat) :
    Event P κ ι K V → Option (Nat × KvOutput V) → Test P κ σ K V → List (KvInput K V) → Prop
  | ticked : Stepped C ts n .tick none { ts with now := ts.now + 1 } []
  | called (p clerk input) {op' reqs} (hp : ts.client p = none)
    (hf : Op.follow ⟨clerk, input, ts.now, [], .panicked⟩ n noReply
      (Op.clerkOf C ⟨clerk, input, ts.now, [], (.panicked : Phase σ V)⟩).start = (op', reqs)) :
    Stepped C ts n (.call p clerk input) none (ts.set p (some op')) reqs
  | proceeded (e p i) {op s answer op' reqs} (hp : ts.client p = some op)
    (hs : op.phase = .waiting s)
    (hl : ∀ k r, answer = some (k, r) → op.requests.getLast? = some k)
    (hf : op.follow n (answer.elim noReply Prod.snd)
      ((op.clerkOf C).proceed s (answer.map (·.snd.err)) i) = (op', reqs)) :
    Stepped C ts n e answer (ts.set p (some op')) reqs
  | returned (p) {op out} (hp : ts.client p = some op) (hr : op.phase = .returned out) :
    Stepped C ts n (.done p) none
      { ts.set p none with oplog := ts.oplog ++ [⟨op.input, out, op.start, ts.now⟩] } []

theorem Test.next_stepped {P κ σ ι K V : Type} [DecidableEq P] {C : Clerks κ σ ι}
    {ts ts' : Test P κ σ K V} {n : Nat} {e : Event P κ ι K V} {answer : Option (Nat × KvOutput V)}
    {reqs : List (KvInput K V)} (h : ts.next C n e answer = some (ts', reqs)) :
    Stepped C ts n e answer ts' reqs := by
  cases e <;> rcases answer with _ | ⟨k, reply⟩ <;> simp only [next, reduceCtorEq] at h
  case tick.none =>
    cases h
    exact .ticked
  case call.none p clerk input =>
    split at h
    case h_1 => cases h
    case h_2 hp =>
      cases h
      exact .called p clerk input hp rfl
  case respond.some p i =>
    obtain ⟨op, hp, h⟩ := Option.bind_eq_some_iff.mp h
    split at h
    case h_2 => cases h
    case h_1 s hs =>
      split_ifs at h with hl
      cases h
      refine .proceeded _ p i hp hs ?_ rfl
      rintro _ _ ⟨⟩
      exact hl
  case lose.none p i =>
    obtain ⟨op, hp, h⟩ := Option.bind_eq_some_iff.mp h
    split at h
    case h_2 => cases h
    case h_1 s hs =>
      cases h
      exact .proceeded _ p i hp hs nofun rfl
  case done.none p =>
    obtain ⟨op, hp, h⟩ := Option.bind_eq_some_iff.mp h
    split at h
    case h_2 => cases h
    case h_1 out hr =>
      cases h
      exact .returned p hp hr

section Simulation

variable {P κ σ ι K V : Type} [DecidableEq K] {C : Clerks κ σ ι} {refusals : List Err}
  {isFirstTry : σ → Bool} {s s' : Session (Test P κ σ K V) (KvServer K V) (KvInput K V)}
  {a a' : Atomic P (KVServer K V) (KvInput K V) (KvOutput V)}

-- The calls as operations on the map. What is left of the requests of former calls is harmless.
structure Simulates (isFirstTry : σ → Bool)
    (s : Session (Test P κ σ K V) (KvServer K V) (KvInput K V))
    (a : Atomic P (KVServer K V) (KvInput K V) (KvOutput V)) : Prop where
  state   : a.state = s.back.kv
  now     : a.now = s.front.now
  history : a.history = s.front.oplog
  idle    : ∀ p, s.front.client p = none → a.pending p = none
  busy    : ∀ p op, s.front.client p = some op →
    ∃ inv, a.pending p = some inv ∧ Tracks isFirstTry s.back op inv
  sent    : ∀ p op, s.front.client p = some op → ∀ k ∈ op.requests, s.sent[k]? = some op.input
  apart   : ∀ p q op op' k, s.front.client p = some op → s.front.client q = some op' →
    k ∈ op.requests → k ∈ op'.requests → p = q
  fresh   : ∀ k, s.sent.length ≤ k → s.back.replies k = none
  stale   : ∀ k key value version, s.sent[k]? = some (.put key value version) →
    (∀ p op, s.front.client p = some op → k ∉ op.requests) → version < s.back.kv.version key
  seen    : ∀ op ∈ s.front.oplog, op.input.seen op.output ≤ s.back.kv.version op.input.key
  legal   : ∀ op ∈ s.front.oplog, ∀ key value version, op.input = .put key value version →
    op.output.err ≠ .errNoKey

namespace Simulates

theorem tick (h : Simulates isFirstTry s a) :
    Simulates isFirstTry { s with front := { s.front with now := s.front.now + 1 } }
      { a with now := a.now + 1 } :=
  { h with now := congrArg (· + 1) h.now }

theorem lt_sent (h : Simulates isFirstTry s a) {p : P} {op : Op κ σ K V}
    (hp : s.front.client p = some op) {k : Nat} (hk : k ∈ op.requests) : k < s.sent.length :=
  (List.getElem?_eq_some_iff.mp (h.sent p op hp k hk)).choose

-- The server executes a request.
theorem serve (h : Simulates isFirstTry s a) {srv : KvServer K V} (hs : a'.state = srv.kv)
    (hn : a'.now = a.now) (hh : a'.history = a.history)
    (hv : ∀ key, s.back.kv.version key ≤ srv.kv.version key)
    (hr : ∀ k, s.sent.length ≤ k → srv.replies k = none)
    (hi : ∀ p, s.front.client p = none → a'.pending p = none)
    (hb : ∀ p op, s.front.client p = some op → ∃ inv, a'.pending p = some inv ∧
      Tracks isFirstTry srv op inv) :
    Simulates isFirstTry { s with back := srv } a' where
  state        := hs
  now          := hn.trans h.now
  history      := hh.trans h.history
  idle         := hi
  busy         := hb
  sent         := h.sent
  apart        := h.apart
  fresh        := hr
  stale k key value version hk hno := (h.stale k key value version hk hno).trans_le (hv key)
  seen op hm   := (h.seen op hm).trans (hv _)
  legal        := h.legal

variable [DecidableEq P]

-- A client begins a call or goes on with it.
theorem follow (h : Simulates isFirstTry s a) {p : P} {op op' : Op κ σ K V} {reply : KvOutput V}
    {outcome : Outcome σ} {reqs : List (KvInput K V)}
    {inv : Invocation (KVServer K V) (KvInput K V)}
    (hp : s.front.client p = some op ∨ s.front.client p = none ∧ op.requests = [])
    (hf : op.follow s.sent.length reply outcome = (op', reqs))
    (ht : Tracks isFirstTry s.back op' inv) :
    Simulates isFirstTry { s with front := s.front.set p (some op'), sent := s.sent ++ reqs }
      (a.set p (some inv)) := by
  have ⟨hi, hr⟩ := Op.follow_cases hf
  have hold {k} (hk : k ∈ op.requests) : s.front.client p = some op := by
    rcases hp with hp | ⟨_, hn⟩
    · exact hp
    · simp [hn] at hk
  have hnew {k} (hk : k ∈ op'.requests) : k ∈ op.requests ∨ k = s.sent.length := by
    rcases hr with ⟨hr, _⟩ | ⟨hr, _⟩
    · simpa [hr] using hk
    · exact .inl (hr ▸ hk)
  refine {
    state   := h.state
    now     := h.now
    history := h.history
    idle    := ?idle
    busy    := ?busy
    sent    := ?sent
    apart   := ?apart
    fresh   := ?fresh
    stale   := ?stale
    seen    := h.seen
    legal   := h.legal
  }
  case idle =>
    intro q hq
    by_cases hqp : q = p
    case pos => simp [Test.set, hqp] at hq
    case neg => simpa [Atomic.set, hqp] using h.idle q (by simpa [Test.set, hqp] using hq)
  case busy =>
    intro q op₁ hq
    by_cases hqp : q = p
    case pos =>
      obtain rfl : op' = op₁ := by simpa [Test.set, hqp] using hq
      exact ⟨inv, by simp [Atomic.set, hqp], ht⟩
    case neg => simpa [Atomic.set, hqp] using h.busy q op₁ (by simpa [Test.set, hqp] using hq)
  case sent =>
    intro q op₁ hq k hk
    by_cases hqp : q = p
    case pos =>
      obtain rfl : op' = op₁ := by simpa [Test.set, hqp] using hq
      rcases hr with ⟨hr, rfl⟩ | ⟨hr, rfl⟩
      · rw [hr, List.mem_append, List.mem_singleton] at hk
        rcases hk with hk | rfl
        · have hlt := h.lt_sent (hold hk) hk
          rw [List.getElem?_append_left hlt, hi]
          exact h.sent p op (hold hk) k hk
        · simp [hi]
      · rw [hr] at hk
        rw [List.append_nil, hi]
        exact h.sent p op (hold hk) k hk
    case neg =>
      have hq : s.front.client q = some op₁ := by simpa [Test.set, hqp] using hq
      rw [List.getElem?_append_left (h.lt_sent hq hk)]
      exact h.sent q op₁ hq k hk
  case apart =>
    -- A new request is not among those of the others.
    have hother {q op₁ k} (hqp : q ≠ p) (hq : s.front.client q = some op₁) (hk : k ∈ op₁.requests)
        (hk' : k ∈ op'.requests) : q = p := by
      rcases hnew hk' with hk' | rfl
      · exact h.apart q p op₁ op k hq (hold hk') hk hk'
      · exact absurd (h.lt_sent hq hk) (lt_irrefl _)
    intro q r op₁ op₂ k hq hr hk hk'
    by_cases hqp : q = p <;> by_cases hrp : r = p
    · exact hqp.trans hrp.symm
    · obtain rfl : op' = op₁ := by simpa [Test.set, hqp] using hq
      exact hqp.trans (hother hrp (by simpa [Test.set, hrp] using hr) hk' hk).symm
    · obtain rfl : op' = op₂ := by simpa [Test.set, hrp] using hr
      exact (hother hqp (by simpa [Test.set, hqp] using hq) hk hk').trans hrp.symm
    · exact h.apart q r op₁ op₂ k (by simpa [Test.set, hqp] using hq)
        (by simpa [Test.set, hrp] using hr) hk hk'
  case fresh => exact fun k hk => h.fresh k (le_trans (by simp) hk)
  case stale =>
    intro k key value version hk hn
    have hno : k ∉ op'.requests := hn p op' (by simp [Test.set])
    have hlt : k < s.sent.length := by
      by_contra hge
      rcases hr with ⟨hr, rfl⟩ | ⟨_, rfl⟩
      · rw [List.getElem?_append_right (not_lt.mp hge), List.getElem?_singleton] at hk
        split_ifs at hk with hz
        simp [hr, show k = s.sent.length by omega] at hno
      · simp [not_lt.mp hge] at hk
    rw [List.getElem?_append_left hlt] at hk
    refine h.stale k key value version hk fun q op₁ hq hm => ?_
    by_cases hqp : q = p
    case neg => exact hn q op₁ (by simpa [Test.set, hqp] using hq) hm
    case pos =>
      subst hqp
      rcases hp with hp | ⟨hp, _⟩
      · obtain rfl := Option.some.inj (hp.symm.trans hq)
        refine hno ?_
        rcases hr with ⟨hr, _⟩ | ⟨hr, _⟩ <;> simp [hr, hm]
      · simp [hp] at hq

variable [DecidableEq V]

theorem init :
    Simulates isFirstTry ((test P K V C).session (kvServer K V refusals)).init
      (.init (stores K V)) := by
  constructor <;> simp [Frontend.session, test, kvServer, Atomic.init, stores, Model.each, store]

theorem respond (h : Simulates isFirstTry s a) {p : P} {op : Op κ σ K V} {out : KvOutput V}
    (hp : s.front.client p = some op) (hr : op.phase = .returned out) :
    ∃ a', a.Step (stores K V) a' ∧
      Simulates isFirstTry
        { s with front := { s.front.set p none with
            oplog := s.front.oplog ++ [⟨op.input, out, op.start, s.front.now⟩] } } a' := by
  obtain ⟨inv, hinv, ht⟩ := h.busy p op hp
  obtain ⟨kv, kv', he, hstep, hseen, hlegal⟩ := ht.accepted hr
  have hne {q op'} (hq : (s.front.set p none).client q = some op') :
      q ≠ p ∧ s.front.client q = some op' := by
    have hqp : q ≠ p := by
      rintro rfl
      simp [Test.set] at hq
    exact ⟨hqp, by simpa [Test.set, hqp] using hq⟩
  refine ⟨_, .respond p out hinv he hstep, ?_⟩
  refine {
    state   := h.state
    now     := h.now
    history := ?history
    idle    := ?idle
    busy    := ?busy
    sent    := fun q op' hq => h.sent q op' (hne hq).right
    apart   := fun q r op₁ op₂ k hq hr => h.apart q r op₁ op₂ k (hne hq).right (hne hr).right
    fresh   := h.fresh
    stale   := ?stale
    seen    := List.forall_mem_append.mpr ⟨h.seen, by simpa using hseen⟩
    legal   := List.forall_mem_append.mpr ⟨h.legal, by simpa using hlegal⟩
  }
  case history => simp [h.history, h.now, ht.input, ht.call]
  case idle =>
    intro q hq
    by_cases hqp : q = p
    case pos => simp [Atomic.set, hqp]
    case neg => simpa [Atomic.set, hqp] using h.idle q (by simpa [Test.set, hqp] using hq)
  case busy =>
    intro q op' hq
    obtain ⟨hqp, hq⟩ := hne hq
    simpa [Atomic.set, hqp] using h.busy q op' hq
  case stale =>
    intro k key value version hk hno
    by_cases hm : k ∈ op.requests
    case pos =>
      have hi : op.input = .put key value version :=
        Option.some.inj ((h.sent p op hp k hm).symm.trans hk)
      simpa [hi, KvInput.seen, KvInput.key] using hseen
    case neg =>
      refine h.stale k key value version hk fun q op' hq hm' => ?_
      by_cases hqp : q = p
      case neg => exact hno q op' (by simpa [Test.set, hqp] using hq) hm'
      case pos =>
        obtain rfl := Option.some.inj (hp.symm.trans (hqp ▸ hq))
        exact hm hm'

theorem execute (h : Simulates isFirstTry s a) {k : Nat} {srv : KvServer K V}
    (hs : KvServer.next s.sent s.back k = some srv) :
    ∃ a', Atomic.Steps (stores K V) a a' ∧ Simulates isFirstTry { s with back := srv } a' := by
  obtain ⟨input, kv, reply, hk, hn, hh, rfl⟩ := KvServer.next_eq hs
  have hlt := (List.getElem?_eq_some_iff.mp hk).choose
  have hfresh (k') (hk' : s.sent.length ≤ k') :
      Function.update s.back.replies k (some reply) k' = none := by
    rw [Function.update_of_ne (by omega)]
    exact h.fresh k' hk'
  have hv := KvServer.handle_version_le hh
  -- What the request means for the calls that it is not a part of.
  have hother {q op} (hq : s.front.client q = some op) (hno : k ∉ op.requests) :
      ∃ inv, a.pending q = some inv ∧
        Tracks isFirstTry ⟨kv, Function.update s.back.replies k (some reply)⟩ op inv := by
    have ⟨inv, hi, ht⟩ := h.busy q op hq
    refine ⟨inv, hi, ht.mono (fun k' hk' => Function.update_of_ne ?_ ..) hv⟩
    rintro rfl
    exact hno hk'
  by_cases hp : ∃ p op, s.front.client p = some op ∧ k ∈ op.requests
  case neg =>
    have hno {q op} (hq : s.front.client q = some op) :
        k ∉ op.requests := fun hm => hp ⟨q, op, hq, hm⟩
    have hkv : kv = s.back.kv := by
      cases input
      case get key => exact (congrArg Prod.fst hh).symm
      case put key value version =>
        have hlt := h.stale k key value version hk fun _ _ => hno
        rw [KvServer.handle, KVServer.put_of_lt hlt] at hh
        exact (congrArg Prod.fst hh).symm
    exact ⟨a, .refl, h.serve (h.state.trans hkv.symm) rfl rfl hv hfresh h.idle fun q op hq =>
      hother hq (hno hq)⟩
  case pos =>
    obtain ⟨p, op, hp, hm⟩ := hp
    obtain rfl : op.input = input := Option.some.inj ((h.sent p op hp k hm).symm.trans hk)
    obtain ⟨inv, hi, ht⟩ := h.busy p op hp
    have hno {q op'} (hq : s.front.client q = some op') (hqp : q ≠ p) : k ∉ op'.requests :=
      fun hm' => hqp (h.apart q p op' op k hq hp hm' hm)
    rcases ht.execute hm hn hh with ⟨hkv, ht⟩ | ⟨he, ⟨o, ho⟩, ht⟩
    · refine ⟨a, .refl, h.serve (h.state.trans hkv.symm) rfl rfl hv hfresh h.idle fun q op' hq =>
        ?_⟩
      by_cases hqp : q = p
      case neg => exact hother hq (hno hq hqp)
      case pos =>
        obtain rfl := Option.some.inj (hp.symm.trans (hqp ▸ hq))
        exact ⟨inv, hqp ▸ hi, ht⟩
    · refine ⟨_, .single (.effect p hi he (h.state.symm ▸ ho)),
        h.serve rfl rfl rfl hv hfresh (fun q hq => ?_) fun q op' hq => ?_⟩
      · have hqp : q ≠ p := by
          rintro rfl
          simp [hp] at hq
        simpa [Atomic.set, hqp] using h.idle q hq
      · by_cases hqp : q = p
        case neg => simpa [Atomic.set, hqp] using hother hq (hno hq hqp)
        case pos =>
          subst hqp
          obtain rfl := Option.some.inj (hp.symm.trans hq)
          exact ⟨_, Function.update_self .., h.state ▸ ht⟩

-- Every step of a session is one of the map, or none at all.
theorem step (hC : C.Sound refusals isFirstTry) (h : Simulates isFirstTry s a)
    {e : Session.Event (Test.Event P κ ι K V) Nat (KvOutput V)}
    (hb : ¬Session.Bad Test.Unseen (fun _ _ _ => False) s e)
    (hs : ((test P K V C).session (kvServer K V refusals)).next s e = some s') :
    ∃ a', Atomic.Steps (stores K V) a a' ∧ Simulates isFirstTry s' a' := by
  cases e
  case back k =>
    obtain ⟨srv, hk, rfl⟩ := Frontend.session_back.mp hs
    exact h.execute hk
  case front e answer =>
    obtain ⟨ha, ts, reqs, hn, rfl⟩ := Frontend.session_front.mp hs
    have hfresh := h.fresh _ le_rfl
    cases Test.next_stepped hn
    case ticked =>
      refine ⟨_, .single .tick, ?_⟩
      simpa using h.tick
    case called p clerk input op' hp hf =>
      have hv (key value version) (hi : input = .put key value version) :
          version ≤ s.back.kv.version key := by
        subst hi
        by_contra hlt
        refine hb ⟨by omega, fun op hm hk => ?_⟩
        have hseen := h.seen op hm
        rw [hk] at hseen
        omega
      have ht := Tracks.start hC (.make clerk s.front.now hv) rfl hfresh
      rw [hf] at ht
      refine ⟨_, .single (.invoke p input (h.idle p hp)), ?_⟩
      rw [h.now]
      exact h.follow (.inr ⟨hp, rfl⟩) hf ht
    case proceeded p i op st op' hp hst hl hf =>
      have ⟨inv, hi, ht⟩ := h.busy p op hp
      have ht := ht.proceed hC hfresh hst hl ha i
      rw [hf] at ht
      refine ⟨a, .refl, ?_⟩
      have hset : a.set p (some inv) = a := by rw [Atomic.set, ←hi, Function.update_eq_self]
      exact hset ▸ h.follow (.inl hp) hf ht
    case returned p op out hp hr =>
      obtain ⟨a', ha, h'⟩ := h.respond hp hr
      exact ⟨a', .single ha, by simpa using h'⟩

end Simulates

variable [DecidableEq P] [DecidableEq V]

theorem exists_simulates (hC : C.Sound refusals isFirstTry)
    (h : ((test P K V C).session (kvServer K V refusals)).Reached
      (Session.Bad Test.Unseen fun _ _ _ => False) s) :
    ∃ a, Atomic.Steps (stores K V) (.init (stores K V)) a ∧ Simulates isFirstTry s a := by
  induction h
  case init             => exact ⟨_, .refl, .init⟩
  case next hr hb hs hi =>
    obtain ⟨a, ha, h⟩ := hi
    obtain ⟨a', ha', h'⟩ := h.step hC hb hs
    exact ⟨a', ha.trans ha', h'⟩

-- The clients' calls are linearizable, whether all of them have returned or not.
theorem completable_of_reached (hC : C.Sound refusals isFirstTry)
    (h : ((test P K V C).session (kvServer K V refusals)).Reached
      (Session.Bad Test.Unseen fun _ _ _ => False) s) :
    Completable (stores K V) s.front.oplog s.front.pending s.front.now := by
  have ⟨a, ha, h⟩ := exists_simulates hC h
  have hc := ha.completable
  rw [h.history, h.now] at hc
  convert hc using 2 with p
  cases hp : s.front.client p
  case none    => simp [Test.pending, hp, h.idle p hp]
  case some op =>
    have ⟨inv, hi, ht⟩ := h.busy p op hp
    simp [Test.pending, hp, hi, ht.input, ht.call]

end Simulation

theorem legal_of_reached {P κ σ ι : Type} [DecidableEq P] {C : Clerks κ σ ι} {refusals : List Err}
    {isFirstTry : σ → Bool}
    {s : Session (Test P κ σ String String) (KvServer String String) (KvInput String String)}
    (hC : C.Sound refusals isFirstTry)
    (h : ((test P String String C).session (kvServer String String refusals)).Reached
      (Session.Bad Test.Unseen fun _ _ _ => False) s)
    (hp : ∀ p, s.front.client p = none) : Legal s.front.oplog := by
  have hc := (completable_of_reached hC h).linearizable fun p => by simp [Test.pending, hp]
  have ⟨_, _, hs⟩ := exists_simulates hC h
  exact legal_of_linearizable hc hs.legal

theorem kvsrvClerks_sound : kvsrvClerks.Sound [] id where
  get _ := ⟨getClerk_reading, rfl⟩
  put _ := ⟨clerk_careful, rfl⟩

-- Clients of `kvsrv1`, over a network that loses requests and replies and delays both as it likes.
theorem kvsrv_linearizable {P : Type} [DecidableEq P]
    (b : ((test P String String kvsrvClerks).session (kvServer String String [])).Behavior)
    (hb : b.Avoids (Session.Bad Test.Unseen fun _ _ _ => False)) (i : Nat) :
    Completable (stores String String) (b.state i).front.oplog (b.state i).front.pending
      (b.state i).front.now ∧
    ((∀ p, (b.state i).front.client p = none) → Legal (b.state i).front.oplog) :=
  ⟨completable_of_reached kvsrvClerks_sound (.of_avoids hb i),
    legal_of_reached kvsrvClerks_sound (.of_avoids hb i)⟩

-- The reply to the first request is lost, and the second one finds the version changed.
def retrying :
    List (Session.Event (Test.Event Unit Unit Unit String String) Nat (KvOutput String)) :=
  [.front (.call () () (.put "k" "v" 0)) none, .back 0, .front (.lose () ()) none, .back 1,
    .front (.respond () ()) (some (1, ⟨none, 0, .errVersion⟩)), .front .tick none,
    .front (.done ()) none]

def retry : ((test Unit String String kvsrvClerks).session (kvServer String String [])).Behavior :=
  .ofActions _ retrying (by decide +kernel)

theorem kvsrv_linearizable_retry :
    (retry.state 7).front.oplog = [⟨.put "k" "v" 0, ⟨none, 0, .errMaybe⟩, 0, 1⟩] ∧
    Legal (retry.state 7).front.oplog := by
  have hb : retry.Avoids (Session.Bad Test.Unseen fun _ _ _ => False) :=
    System.Behavior.avoids_ofActions (by decide +kernel)
  exact ⟨by decide +kernel, (kvsrv_linearizable retry hb 7).right fun () =>
    Option.isNone_iff_eq_none.mp (by decide +kernel)⟩

end KvTest
