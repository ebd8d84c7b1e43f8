import DistributedSystems.Clerk.Theorems.Call

namespace KvSrv

namespace Service

variable {σ ι K V : Type} {C : Clerk σ ι} {args : PutArgs K V} {s s' : Service σ K V}
variable {e : Event ι K V} {err : Err} {isFirstTry : σ → Bool}

-- How often the attempts of the call have changed the map.
def changes [DecidableEq V] (s : Service σ K V) : Nat :=
  s.call.elim 0 Call.changes

def Returned (s : Service σ K V) (err : Err) : Prop :=
  s.call.map Call.outcome = some (.done err)

theorem returned_iff : s.Returned err ↔ ∃ call, s.call = some call ∧ call.outcome = .done err := by
  simp [Returned]

-- Another attempt than the first is executed although there is no such key.
def Absent (args : PutArgs K V) (s : Service σ K V) : Event ι K V → Prop
  | .call (.execute k) => k ≠ 0 ∧ s.kv args.key = none ∧ args.version ≠ 0
  | _                  => False

variable [DecidableEq K]

-- All that can happen to the service.
inductive Stepped (C : Clerk σ ι) (args : PutArgs K V) (s : Service σ K V) :
    Event ι K V → Service σ K V → Prop
  | put (hn : s.call = none) : Stepped C args s .put ⟨s.kv, some (.make C args)⟩
  | call (e : Call.Event ι) {call call' kv'} (hc : s.call = some call)
    (hs : call.Stepped C s.kv e kv' call') :
    Stepped C args s (.call e) ⟨kv', some call'⟩
  | other (a) {kv' : KVServer K V} {err : Err}
    (hp : s.kv.put a.key a.value a.version = (kv', err)) :
    Stepped C args s (.other a) ⟨kv', s.call⟩

theorem next_stepped (h : s.next C args e = some s') : Stepped C args s e s' := by
  cases e <;> simp only [next] at h
  case put =>
    split at h
    case h_2 => cases h
    case h_1 hn =>
      cases h
      exact .put hn
  case call e =>
    have ⟨call, hc, h⟩ := Option.bind_eq_some_iff.mp h
    have ⟨⟨kv', call'⟩, hn, h⟩ := Option.bind_eq_some_iff.mp h
    cases h
    exact .call e hc (Call.next_stepped hn)
  case other a =>
    cases h
    exact .other a rfl

theorem Stepped.returned (h : Stepped C args s e s') (hr : s.Returned err) : s'.Returned err := by
  have ⟨_, hc, hd⟩ := returned_iff.mp hr
  cases h
  case put hn => cases hn.symm.trans hc
  case other  => exact hr
  case call hc' hs =>
    cases hc'.symm.trans hc
    exact returned_iff.mpr ⟨_, rfl, hs.done hd⟩

theorem returned_mono (b : (service C args).Behavior) {i j : Nat} (h : i ≤ j) :
    (b.state i).Returned err → (b.state j).Returned err :=
  b.rel_of_le (r := fun s s' => s.Returned err → s'.Returned err) (fun _ h => h)
    (fun _ _ _ h₁ h₂ h => h₂ (h₁ h)) (fun _ _ _ _ hn => (next_stepped hn).returned) h

variable [DecidableEq V]

def Sound (args : PutArgs K V) (isFirstTry : σ → Bool) (s : Service σ K V) : Prop :=
  ∀ call, s.call = some call → call.args = args ∧ call.Sound isFirstTry s.kv

theorem Sound.next (h : s.Sound args isFirstTry) (hc : C.Careful isFirstTry)
    (hs : Stepped C args s e s') : s'.Sound args isFirstTry := by
  intro call hcall
  cases hs
  case put =>
    cases hcall
    exact ⟨rfl, .make hc args⟩
  case call e call₀ call' kv' hc₀ hs =>
    cases hcall
    have ⟨ha, h⟩ := h _ hc₀
    exact ⟨hs.args.trans ha, h.next hc hs⟩
  case other a kv' err hp =>
    have ⟨ha, h⟩ := h _ hcall
    exact ⟨ha, h.mono <| KVServer.put_version_le hp _⟩

theorem Stepped.changes_le (h : Stepped C args s e s') : s.changes ≤ s'.changes := by
  cases h
  case put hn    => simp [changes, hn]
  case call hc h => simpa [changes, hc] using h.changes_le
  case other     => exact le_rfl

-- As long as no attempt is resent to a key that does not exist, only the first one can find that
-- out.
def Present (s : Service σ K V) : Prop :=
  ∀ call, s.call = some call → ∀ (k : Nat) before after,
    call.attempts[k]? = some (.executed before after .errNoKey) → k = 0

theorem Present.next (h : s.Present) (hs : Stepped C args s e s') (hc : s.Sound args isFirstTry)
    (ha : ¬s.Absent args e) : s'.Present := by
  intro call hcall k before after hk
  cases hs
  case put =>
    cases hcall
    cases Call.follow_executed hk
  case other => exact h call hcall k before after hk
  case call e call₀ call' kv' hc₀ hs =>
    cases hcall
    have h := h _ hc₀
    cases hs
    case answered | refused => exact h k _ _ (Call.follow_executed hk)
    case rejected =>
      have hk := Call.follow_executed hk
      simp only [Call.set, List.getElem?_set] at hk
      split_ifs at hk
      · cases hk
      · exact h k _ _ hk
    case executed k' err hk' hp =>
      simp only [Call.set, List.getElem?_set] at hk
      split_ifs at hk with he
      case neg => exact h k _ _ hk
      case pos =>
        cases hk
        obtain ⟨hn, hv⟩ := put_errNoKey (KVServer.put_eq hp)
        have hargs := (hc _ hc₀).left
        by_contra hne
        exact ha ⟨he ▸ hne, hargs ▸ hn, hargs ▸ hv⟩

-- What a result says about all the attempts, whenever they are executed.
structure Reports (b : (service C args).Behavior) : Prop where
  atMostOnce : ∀ i, (b.state i).changes ≤ 1
  ok         : ∀ i, (b.state i).Returned .ok → (b.state i).changes = 1
  errVersion : ∀ i, (b.state i).Returned .errVersion → ∀ j, (b.state j).changes = 0
  errNoKey   : ∀ i, (b.state i).Returned .errNoKey → ∀ j, (b.state j).changes = 0
  errMaybe   : ∀ i err, (b.state i).Returned err →
    err = .ok ∨ err = .errVersion ∨ err = .errNoKey ∨ err = .errMaybe

section

variable (b : (service C args).Behavior)

theorem sound (hc : C.Careful isFirstTry) : ∀ i, (b.state i).Sound args isFirstTry :=
  b.invariant nofun fun _ _ _ _ hn h => h.next hc (next_stepped hn)

theorem changes_mono {i j : Nat} (h : i ≤ j) : (b.state i).changes ≤ (b.state j).changes :=
  b.rel_of_le (r := fun s s' => s.changes ≤ s'.changes) (fun _ => le_rfl) (fun _ _ _ => le_trans)
    (fun _ _ _ _ hn => (next_stepped hn).changes_le) h

-- What cannot have changed anything once it has returned never does.
theorem changes_eq_zero (h : ∀ i, (b.state i).Returned err → (b.state i).changes = 0) {i : Nat}
    (hr : (b.state i).Returned err) (j : Nat) : (b.state j).changes = 0 := by
  have hm := h _ (returned_mono b (Nat.le_max_left i j) hr)
  have := changes_mono b (Nat.le_max_right i j)
  omega

-- A single attempt that has been executed in vain.
theorem single_changes {call : Call σ K V} {k : Nat} {before after : Option (Data V)}
    (h : call.Sound isFirstTry s.kv) (hs : s.call = some call) (hl : call.attempts.length = 1)
    (hk : call.attempts[k]? = some (.executed before after err)) (hne : err ≠ .ok) :
    s.changes = 0 := by
  have ⟨a, ha⟩ := List.length_eq_one_iff.mp hl
  have hp := h.executed k before after err hk
  rw [ha, List.getElem?_singleton] at hk
  split_ifs at hk
  cases hk
  have he : before = after := by simpa [hne] using put_ok_iff hp
  simp [changes, hs, Call.changes, ha, Attempt.changes, he]

theorem reports (hc : C.Careful isFirstTry) (ha : b.Avoids (Absent args)) : Reports b := by
  have hs := sound b hc
  have hp : ∀ i, (b.state i).Present :=
    b.invariant nofun fun i a _ hl hn h => h.next (next_stepped hn) (hs i) (ha i a hl)
  refine { atMostOnce := ?once, ok := ?ok, errVersion := ?version, errNoKey := ?noKey,
           errMaybe := ?maybe }
  case once =>
    intro i
    rw [changes]
    cases hcall : (b.state i).call
    case none      => exact Nat.zero_le _
    case some call => exact (hs i call hcall).right.once
  case ok =>
    intro i hr
    obtain ⟨call, hcall, hd⟩ := returned_iff.mp hr
    have h := (hs i call hcall).right
    obtain ⟨k, first, before, after, e, _, hk, he, _⟩ := h.done _ hd
    have he : e = .ok := Clerk.err_eq_ok.mp he.symm
    have hx := (put_ok_iff <| h.executed k before after e hk).mp he
    have : 0 < call.changes :=
      List.countP_pos_iff.mpr ⟨_, List.mem_of_getElem? hk, by simpa [Attempt.changes] using hx⟩
    have := h.once
    simp only [changes, hcall, Option.elim]
    omega
  case version =>
    intro i hr j
    refine changes_eq_zero b (fun i hr => ?_) hr j
    obtain ⟨call, hcall, hd⟩ := returned_iff.mp hr
    have h := (hs i call hcall).right
    obtain ⟨k, first, before, after, e, _, hk, he, hf⟩ := h.done _ hd
    cases first <;> cases e <;> simp [Clerk.err] at he
    exact single_changes h hcall (hf rfl) hk (by decide)
  case noKey =>
    intro i hr j
    refine changes_eq_zero b (fun i hr => ?_) hr j
    obtain ⟨call, hcall, hd⟩ := returned_iff.mp hr
    have h := (hs i call hcall).right
    obtain ⟨k, first, before, after, e, hl, hk, he, hf⟩ := h.done _ hd
    have he : e = .errNoKey := by cases first <;> cases e <;> simp [Clerk.err] at he ⊢
    subst he
    have hk₀ := hp i call hcall k before after hk
    exact single_changes h hcall (by omega) hk (by decide)
  case maybe =>
    intro i err hr
    obtain ⟨call, hcall, hd⟩ := returned_iff.mp hr
    have h := (hs i call hcall).right
    obtain ⟨k, first, before, after, e, _, hk, he, _⟩ := h.done _ hd
    obtain rfl | rfl | rfl := put_err <| h.executed k before after e hk <;>
      cases first <;> simp [he, Clerk.err]

end

theorem put_result {K V : Type} [DecidableEq K] [DecidableEq V] (args : PutArgs K V) :
    (∀ b : (service clerk args).Behavior, b.Avoids (Absent args) → Reports b) ∧
    (∀ servers leader, ∀ b : (service (KvRaft.clerk servers leader) args).Behavior,
      b.Avoids (Absent args) → Reports b) ∧
    (∀ servers, ∀ b : (service (ShardKv.clerk servers) args).Behavior,
      b.Avoids (Absent args) → Reports b) :=
  ⟨fun b => reports b clerk_careful,
    fun servers leader b => reports b (KvRaft.clerk_careful servers leader),
    fun servers b => reports b (ShardKv.clerk_careful servers)⟩

section Runs

variable {ι : Type} (i : ι)

-- The put that the following runs are about. The key has to exist with version 1.
def second : PutArgs Nat Nat where
  key     := 0
  value   := 5
  version := 1

-- The first attempt is executed, but its reply is lost.
def resent : List (Event ι Nat Nat) :=
  [.other ⟨0, 9, 0⟩, .put, .call (.execute 0), .call (.lose i), .call (.execute 1),
    .call (.respond i)]

-- The first attempt is delayed until another client has changed the key.
def overtaken : List (Event ι Nat Nat) :=
  [.other ⟨0, 9, 0⟩, .put, .call (.lose i), .other ⟨0, 8, 1⟩, .call (.execute 1),
    .call (.respond i), .call (.execute 0)]

-- The first attempt is delayed until another client has created the key.
def premature : List (Event ι Nat Nat) :=
  [.put, .call (.lose i), .call (.execute 1), .call (.respond i), .other ⟨0, 9, 0⟩,
    .call (.execute 0)]

end Runs

instance {σ ι : Type} (s : Service σ Nat Nat) (e : Event ι Nat Nat) :
    Decidable (s.Absent second e) :=
  match e with
  | .call (.execute k) =>
    inferInstanceAs <| Decidable <| k ≠ 0 ∧ s.kv second.key = none ∧ second.version ≠ 0
  | .put | .other _ | .call (.respond _) | .call (.lose _) | .call (.wrongLeader _)
  | .call (.wrongGroup _) => isFalse id

theorem put_result_maybe :
    (∃ b b' : (service clerk second).Behavior, Reports b ∧ Reports b' ∧
      (b.state 6).Returned .errMaybe ∧ (b.state 6).changes = 1 ∧
      (b'.state 6).Returned .errMaybe ∧ (b'.state 7).changes = 0) ∧
    (∃ b b' : (service (KvRaft.clerk 3 2) second).Behavior, Reports b ∧ Reports b' ∧
      (b.state 6).Returned .errMaybe ∧ (b.state 6).changes = 1 ∧
      (b'.state 6).Returned .errMaybe ∧ (b'.state 7).changes = 0) ∧
    (∃ b b' : (service (ShardKv.clerk 1) second).Behavior, Reports b ∧ Reports b' ∧
      (b.state 6).Returned .errMaybe ∧ (b.state 6).changes = 1 ∧
      (b'.state 6).Returned .errMaybe ∧ (b'.state 7).changes = 0) := by
  refine ⟨⟨.ofActions _ (resent ()) (by decide), .ofActions _ (overtaken ()) (by decide),
      ?kvsrv, ?kvsrv', rfl, rfl, rfl, rfl⟩,
    ⟨.ofActions _ (resent ()) (by decide), .ofActions _ (overtaken ()) (by decide),
      ?kvraft, ?kvraft', rfl, rfl, rfl, rfl⟩,
    ⟨.ofActions _ (resent ⟨false, 3⟩) (by decide), .ofActions _ (overtaken ⟨false, 1⟩) (by decide),
      ?shardgrp, ?shardgrp', rfl, rfl, rfl, rfl⟩⟩
  case kvsrv | kvsrv' =>
    exact (put_result second).left _ <| System.Behavior.avoids_ofActions (by decide)
  case kvraft | kvraft' =>
    exact (put_result second).right.left _ _ _ <| System.Behavior.avoids_ofActions (by decide)
  case shardgrp | shardgrp' =>
    exact (put_result second).right.right _ _ <| System.Behavior.avoids_ofActions (by decide)

theorem put_errNoKey_changes :
    (∃ b : (service clerk second).Behavior,
      (b.state 4).Returned .errNoKey ∧ (b.state 4).changes = 0 ∧ (b.state 6).changes = 1) ∧
    (∃ b : (service (KvRaft.clerk 3 2) second).Behavior,
      (b.state 4).Returned .errNoKey ∧ (b.state 4).changes = 0 ∧ (b.state 6).changes = 1) ∧
    (∃ b : (service (ShardKv.clerk 3) second).Behavior,
      (b.state 4).Returned .errNoKey ∧ (b.state 4).changes = 0 ∧ (b.state 6).changes = 1) :=
  ⟨⟨.ofActions _ (premature ()) (by decide), rfl, rfl, rfl⟩,
    ⟨.ofActions _ (premature ()) (by decide), rfl, rfl, rfl⟩,
    ⟨.ofActions _ (premature ⟨false, 3⟩) (by decide), rfl, rfl, rfl⟩⟩

end Service
end KvSrv
