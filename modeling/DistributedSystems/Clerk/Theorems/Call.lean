import DistributedSystems.Clerk.Basic

namespace KvSrv

def KVServer.version {K V : Type} (kv : KVServer K V) (key : K) : Nat :=
  (kv key).elim 0 Data.version

section Put

variable {K V : Type} {entry after : Option (Data V)} {value : V} {version : Nat} {err : Err}

theorem put_err (h : put entry value version = (after, err)) :
    err = .ok ∨ err = .errVersion ∨ err = .errNoKey := by
  obtain ⟨_, he⟩ | ⟨_, _, he⟩ | ⟨_, _, he⟩ := put_cases entry value version <;>
    cases he.symm.trans h <;> simp

theorem put_ok_iff (h : put entry value version = (after, err)) : err = .ok ↔ entry ≠ after := by
  obtain ⟨hv, he⟩ | ⟨_, _, he⟩ | ⟨_, _, he⟩ := put_cases entry value version <;>
    cases he.symm.trans h <;> simp
  rintro rfl
  simp at hv

theorem put_errNoKey (h : put entry value version = (after, .errNoKey)) :
    entry = none ∧ version ≠ 0 := by
  obtain ⟨_, he⟩ | ⟨_, _, he⟩ | ⟨hv, hn, he⟩ := put_cases entry value version <;>
    cases he.symm.trans h
  rw [hn] at hv
  exact ⟨hn, hv.symm⟩

theorem put_errVersion (h : put entry value version = (after, .errVersion)) : entry ≠ none := by
  obtain ⟨_, he⟩ | ⟨_, hn, he⟩ | ⟨_, _, he⟩ := put_cases entry value version <;>
    cases he.symm.trans h
  exact hn

namespace KVServer

variable [DecidableEq K] {kv kv' : KVServer K V} {key : K}

theorem put_eq (h : kv.put key value version = (kv', err)) :
    KvSrv.put (kv key) value version = (kv' key, err) := by
  simp only [KVServer.put, Prod.mk.injEq] at h
  rw [←h.left, ←h.right, Function.update_self]

theorem put_of_ne {key' : K} (h : kv.put key value version = (kv', err)) (hk : key' ≠ key) :
    kv' key' = kv key' := by
  simp only [KVServer.put, Prod.mk.injEq] at h
  rw [←h.left, Function.update_of_ne hk]

theorem put_cases (h : kv.put key value version = (kv', err)) :
    (err = .ok ∧ kv.version key = version ∧ kv' key = some ⟨version + 1, value⟩) ∨
    (err ≠ .ok ∧ kv.version key ≠ version ∧ kv' key = kv key) := by
  obtain ⟨hv, he⟩ | ⟨hv, _, he⟩ | ⟨hv, _, he⟩ := KvSrv.put_cases (kv key) value version <;>
    have ⟨hk, hr⟩ := Prod.mk.inj <| he.symm.trans <| put_eq h
  · exact .inl ⟨hr.symm, hv, hk.symm⟩
  all_goals exact .inr ⟨hr ▸ nofun, hv, hk.symm⟩

-- Versions only grow, and a request that has changed its entry is behind them.
theorem put_version (h : kv.put key value version = (kv', err)) :
    (kv key ≠ kv' key ∧ kv.version key = version ∧ kv'.version key = version + 1) ∨
    (kv' key = kv key) := by
  obtain ⟨hr, hv, hk⟩ | ⟨_, _, hk⟩ := put_cases h
  · refine .inl ⟨(put_ok_iff <| put_eq h).mp hr, hv, ?_⟩
    rw [KVServer.version, hk]
    rfl
  · exact .inr hk

theorem put_version_le (h : kv.put key value version = (kv', err)) (key' : K) :
    kv.version key' ≤ kv'.version key' := by
  by_cases hk : key' = key
  case neg => exact Nat.le_of_eq <| congrArg (·.elim 0 Data.version) (put_of_ne h hk).symm
  case pos =>
    subst hk
    obtain ⟨_, hv, hv'⟩ | he := put_version h
    · omega
    · exact Nat.le_of_eq <| congrArg (·.elim 0 Data.version) he.symm

end KVServer
end Put

-- What the three clerks have in common. The flag says that the call is the first one.
structure Clerk.Careful {σ ι : Type} (C : Clerk σ ι) (isFirstTry : σ → Bool) : Prop where
  start    : ∀ err, C.start ≠ .done err
  resent   : ∀ s reply i s', C.proceed s reply i = .call s' → isFirstTry s' = false
  answered : ∀ s reply i err, C.proceed s reply i = .done err →
    ∃ e, reply = some e ∧ e ∉ C.refusals ∧ err = Clerk.err (isFirstTry s) e

namespace Call

variable {σ ι K V : Type} {C : Clerk σ ι} {kv kv' : KVServer K V} {call call' : Call σ K V}

theorem follow_call (s : σ) : (call.follow (.call s)).attempts = call.attempts ++ [.sent] :=
  rfl

theorem follow_attempts (call : Call σ K V) (outcome : Outcome σ) :
    (call.follow outcome).attempts = call.attempts ++ [.sent] ∨
    (call.follow outcome).attempts = call.attempts := by
  cases outcome
  case call => exact .inl rfl
  all_goals exact .inr rfl

-- A new request has not been executed.
theorem follow_executed {k : Nat} {outcome : Outcome σ} {before after : Option (Data V)} {err : Err}
    (h : (call.follow outcome).attempts[k]? = some (.executed before after err)) :
    call.attempts[k]? = some (.executed before after err) := by
  cases call.follow_attempts outcome
  case inr he => exact he ▸ h
  case inl he =>
    rw [he, List.getElem?_append] at h
    split_ifs at h with hk
    case pos => exact h
    case neg =>
      rw [List.getElem?_singleton] at h
      split_ifs at h
      cases h

theorem follow_changes [DecidableEq V] (call : Call σ K V) (outcome : Outcome σ) :
    (call.follow outcome).changes = call.changes := by
  cases call.follow_attempts outcome <;> simp_all [changes, Attempt.changes]

theorem make_changes [DecidableEq V] (args : PutArgs K V) : (make C args).changes = 0 :=
  follow_changes _ C.start

@[simp]
theorem set_args (k : Nat) (attempt : Attempt V) : (call.set k attempt).args = call.args :=
  rfl

theorem set_changes [DecidableEq V] {k : Nat} {attempt : Attempt V}
    (h : call.attempts[k]? = some .sent) :
    (call.set k attempt).changes = call.changes + attempt.changes.toNat := by
  have ⟨hk, he⟩ := List.getElem?_eq_some_iff.mp h
  rw [changes, set, List.countP_set hk, he]
  cases attempt.changes <;> simp [changes, Attempt.changes]

-- All that can happen to a call.
inductive Stepped [DecidableEq K] (C : Clerk σ ι) (kv : KVServer K V) (call : Call σ K V) :
    Event ι → KVServer K V → Call σ K V → Prop
  | executed (k) {kv' err} (hk : call.attempts[k]? = some .sent)
    (hp : kv.put call.args.key call.args.value call.args.version = (kv', err)) :
    Stepped C kv call (.execute k) kv'
      (call.set k (.executed (kv call.args.key) (kv' call.args.key) err))
  | answered (i) {s before after err} (hs : call.outcome = .call s)
    (hl : call.attempts.getLast? = some (.executed before after err)) :
    Stepped C kv call (.respond i) kv (call.follow (C.proceed s (some err) i))
  | refused (e i) {s reply} (hs : call.outcome = .call s) (hr : ∀ err ∈ reply, err ∈ C.refusals) :
    Stepped C kv call e kv (call.follow (C.proceed s reply i))
  | rejected (i) {s} (hs : call.outcome = .call s) (hl : call.attempts.getLast? = some .sent)
    (hr : .errWrongGroup ∈ C.refusals) :
    Stepped C kv call (.wrongGroup i) kv
      ((call.set (call.attempts.length - 1) .rejected).follow (C.proceed s (some .errWrongGroup) i))

theorem next_stepped [DecidableEq K] {e : Event ι} (h : call.next C kv e = some (kv', call')) :
    Stepped C kv call e kv' call' := by
  cases e <;> simp only [next] at h
  case execute k =>
    split at h
    case h_2 => cases h
    case h_1 hk =>
      cases h
      exact .executed k hk rfl
  case respond i =>
    split at h
    case h_2 => cases h
    case h_1 hs hl =>
      cases h
      exact .answered i hs hl
  case lose i =>
    split at h
    case h_2 => cases h
    case h_1 hs =>
      cases h
      exact .refused _ i hs nofun
  case wrongLeader i =>
    split at h
    case h_2 => cases h
    case h_1 hs =>
      split_ifs at h with hr
      cases h
      exact .refused _ i hs <| by simpa using hr
  case wrongGroup i =>
    split at h
    case h_2 => cases h
    case h_1 hs hl =>
      split_ifs at h with hr
      cases h
      exact .rejected i hs hl hr

-- What is known of a call while the map is the given one.
structure Sound [DecidableEq K] [DecidableEq V] (isFirstTry : σ → Bool) (kv : KVServer K V)
    (call : Call σ K V) : Prop where
  executed : ∀ (k : Nat) before after err, call.attempts[k]? = some (.executed before after err) →
    put before call.args.value call.args.version = (after, err)
  once     : call.changes ≤ 1
  passed   : call.changes ≠ 0 → call.args.version < kv.version call.args.key
  first    : ∀ s, call.outcome = .call s → isFirstTry s = true → call.attempts.length = 1
  done     : ∀ err, call.outcome = .done err →
    ∃ (k : Nat) (first : Bool) (before after : _) (e : Err),
    k + 1 = call.attempts.length ∧ call.attempts[k]? = some (.executed before after e) ∧
    err = Clerk.err first e ∧ (first = true → call.attempts.length = 1)

namespace Sound

variable [DecidableEq K] [DecidableEq V] {isFirstTry : σ → Bool}

theorem make (hc : C.Careful isFirstTry) (args : PutArgs K V) :
    (Call.make C args).Sound isFirstTry kv where
  executed k before after err h := nomatch follow_executed h
  once     := make_changes (C := C) args ▸ zero_le_one
  passed h := absurd (make_changes args) h
  first s hs _ := by
    have hs : C.start = .call s := hs
    simp [Call.make, hs, follow_call]
  done err hd := absurd hd (hc.start err)

-- The map moves on, by a request of another client.
theorem mono (h : call.Sound isFirstTry kv)
    (hv : kv.version call.args.key ≤ kv'.version call.args.key) : call.Sound isFirstTry kv' :=
  { h with passed := fun hc => (h.passed hc).trans_le hv }

-- The clerk does not give up, or it has got an answer of the map.
theorem follow (h : call.Sound isFirstTry kv) (hc : C.Careful isFirstTry) {s : σ}
    {reply : Option Err} {i : ι} (hs : call.outcome = .call s)
    (ha : ∀ e ∈ reply, e ∉ C.refusals → ∃ before after,
      call.attempts.getLast? = some (.executed before after e)) :
    (call.follow (C.proceed s reply i)).Sound isFirstTry kv where
  executed k before after err hk := h.executed k before after err (follow_executed hk)
  once     := call.follow_changes _ ▸ h.once
  passed   := call.follow_changes _ ▸ h.passed
  first s' hs' hf := by
    have hs' : C.proceed s reply i = .call s' := hs'
    exact absurd (hc.resent _ _ _ _ hs') (by simp [hf])
  done err hd := by
    have hd : C.proceed s reply i = .done err := hd
    have ⟨e, hr, hn, he⟩ := hc.answered _ _ _ _ hd
    have ⟨before, after, hl⟩ := ha e hr hn
    have hne : call.attempts ≠ [] := by
      rintro hne
      simp [hne] at hl
    have hk : call.attempts.length - 1 + 1 = call.attempts.length :=
      Nat.sub_add_cancel (List.length_pos_iff.mpr hne)
    rw [List.getLast?_eq_getElem?] at hl
    rw [hd]
    exact ⟨_, isFirstTry s, before, after, e, hk, hl, he, h.first s hs⟩

-- The attempt which was answered is not the one that still waits at the server.
theorem done_set (h : call.Sound isFirstTry kv) {k : Nat} (hk : call.attempts[k]? = some .sent)
    (attempt : Attempt V) (err : Err) (hd : (call.set k attempt).outcome = .done err) :
    ∃ (k' : Nat) (first : Bool) (before after : _) (e : Err),
      k' + 1 = (call.set k attempt).attempts.length ∧
      (call.set k attempt).attempts[k']? = some (.executed before after e) ∧
      err = Clerk.err first e ∧ (first = true → (call.set k attempt).attempts.length = 1) := by
  have ⟨k', first, before, after, e, hl, he, hx⟩ := h.done err hd
  have hne : k ≠ k' := by
    rintro rfl
    cases hk.symm.trans he
  refine ⟨k', first, before, after, e, by simpa [Call.set] using hl, ?_,
    by simpa [Call.set] using hx⟩
  rwa [Call.set, List.getElem?_set_ne hne]

theorem reject (h : call.Sound isFirstTry kv) {k : Nat} (hk : call.attempts[k]? = some .sent) :
    (call.set k .rejected).Sound isFirstTry kv where
  executed k' before after err he := by
    simp only [Call.set, List.getElem?_set] at he
    split_ifs at he
    · cases he
    · exact h.executed _ _ _ _ he
  once     := by simpa [set_changes hk, Attempt.changes] using h.once
  passed   := by simpa [set_changes hk, Attempt.changes] using h.passed
  first s hs hf := by simpa [Call.set] using h.first s hs hf
  done := h.done_set hk _

theorem execute (h : call.Sound isFirstTry kv) {k : Nat} {err : Err}
    (hk : call.attempts[k]? = some .sent)
    (hp : kv.put call.args.key call.args.value call.args.version = (kv', err)) :
    (call.set k (.executed (kv call.args.key) (kv' call.args.key) err)).Sound isFirstTry kv' where
  executed k' before after err he := by
    simp only [Call.set, List.getElem?_set] at he
    split_ifs at he
    · cases he
      exact KVServer.put_eq hp
    · exact h.executed _ _ _ _ he
  once     := by
    rw [set_changes hk]
    cases KVServer.put_version hp
    case inr he => simpa [Attempt.changes, he] using h.once
    case inl hv =>
      -- An earlier change would have made the version too large for this one.
      have hc : call.changes = 0 := by
        by_contra hc
        have := h.passed hc
        omega
      simp [hc, Bool.toNat_le]
  passed   := by
    intro hc
    change call.args.version < kv'.version call.args.key
    cases KVServer.put_version hp
    case inl hv => omega
    case inr he =>
      rw [set_changes hk] at hc
      have := h.passed (by simpa [Attempt.changes, he] using hc)
      rwa [KVServer.version, he]
  first s hs hf := by simpa [Call.set] using h.first s hs hf
  done := h.done_set hk _

theorem next {e : Event ι} (h : call.Sound isFirstTry kv) (hc : C.Careful isFirstTry)
    (hs : Stepped C kv call e kv' call') : call'.Sound isFirstTry kv' := by
  cases hs
  case executed hk hp => exact h.execute hk hp
  case answered before after _ hs hl =>
    refine h.follow hc hs ?_
    rintro _ ⟨⟩ _
    exact ⟨_, _, hl⟩
  case refused hs hr => exact h.follow hc hs fun e he hn => absurd (hr e he) hn
  case rejected i s hs hl hr =>
    rw [List.getLast?_eq_getElem?] at hl
    refine (h.reject hl).follow hc hs ?_
    rintro _ ⟨⟩ hn
    exact absurd hr hn

end Sound

-- An attempt has been executed with the given result.
def Got (call : Call σ K V) (err : Err) : Prop :=
  ∃ before after, .executed before after err ∈ call.attempts

theorem not_got_make (args : PutArgs K V) (err : Err) : ¬(make C args).Got err := by
  rintro ⟨before, after, h⟩
  have ⟨k, hk⟩ := List.mem_iff_getElem?.mp h
  cases follow_executed hk

theorem Sound.got [DecidableEq K] [DecidableEq V] {isFirstTry : σ → Bool} {err : Err}
    (h : call.Sound isFirstTry kv) (hd : call.outcome = .done err) :
    ∃ first e, call.Got e ∧ err = Clerk.err first e ∧
      (e = .ok ∨ e = .errVersion ∨ e = .errNoKey) := by
  have ⟨k, first, before, after, e, _, hk, he, _⟩ := h.done err hd
  exact ⟨first, e, ⟨before, after, List.mem_of_getElem? hk⟩, he, put_err <| h.executed _ _ _ _ hk⟩

theorem got_of_follow {outcome : Outcome σ} {err : Err} (h : (call.follow outcome).Got err) :
    call.Got err := by
  have ⟨before, after, h⟩ := h
  have ⟨k, hk⟩ := List.mem_iff_getElem?.mp h
  exact ⟨before, after, List.mem_of_getElem? (follow_executed hk)⟩

-- The map and the results only change if an attempt is executed.
theorem Stepped.got [DecidableEq K] {e : Event ι} (h : Stepped C kv call e kv' call') :
    (kv' = kv ∧ ∀ err, call'.Got err → call.Got err) ∨
    (∃ k err, e = .execute k ∧
      kv.put call.args.key call.args.value call.args.version = (kv', err) ∧
      ∀ err', call'.Got err' → call.Got err' ∨ err' = err) := by
  cases h
  case answered | refused => exact .inl ⟨rfl, fun _ h => got_of_follow h⟩
  case rejected =>
    refine .inl ⟨rfl, fun err h => ?_⟩
    have ⟨before, after, h⟩ := got_of_follow h
    cases List.mem_or_eq_of_mem_set h
    case inl h => exact ⟨before, after, h⟩
    case inr h => cases h
  case executed k err hk hp =>
    refine .inr ⟨k, err, rfl, hp, fun err' h => ?_⟩
    have ⟨before, after, h⟩ := h
    cases List.mem_or_eq_of_mem_set h
    case inl h => exact .inl ⟨before, after, h⟩
    case inr h =>
      cases h
      exact .inr rfl

-- A call that has returned does not do anything any more.
theorem Stepped.done [DecidableEq K] {e : Event ι} {err : Err} (h : Stepped C kv call e kv' call')
    (hd : call.outcome = .done err) : call'.outcome = .done err := by
  cases h
  case executed => exact hd
  all_goals cases hd.symm.trans ‹call.outcome = .call _›

theorem Stepped.args [DecidableEq K] {e : Event ι} (h : Stepped C kv call e kv' call') :
    call'.args = call.args := by
  cases h <;> rfl

theorem Stepped.changes_le [DecidableEq K] [DecidableEq V] {e : Event ι}
    (h : Stepped C kv call e kv' call') : call.changes ≤ call'.changes := by
  cases h
  case executed hk _ => simp [set_changes hk]
  case rejected hl _ =>
    rw [List.getLast?_eq_getElem?] at hl
    simp [follow_changes, set_changes hl]
  all_goals exact (follow_changes _ _).ge

end Call

theorem clerk_careful : clerk.Careful id where
  start    := nofun
  resent   := by
    rintro s (_ | err) i s' h <;> cases h
    rfl
  answered := by
    rintro s (_ | e) i err h <;> cases h
    exact ⟨e, rfl, nofun, rfl⟩

end KvSrv

theorem KvRaft.clerk_careful (servers : Nat) (leader : Fin servers) :
    (clerk servers leader).Careful Clerk.isFirstTry where
  start    := nofun
  resent   := by
    rintro s (_ | err) i s' h <;> simp only [clerk] at h
    case none =>
      cases h
      rfl
    case some =>
      split_ifs at h
      cases h
      rfl
  answered := by
    rintro s (_ | e) i err h <;> simp only [clerk] at h
    case none => cases h
    case some =>
      split_ifs at h with he
      cases h
      exact ⟨e, rfl, by simpa [clerk] using he, rfl⟩

namespace Shardgrp.Clerk

open KvSrv

theorem loop_inl {ck ck' : Clerk} {answer : Option Err} {done : Bool}
    (h : ck.loop answer done = .inl ck') :
    ck'.isFirstTry = false := by
  simp only [loop, select] at h
  split_ifs at h <;> cases h <;> rfl

theorem loop_some {ck : Clerk} {answer : Option Err} {done : Bool} {err : Err}
    (h : ck.loop answer done = .inr (some err)) : answer = some err ∧ err ≠ .errWrongLeader := by
  simp only [loop, select] at h
  by_cases hn : answer = none ∨ answer.or ck.reply = some .errWrongLeader
  case pos =>
    rw [if_pos hn] at h
    split_ifs at h <;> cases h
  case neg =>
    rw [if_neg hn] at h
    cases answer
    case none   => simp at hn
    case some e =>
      cases h
      exact ⟨rfl, by simpa using hn⟩

theorem proceed_inl {ck ck' : Clerk} {answer : Option Err} {done : Bool}
    (h : ck.proceed answer done = .inl ck') : ck'.isFirstTry = false := by
  cases hl : ck.loop answer done <;>
    simp only [proceed, hl, Sum.map_inl, Sum.map_inr, id_eq] at h <;> cases h
  exact loop_inl hl

theorem proceed_inr {ck : Clerk} {answer : Option Err} {done : Bool} {err : Err}
    (h : ck.proceed answer done = .inr (some err)) :
    ∃ e, answer = some e ∧ e ≠ .errWrongLeader ∧ err = Clerk.err ck.isFirstTry e := by
  cases hl : ck.loop answer done <;> simp only [proceed, hl, Sum.map_inl, Sum.map_inr] at h
  case inl        => cases h
  case inr result =>
    obtain ⟨e, rfl, rfl⟩ := Option.map_eq_some_iff.mp (Sum.inr.inj h)
    obtain ⟨ha, hw⟩ := loop_some hl
    exact ⟨e, ha, hw, rfl⟩

end Shardgrp.Clerk

namespace ShardKv

open KvSrv

-- Both of the flags have to be set.
def Clerk.first (ck : Clerk) : Bool :=
  ck.isFirstTry && ck.shardGroupClient.isFirstTry

theorem Clerk.begin_call {isFirstTry : Bool} {servers : Nat} {ck : Clerk}
    (h : Clerk.begin isFirstTry servers = .call ck) : ck.isFirstTry = isFirstTry := by
  cases servers <;> cases h
  rfl

theorem Clerk.begin_ne_done {isFirstTry : Bool} {servers : Nat} {err : Err} :
    Clerk.begin isFirstTry servers ≠ .done err := by
  cases servers <;> nofun

theorem clerk_careful (servers : Nat) : (clerk servers).Careful Clerk.first where
  start _  := Clerk.begin_ne_done
  resent   := by
    intro s reply i s' h
    simp only [clerk] at h
    split at h
    case h_1 hp =>
      cases h
      simp [Clerk.first, Shardgrp.Clerk.proceed_inl hp]
    case h_4 => cases h
    all_goals simp [Clerk.first, Clerk.begin_call h]
  answered := by
    intro s reply i err h
    simp only [clerk] at h
    split at h
    case h_1           => cases h
    case h_2           => exact absurd h Clerk.begin_ne_done
    case h_3           => exact absurd h Clerk.begin_ne_done
    case h_4 err' hne hp =>
      cases h
      have ⟨e, hr, hl, he⟩ := Shardgrp.Clerk.proceed_inr hp
      refine ⟨e, hr, ?_, ?_⟩
      · rintro hm
        simp only [clerk, List.mem_cons, List.not_mem_nil, or_false] at hm
        obtain rfl | rfl := hm
        · exact hl rfl
        · cases hf : s.shardGroupClient.isFirstTry <;> simp [hf, Clerk.err] at he <;> exact hne he
      · subst he
        cases h₁ : s.isFirstTry <;> cases h₂ : s.shardGroupClient.isFirstTry <;> cases e <;>
          simp [Clerk.first, h₁, h₂, Clerk.err]

end ShardKv
