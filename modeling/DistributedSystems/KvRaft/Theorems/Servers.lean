import DistributedSystems.KvRaft.Servers
import DistributedSystems.KvTest.Theorems.Linearizability
import DistributedSystems.Rsm.Theorems.Derived
import DistributedSystems.Rsm.Theorems.Replay

namespace KvRaft

open KvSrv KvTest

variable {P K V : Type}

section DoOp

variable [DecidableEq K] {kv : KVServer K V} {input : KvInput K V}

theorem doOp_fst : (kv.doOp (.of input)).fst = (KvServer.handle kv input).fst := by
  cases input
  case get key => simp only [Req.of, KVServer.doOp, KvServer.handle]; cases kv key <;> rfl
  case put key value version =>
    simp only [Req.of, KVServer.doOp, KvServer.handle, KvSrv.KVServer.put]
    cases hk : kv key <;> simp only [KvSrv.put, Data.put] <;> split_ifs <;> simp [←hk]

-- Keys are never deleted.
theorem doOp_covered (req : Req K V) : kv.Covered (kv.doOp req).fst := by
  intro key hk
  cases req <;> simp only [KVServer.doOp] <;> split <;> try split_ifs
  all_goals first
    | exact hk
    | simp only [Function.update_apply]; split_ifs <;> simp [hk]

theorem doOp_get (kv : KVServer K V) (key : K) :
    (kv.doOp (.get key)).snd = .get (KvSrv.get (kv key)) := by
  simp only [KVServer.doOp]
  cases kv key <;> rfl

theorem doOp_put (kv : KVServer K V) (key : K) (value : V) (version : Nat) :
    (kv.doOp (.put key value version)).snd = .put (KvSrv.put (kv key) value version).snd := by
  simp only [KVServer.doOp]
  cases kv key <;> simp only [KvSrv.put, Data.put] <;> split_ifs <;> rfl

theorem doOp_snd : (kv.doOp (.of input)).snd.output = (KvServer.handle kv input).snd := by
  cases input
  case get key               => rw [Req.of, doOp_get]; rfl
  case put key value version => rw [Req.of, doOp_put]; rfl

-- The type assertion of the handler succeeds.
theorem reply_doOp {r : Rsm.Return P (Req K V) (Resp V)} (hr : r.err = .ok)
    (h : r.result = some (kv.doOp r.call.op.req).snd) :
    reply r = some (kv.doOp r.call.op.req).snd.output := by
  rw [reply, if_pos hr, h]
  cases r.call.op.req
  case get key               => simp [doOp_get, Resp.output]
  case put key value version => simp [doOp_put, Resp.output]

-- The map after the first operations of a sequence.
def stateAt (sequence : List (Rsm.Call P (Req K V))) (i : Nat) : KVServer K V :=
  (sequence.take i).foldl (fun kv call => (kv.doOp call.op.req).fst) .start

variable {sequence : List (Rsm.Call P (Req K V))} {i j : Nat} {call : Rsm.Call P (Req K V)}

theorem stateAt_succ (h : sequence[i]? = some call) :
    stateAt sequence (i + 1) = ((stateAt sequence i).doOp call.op.req).fst := by
  rw [stateAt, List.take_add_one, h]
  simp [stateAt]

theorem stateAt_append (h : i ≤ sequence.length) (calls : List (Rsm.Call P (Req K V))) :
    stateAt (sequence ++ calls) i = stateAt sequence i := by
  rw [stateAt, List.take_append_of_le_length h, stateAt]

theorem stateAt_covered (h : i ≤ j) : (stateAt sequence i).Covered (stateAt sequence j) := by
  induction h
  case refl        => exact fun _ => id
  case step j _ hi =>
    cases hc : sequence[j]?
    case some call =>
      rw [stateAt_succ hc]
      exact fun key hk => doOp_covered call.op.req key (hi key hk)
    case none =>
      have hl := List.getElem?_eq_none_iff.mp hc
      simpa [stateAt, List.take_of_length_le hl,
        List.take_of_length_le (Nat.le_succ_of_le hl)] using hi

-- A snapshot has all the keys of the map that it replaces.
theorem stateAt_of_derives {kv : KVServer K V}
    (h : (stateMachine K V).Derives (sequence.map (·.op.req)) i kv) : kv = stateAt sequence i := by
  induction h
  case init => rfl
  case doOp i req _ _ _ _ hr hd hi =>
    obtain ⟨call, hc, rfl⟩ : ∃ call, sequence[i]? = some call ∧ call.op.req = req := by
      simpa using hr
    rw [stateAt_succ hc, ←hi]
    exact (congrArg Prod.fst (Option.some.inj hd)).symm
  case restore hle hi hi' =>
    rw [hi, hi']
    exact replays.restore (stateAt_covered hle)

end DoOp

end KvRaft

namespace Rsm

variable {σ P Req Res D : Type} {sm : StateMachine σ Req Res D} {s s' : State σ P Req Res}
  {e : Event P Req D}

-- An id is used only once in an incarnation.
def RSM.Aged (r r' : RSM σ P Req Res) : Prop :=
  (r.incarnation < r'.incarnation) ∨ (r.incarnation = r'.incarnation ∧ r.id ≤ r'.id)

theorem RSM.Aged.refl (r : RSM σ P Req Res) : r.Aged r :=
  .inr ⟨rfl, le_rfl⟩

namespace State

variable [DecidableEq P]

theorem set_aged {p : P} {r : RSM σ P Req Res} (h : (s.rsm p).Aged r) (q : P) :
    (s.rsm q).Aged ((s.set p r).rsm q) := by
  by_cases hq : q = p
  case pos => simpa [set, hq] using h
  case neg => simpa [set, hq] using RSM.Aged.refl _

theorem submit_aged (s : State σ P Req Res) (p : P) (req : Req) (start : Option (Nat × Nat))
    (q : P) :
    (s.rsm q).Aged ((s.submit p req start).rsm q) := by
  rcases start with _ | ⟨index, initialTerm⟩
  · exact s.set_aged (r := { s.rsm p with id := (s.rsm p).id + 1 }) (.inr ⟨rfl, Nat.le_succ _⟩) q
  · exact s.set_aged (r := (s.rsm p).register _ index initialTerm) (.inr ⟨rfl, Nat.le_succ _⟩) q

theorem Stepped.aged (h : Stepped sm s e s') (q : P) : (s.rsm q).Aged (s'.rsm q) := by
  cases h
  case refused p req                   => exact s.submit_aged p req none q
  case started p req index initialTerm => exact s.submit_aged p req (some (index, initialTerm)) q
  case received p id w result hw hc    =>
    have h₁ := s.set_aged (p := p)
      (r := { s.rsm p with channel := Function.update (s.rsm p).channel id none })
      (.inr ⟨rfl, le_rfl⟩) q
    by_cases hq : q = p
    case pos => simp [respond, set, RSM.unregister, hq, RSM.Aged]
    case neg => simpa [respond, set, hq] using h₁
  case deposed p id _ _ w hw =>
    exact s.set_aged (r := (s.rsm p).unregister w) (.inr ⟨rfl, le_rfl⟩) q
  case restarted p index data =>
    exact s.set_aged (r := .make sm ((s.rsm p).incarnation + 1) index data)
      (.inl (Nat.lt_succ_self _)) q
  case waited    => exact .refl _
  case committed => exact .refl _
  all_goals
    refine set_aged ?_ q
    exact .inr ⟨rfl, le_rfl⟩

-- `Submit` returns no other errors.
theorem Stepped.returned (h : Stepped sm s e s') {r : Return P Req Res} (hr : r ∈ s'.returned) :
    r ∈ s.returned ∨ r.err = .ok ∨ r.err = .errWrongLeader := by
  cases h
  case refused | received | deposed =>
    rcases List.mem_cons.mp hr with rfl | hr
    · simp
    · exact .inl hr
  all_goals exact .inl hr

end State
end Rsm

namespace KvRaft

open KvSrv KvTest

variable {P K V : Type} [DecidableEq K] {sent : List (KvInput K V)} {s s' : Servers P K V}

namespace Servers

section Stepped

variable [DecidableEq P] {e : Event P K V}

-- What a step can do.
inductive Stepped (sent : List (KvInput K V)) (s : Servers P K V) :
    Event P K V → Servers P K V → Prop
  | handled {k p start input} (hi : sent[k]? = some input) (hn : s.calls k = none) :
    Stepped sent s (.handle k p start) (s.handle k p (.of input) start)
  | stepped {e f rsm} (h : s.rsm.next (stateMachine K V) f = some rsm)
    (hp : f.Permitted s.snapshots) :
    Stepped sent s e { s with rsm }
  | snapshotted {p} (hr : (s.rsm.rsm p).reader = .receiving) :
    Stepped sent s (.snapshot p)
      { s with
        snapshots := s.snapshots ++ [((s.rsm.rsm p).lastApplied, (s.rsm.rsm p).sm.snapshot)] }

theorem step_eq {f : Rsm.Event P (Req K V) (K → Option (Data V))} (h : s.step f = some s') :
    ∃ rsm, s.rsm.next (stateMachine K V) f = some rsm ∧ s' = { s with rsm } := by
  have ⟨rsm, hn, hs⟩ := Option.map_eq_some_iff.mp h
  exact ⟨rsm, hn, hs.symm⟩

theorem stepped (h : s.next sent e = some s') : Stepped sent s e s' := by
  cases e
  case handle k p start =>
    obtain ⟨input, hi, h⟩ := Option.bind_eq_some_iff.mp h
    split_ifs at h with hn
    cases h
    exact .handled hi (by simpa using hn)
  case snapshot p =>
    simp only [next] at h
    split at h
    case h_1 hr => cases h; exact .snapshotted hr
    case h_2    => cases h
  case restore p j =>
    obtain ⟨⟨index, data⟩, hj, h⟩ := Option.bind_eq_some_iff.mp h
    obtain ⟨rsm, hn, rfl⟩ := step_eq h
    exact .stepped hn (List.mem_of_getElem? hj)
  case restart p j =>
    cases j
    case none =>
      obtain ⟨rsm, hn, rfl⟩ := step_eq h
      exact .stepped hn (.inl ⟨rfl, rfl⟩)
    case some j =>
      obtain ⟨⟨index, data⟩, hj, h⟩ := Option.bind_eq_some_iff.mp h
      obtain ⟨rsm, hn, rfl⟩ := step_eq h
      exact .stepped hn (.inr ⟨data, rfl, List.mem_of_getElem? hj⟩)
  case rsm f =>
    cases f
    case submit | restore | restart => cases h
    all_goals
      obtain ⟨rsm, hn, rfl⟩ := step_eq h
      exact .stepped hn trivial

end Stepped

-- Each handler makes one call of `Submit`, and no two of them make the same one.
structure Issued (sent : List (KvInput K V)) (s : Servers P K V) : Prop where
  request  : ∀ k call, s.calls k = some call → ∃ input, sent[k]? = some input ∧
    call.op.req = .of input
  fresh    : ∀ k call, s.calls k = some call →
    (call.incarnation < (s.rsm.rsm call.op.me).incarnation) ∨
    (call.incarnation = (s.rsm.rsm call.op.me).incarnation ∧ call.op.id < (s.rsm.rsm call.op.me).id)
  distinct : ∀ k k' call, s.calls k = some call → s.calls k' = some call → k = k'
  started  : ∀ x ∈ s.rsm.started, ∃ k, s.calls k = some x.snd
  once     : ∀ i j call, (i, call) ∈ s.rsm.started → (j, call) ∈ s.rsm.started → i = j
  refused  : ∀ r ∈ s.rsm.returned, r.err = .ok ∨ r.err = .errWrongLeader

-- The server that executes a request when its operation is committed.
structure Executed (s : Servers P K V) (srv : KvServer K V) : Prop where
  kv       : srv.kv = stateAt s.rsm.sequence s.rsm.sequence.length
  executed : ∀ k call j, s.calls k = some call → s.rsm.sequence[j]? = some call →
    srv.replies k = some ((stateAt s.rsm.sequence j).doOp call.op.req).snd.output
  waiting  : ∀ k, (∀ call, s.calls k = some call → call ∉ s.rsm.sequence) → srv.replies k = none

namespace Issued

omit [DecidableEq K] in
theorem sent_append (h : s.Issued sent) (reqs : List (KvInput K V)) : s.Issued (sent ++ reqs) :=
  { h with
    request := fun k call hk => by
      have ⟨input, hi, hr⟩ := h.request k call hk
      have hl := (List.getElem?_eq_some_iff.mp hi).choose
      exact ⟨input, by rwa [List.getElem?_append_left hl], hr⟩ }

omit [DecidableEq K] in
-- The new call has not been made before.
theorem ne_new (h : s.Issued sent) {k : Nat} {call : Rsm.Call P (Req K V)}
    (hk : s.calls k = some call) (p : P) (req : Req K V) :
    call ≠ ⟨(s.rsm.rsm p).op p req, (s.rsm.rsm p).incarnation⟩ := by
  rintro rfl
  have hf := h.fresh k _ hk
  simp only [Rsm.RSM.op] at hf
  omega

variable [DecidableEq P]

theorem step (h : s.Issued sent) {f : Rsm.Event P (Req K V) (K → Option (Data V))} {rsm}
    (hf : s.rsm.Stepped (stateMachine K V) f rsm) (hp : f.Permitted s.snapshots) :
    { s with rsm }.Issued sent := by
  have hst : rsm.started = s.rsm.started := by
    cases hf
    case refused | started => exact hp.elim
    all_goals rfl
  refine { h with fresh := ?fresh, started := ?started, once := ?once, refused := ?refused }
  case started => simpa only [hst] using h.started
  case once    => simpa only [hst] using h.once
  case fresh =>
    intro k call hk
    have hage := hf.aged call.op.me
    have hold := h.fresh k call hk
    simp only [Rsm.RSM.Aged] at hage
    show _ < (rsm.rsm call.op.me).incarnation ∨ _ = (rsm.rsm call.op.me).incarnation ∧
      _ < (rsm.rsm call.op.me).id
    omega
  case refused =>
    intro r hr
    rcases hf.returned hr with hr | hr
    · exact h.refused r hr
    · exact hr

omit [DecidableEq K] in
theorem handle (h : s.Issued sent) {k : Nat} {p : P} {start : Option (Nat × Nat)}
    {input : KvInput K V} (hi : sent[k]? = some input) (hn : s.calls k = none) :
    (s.handle k p (.of input) start).Issued sent := by
  let call : Rsm.Call P (Req K V) := ⟨(s.rsm.rsm p).op p (.of input), (s.rsm.rsm p).incarnation⟩
  have hnew : (s.handle k p (.of input) start).calls k = some call := Function.update_self ..
  have hold {k' call'} (hk : s.calls k' = some call') :
      (s.handle k p (.of input) start).calls k' = some call' := by
    have hkk : k' ≠ k := by
      rintro rfl
      simp [hn] at hk
    simpa [Servers.handle, hkk] using hk
  have hcase {k' call'} (hk : (s.handle k p (.of input) start).calls k' = some call') :
      (k' = k ∧ call' = call) ∨ s.calls k' = some call' := by
    by_cases hkk : k' = k
    case pos => exact .inl ⟨hkk, by simpa [Servers.handle, hkk, eq_comm] using hk⟩
    case neg => exact .inr (by simpa [Servers.handle, hkk] using hk)
  have hst {x} (hx : x ∈ (s.handle k p (.of input) start).rsm.started) :
      x ∈ s.rsm.started ∨ x.snd = call := by
    rcases start with _ | ⟨index, initialTerm⟩
    · exact .inl hx
    · rcases List.mem_cons.mp hx with rfl | hx
      · exact .inr rfl
      · exact .inl hx
  refine {
    request  := ?request
    fresh    := ?fresh
    distinct := ?distinct
    started  := ?started
    once     := ?once
    refused  := ?refused
  }
  case request =>
    intro k' call' hk
    rcases hcase hk with ⟨rfl, rfl⟩ | hk
    · exact ⟨input, hi, rfl⟩
    · exact h.request k' call' hk
  case fresh =>
    intro k' call' hk
    rcases hcase hk with ⟨rfl, rfl⟩ | hk
    · right
      rcases start with _ | ⟨index, initialTerm⟩ <;>
        simp [Servers.handle, Rsm.State.submit, Rsm.State.set, Rsm.RSM.op, Rsm.RSM.register, call]
    · have hage := s.rsm.submit_aged p (.of input) start call'.op.me
      have hold := h.fresh k' call' hk
      simp only [Rsm.RSM.Aged] at hage
      simp only [Servers.handle]
      omega
  case distinct =>
    intro k₁ k₂ call' h₁ h₂
    rcases hcase h₁ with ⟨rfl, rfl⟩ | h₁' <;> rcases hcase h₂ with ⟨rfl, he⟩ | h₂'
    · rfl
    · exact absurd rfl (h.ne_new h₂' p (.of input))
    · exact absurd he (h.ne_new h₁' p (.of input))
    · exact h.distinct k₁ k₂ call' h₁' h₂'
  case started =>
    intro x hx
    rcases hst hx with hx | hx
    · obtain ⟨k', hk⟩ := h.started x hx
      exact ⟨k', hold hk⟩
    · exact ⟨k, hx ▸ hnew⟩
  case once =>
    intro i j call' h₁ h₂
    have hne (i) (hm : (i, call) ∈ s.rsm.started) : False := by
      obtain ⟨k', hk⟩ := h.started _ hm
      exact h.ne_new hk p (.of input) rfl
    rcases start with _ | ⟨index, initialTerm⟩
    · exact h.once i j call' h₁ h₂
    · rcases List.mem_cons.mp h₁ with h₁ | h₁ <;> rcases List.mem_cons.mp h₂ with h₂ | h₂
      · exact (Prod.mk.inj h₁).left.trans (Prod.mk.inj h₂).left.symm
      · obtain ⟨-, rfl⟩ := Prod.mk.inj h₁
        exact (hne j h₂).elim
      · obtain ⟨-, rfl⟩ := Prod.mk.inj h₂
        exact (hne i h₁).elim
      · exact h.once i j call' h₁ h₂
  case refused =>
    intro r hr
    rcases start with _ | ⟨index, initialTerm⟩
    · rcases List.mem_cons.mp hr with rfl | hr
      · exact .inr rfl
      · exact h.refused r hr
    · exact h.refused r hr

end Issued

namespace Executed

variable {srv : KvServer K V}

-- What has not been committed may be anywhere.
theorem congr (h : s.Executed srv) (hc : s'.calls = s.calls)
    (hq : s'.rsm.sequence = s.rsm.sequence) :
    s'.Executed srv where
  kv       := by rw [hq]; exact h.kv
  executed := by rw [hc, hq]; exact h.executed
  waiting  := by rw [hc, hq]; exact h.waiting

-- The operation is executed by the server as soon as it is committed.
theorem commit (h : s.Executed srv) (hs : s.rsm.Sound (stateMachine K V)) (hi : s.Issued sent)
    {call : Rsm.Call P (Req K V)} (hc : (s.rsm.sequence.length + 1, call) ∈ s.rsm.started)
    (hcalls : s'.calls = s.calls) (hseq : s'.rsm.sequence = s.rsm.sequence ++ [call]) :
    ∃ k srv', KvServer.next sent srv k = some srv' ∧ s'.Executed srv' := by
  obtain ⟨k, hk⟩ := hi.started _ hc
  obtain ⟨input, hin, hreq⟩ := hi.request k call hk
  have hno : call ∉ s.rsm.sequence := by
    intro hm
    have ⟨j, hj⟩ := List.mem_iff_getElem?.mp hm
    have hl := (List.getElem?_eq_some_iff.mp hj).choose
    have := hi.once _ _ call (hs.sequence hj) hc
    omega
  have hwait : srv.replies k = none := by
    refine h.waiting k fun call' hc' => ?_
    obtain rfl := Option.some.inj (hk.symm.trans hc')
    exact hno
  rcases hh : KvServer.handle srv.kv input with ⟨kv, reply⟩
  refine ⟨k, ⟨kv, Function.update srv.replies k (some reply)⟩,
    by simp [KvServer.next, hin, hwait, hh], ?_⟩
  have hlast : (s.rsm.sequence ++ [call])[s.rsm.sequence.length]? = some call := by simp
  have hfst : kv = ((stateAt s.rsm.sequence s.rsm.sequence.length).doOp call.op.req).fst := by
    rw [hreq, doOp_fst, ←h.kv, hh]
  have hsnd : reply =
      ((stateAt s.rsm.sequence s.rsm.sequence.length).doOp call.op.req).snd.output := by
    rw [hreq, doOp_snd, ←h.kv, hh]
  refine ⟨?_, ?_, ?_⟩ <;> simp only [hseq, hcalls, List.length_append, List.length_singleton]
  · rw [stateAt_succ hlast, stateAt_append le_rfl]
    exact hfst
  · intro k' call' j hk' hj
    by_cases hkk : k' = k
    case pos =>
      subst hkk
      obtain rfl := Option.some.inj (hk.symm.trans hk')
      obtain rfl : j = s.rsm.sequence.length := by
        by_contra hne
        rcases Nat.lt_or_gt_of_ne hne with hl | hl
        · exact hno (List.mem_of_getElem? (by rwa [List.getElem?_append_left hl] at hj))
        · rw [List.getElem?_eq_none (by simp; omega)] at hj
          cases hj
      rw [Function.update_self, stateAt_append le_rfl, hsnd]
    case neg =>
      have hne : call' ≠ call := fun he => hkk (hi.distinct k' k call (he ▸ hk') hk)
      have hl : j < s.rsm.sequence.length := by
        by_contra hge
        rw [List.getElem?_append_right (not_lt.mp hge), List.getElem?_singleton] at hj
        split_ifs at hj
        exact hne (Option.some.inj hj).symm
      rw [Function.update_of_ne hkk, stateAt_append hl.le]
      exact h.executed k' call' j hk' (by rwa [List.getElem?_append_left hl] at hj)
  · intro k' hk'
    have hkk : k' ≠ k := by
      rintro rfl
      exact hk' call hk (by simp)
    rw [Function.update_of_ne hkk]
    exact h.waiting k' fun call' hc' hm => hk' call' hc' (List.mem_append_left _ hm)

variable [DecidableEq P]

theorem handle (h : s.Executed srv) (hs : s.rsm.Sound (stateMachine K V)) (hi : s.Issued sent)
    {k : Nat} {p : P} {req : Req K V} {start : Option (Nat × Nat)} (hn : s.calls k = none) :
    (s.handle k p req start).Executed srv := by
  have hq : (s.handle k p req start).rsm.sequence = s.rsm.sequence := by
    rcases start with _ | ⟨index, initialTerm⟩ <;> rfl
  have hnew : ⟨(s.rsm.rsm p).op p req, (s.rsm.rsm p).incarnation⟩ ∉ s.rsm.sequence := by
    intro hm
    obtain ⟨j, hj⟩ := List.mem_iff_getElem?.mp hm
    obtain ⟨k', hk⟩ := hi.started _ (hs.sequence hj)
    exact hi.ne_new hk p req rfl
  refine ⟨by rw [hq]; exact h.kv, fun k' call j hk hj => ?_, fun k' hk => ?_⟩ <;> rw [hq] at *
  · by_cases hkk : k' = k
    case neg => exact h.executed k' call j (by simpa [Servers.handle, hkk] using hk) hj
    case pos =>
      obtain rfl : _ = call := by simpa [Servers.handle, hkk] using hk
      exact absurd (List.mem_of_getElem? hj) hnew
  · by_cases hkk : k' = k
    case neg => exact h.waiting k' fun call hc => hk call (by simpa [Servers.handle, hkk] using hc)
    case pos => exact h.waiting k' fun call hc => by simp [hkk, hn] at hc

end Executed

-- What the servers have in common with one that executes the requests at once.
structure Refines (sent : List (KvInput K V)) (s : Servers P K V) (srv : KvServer K V) : Prop where
  sound    : s.rsm.Sound (stateMachine K V)
  issued   : s.Issued sent
  faithful : s.rsm.Faithful (stateMachine K V) s.snapshots
  executed : s.Executed srv

variable [DecidableEq P]

theorem Refines.step {srv : KvServer K V} (h : s.Refines sent srv) {e : Event P K V}
    (hr : ¬Reused sent s e) (hn : s.next sent e = some s') :
    ∃ srv', (srv' = srv ∨ ∃ k, KvServer.next sent srv k = some srv') ∧ s'.Refines sent srv' := by
  cases stepped hn
  case handled k p start input hin hk =>
    have hu : ¬s.rsm.Reused
        (.submit p (Req.of input) start : Rsm.Event P (Req K V) (K → Option (Data V))) := by
      rcases start with _ | ⟨index, initialTerm⟩
      · exact id
      · exact hr
    exact ⟨srv, .inl rfl, h.sound.step rfl hu, h.issued.handle hin hk,
      h.faithful.submit p (.of input) start, h.executed.handle h.sound h.issued hk⟩
  case snapshotted p hrd =>
    exact ⟨srv, .inl rfl, h.sound, { h.issued with }, h.faithful.snapshot p,
      h.executed.congr rfl rfl⟩
  case stepped f rsm hf hp =>
    have hst := Rsm.State.stepped hf
    have hsound := h.sound.step hf (Rsm.State.not_reused hp)
    have hissued := h.issued.step hst hp
    have hfaithful := h.faithful.step hp hst
    cases hst
    case committed k call hk =>
      let s' : Servers P K V :=
        { s with rsm := { s.rsm with sequence := s.rsm.sequence ++ [call] } }
      obtain ⟨j, srv', hj, he⟩ := h.executed.commit h.sound h.issued (List.mem_of_getElem? hk)
        (show s'.calls = s.calls from rfl) rfl
      exact ⟨srv', .inr ⟨j, hj⟩, hsound, hissued, hfaithful, he⟩
    case refused | started => exact hp.elim
    all_goals exact ⟨srv, .inl rfl, hsound, hissued, hfaithful, h.executed.congr rfl rfl⟩

variable [DecidableEq V]

theorem Refines.answers {srv : KvServer K V} (h : s.Refines sent srv) {k : Nat} {out : KvOutput V}
    (ha : (servers P K V).answers s k out) :
    (kvServer K V [.errWrongLeader]).answers srv k out := by
  simp only [servers, List.any_eq_true, decide_eq_true_eq] at ha
  obtain ⟨r, hr, hk, ho⟩ := ha
  simp only [kvServer, decide_eq_true_eq]
  rcases h.issued.refused r hr with he | he
  · -- The result is the one of its own operation, and all replicas agree on it.
    obtain ⟨index, before, after, result, hidx, hres, -, hq, hap, hd⟩ := h.sound.returned hr he
    obtain ⟨i, rfl, hb⟩ := h.faithful.applied _ hap
    obtain ⟨-, rfl⟩ : _ ∧ (before.doOp r.call.op.req).snd = result :=
      Prod.ext_iff.mp (Option.some.inj hd)
    have hx := h.executed.executed k r.call i hk hq
    rw [reply_doOp he hres] at ho
    left
    rw [hx, ←ho, show before = stateAt s.rsm.sequence i from stateAt_of_derives hb]
  · rw [reply, if_neg (by simp [he]), he] at ho
    exact .inr ⟨.errWrongLeader, by simp, (Option.some.inj ho).symm⟩

theorem Refines.init : ((servers P K V).init).Refines [] (kvServer K V [.errWrongLeader]).init where
  sound    := .init
  issued   := by constructor <;> simp [servers, Rsm.State.init]
  faithful := .init
  executed := by constructor <;> simp [servers, kvServer, Rsm.State.init, stateAt]; rfl

-- Clients cannot tell the servers from a single one.
theorem simulation :
    (servers P K V).Simulation (kvServer K V [.errWrongLeader])
      Reused (fun _ _ _ => False) Refines where
  init    := .init
  sent _ _ _ reqs h     := ⟨h.sound, h.issued.sent_append reqs, h.faithful, h.executed⟩
  answers _ _ _ _ _ h   := h.answers
  next _ _ srv _ _ h hr hn := by
    obtain ⟨srv', hs, h'⟩ := h.step hr hn
    refine ⟨srv', ?_, h'⟩
    rcases hs with rfl | ⟨k, hk⟩
    · exact .refl
    · exact .single ⟨k, id, hk⟩

end Servers

theorem clerks_sound (n : Nat) : (clerks n).Sound [.errWrongLeader] Clerk.isFirstTry where
  get leader := ⟨getClerk_reading leader, rfl⟩
  put leader := ⟨clerk_careful n leader, rfl⟩

end KvRaft
