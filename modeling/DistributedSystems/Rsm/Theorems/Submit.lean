import DistributedSystems.KvRaft

namespace Rsm

open KvSrv

variable {σ P Req Res D : Type} {sm : StateMachine σ Req Res D}
variable {s s' : State σ P Req Res} {a : Event P Req D} {p : P}

namespace State

section

variable [DecidableEq P]

-- What a step can do.
inductive Stepped (sm : StateMachine σ Req Res D) (s : State σ P Req Res) :
    Event P Req D → State σ P Req Res → Prop
  | refused (p req) : Stepped sm s (.submit p req none) (s.submit p req none)
  | started (p req index initialTerm) :
    Stepped sm s (.submit p req (some (index, initialTerm)))
      (s.submit p req (some (index, initialTerm)))
  | received {p id w result} (hw : (s.rsm p).pending id = some w)
    (hc : (s.rsm p).channel id = some result) :
    Stepped sm s (.receive p id)
      ((s.set p { s.rsm p with channel := Function.update (s.rsm p).channel id none }).respond
        p w .ok (some result))
  | deposed {p id currentTerm isLeader w} (hw : (s.rsm p).pending id = some w) :
    Stepped sm s (.poll p id currentTerm isLeader) (s.respond p w .errWrongLeader none)
  | waited {p id currentTerm isLeader} : Stepped sm s (.poll p id currentTerm isLeader) s
  | committed {k call} (hk : s.started[k]? = some (s.sequence.length + 1, call)) :
    Stepped sm s (.commit k) { s with sequence := s.sequence ++ [call] }
  | executed {p call after opResult} (hr : (s.rsm p).reader = .receiving)
    (hc : s.sequence[(s.rsm p).lastApplied]? = some call)
    (hd : sm.doOp (s.rsm p).sm call.op.req = some (after, opResult)) :
    Stepped sm s (.execute p)
      { s.set p { s.rsm p with
          sm          := after
          reader      := .executed ((s.rsm p).lastApplied + 1) call opResult
          lastApplied := (s.rsm p).lastApplied + 1 } with
        applied :=
          ⟨p, (s.rsm p).incarnation, (s.rsm p).lastApplied + 1, call, (s.rsm p).sm, opResult⟩ ::
          s.applied }
  | found {p index call opResult id} (hr : (s.rsm p).reader = .executed index call opResult)
    (hf : (s.rsm p).results (RSM.constructKey call.op index) = some id) :
    Stepped sm s (.lookup p) (s.set p { s.rsm p with reader := .delivering id opResult })
  | missing {p : P} : Stepped sm s (.lookup p) (s.set p { s.rsm p with reader := .receiving })
  | delivered {p id opResult} (hr : (s.rsm p).reader = .delivering id opResult) :
    Stepped sm s (.deliver p)
      (s.set p { s.rsm p with
        channel := Function.update (s.rsm p).channel id (some opResult)
        reader  := .receiving })
  | restored {p index data} (hr : (s.rsm p).reader = .receiving)
    (hi : (s.rsm p).lastApplied ≤ index) :
    Stepped sm s (.restore p index data)
      (s.set p { s.rsm p with sm := sm.restore (s.rsm p).sm data, lastApplied := index })
  | restarted (p index data) :
    Stepped sm s (.restart p index data) (s.set p (.make sm ((s.rsm p).incarnation + 1) index data))

theorem stepped (h : s.next sm a = some s') : Stepped sm s a s' := by
  cases a <;> simp only [next, Option.bind_eq_bind] at h
  case submit p req start =>
    cases h
    rcases start with _ | ⟨index, initialTerm⟩
    · exact .refused p req
    · exact .started p req index initialTerm
  case receive p id =>
    cases hw : (s.rsm p).pending id <;> simp [hw] at h
    cases hc : (s.rsm p).channel id <;> simp [hc] at h
    exact h ▸ .received hw hc
  case poll p id currentTerm isLeader =>
    cases hw : (s.rsm p).pending id <;>
      simp only [hw, Option.bind_none, Option.bind_some, reduceCtorEq] at h
    split at h
    · exact Option.some.inj h ▸ .deposed hw
    · exact Option.some.inj h ▸ .waited
  case commit k =>
    cases hk : s.started[k]? <;>
      simp only [hk, Option.bind_none, Option.bind_some, reduceCtorEq] at h
    split at h
    · next e => exact Option.some.inj h ▸ .committed (by rw [hk, ←e])
    · contradiction
  case execute p =>
    split at h <;> try contradiction
    next hr =>
    cases hc : s.sequence[(s.rsm p).lastApplied]? <;>
      simp only [hc, Option.bind_none, Option.bind_some, reduceCtorEq] at h
    case some call =>
      cases hd : sm.doOp (s.rsm p).sm call.op.req <;>
        simp only [hd, Option.bind_none, Option.bind_some, reduceCtorEq] at h
      exact Option.some.inj h ▸ .executed hr hc hd
  case lookup p =>
    split at h <;> try contradiction
    next index call opResult hr =>
    cases hf : (s.rsm p).results (RSM.constructKey call.op index) <;> simp only [hf] at h
    · exact Option.some.inj h ▸ .missing
    · exact Option.some.inj h ▸ .found hr hf
  case deliver p =>
    split at h <;> try contradiction
    next hr =>
    split at h <;> try contradiction
    exact Option.some.inj h ▸ .delivered hr
  case restore p index data =>
    split at h <;> try contradiction
    next hr =>
    split at h <;> try contradiction
    next hi => exact Option.some.inj h ▸ .restored hr hi.left
  case restart p index data =>
    split at h <;> try contradiction
    exact Option.some.inj h ▸ .restarted p index data

end

-- The histories never lose anything.
structure Grows (s s' : State σ P Req Res) : Prop where
  started  : s.started ⊆ s'.started
  sequence : s.sequence <+: s'.sequence
  applied  : s.applied ⊆ s'.applied

-- The server has applied the call's operation at the given index.
def Applied (s : State σ P Req Res) (p : P) (incarnation index : Nat) (call : Call P Req)
    (opResult : Res) : Prop :=
  ∃ before, ⟨p, incarnation, index, call, before, opResult⟩ ∈ s.applied

theorem Grows.applied_mono (h : s.Grows s') {incarnation index : Nat} {call : Call P Req}
    {opResult : Res} (ha : s.Applied p incarnation index call opResult) :
    s'.Applied p incarnation index call opResult := by
  have ⟨before, ha⟩ := ha
  exact ⟨before, h.applied ha⟩

-- Whatever arrives in the channel of a waiting call is the result of its own operation. Ids are not
-- reused within an incarnation, so no other call will ever wait at the channel.
def Answers (s : State σ P Req Res) (p : P) (rsm : RSM σ P Req Res) (id : Nat) (opResult : Res) :
    Prop :=
  (id < rsm.id) ∧
  (∀ w, rsm.pending id = some w →
    s.Applied p rsm.incarnation w.index ⟨w.op, rsm.incarnation⟩ opResult)

end State

structure RSM.Sound (s : State σ P Req Res) (p : P) (rsm : RSM σ P Req Res) : Prop where
  pending    : ∀ {id w}, rsm.pending id = some w →
                 w.op.id = id ∧ w.op.me = p ∧ id < rsm.id ∧
                 (w.index, ⟨w.op, rsm.incarnation⟩) ∈ s.started
  results    : ∀ {key id}, rsm.results key = some id →
                 ∃ w, rsm.pending id = some w ∧ key = RSM.constructKey w.op w.index
  channel    : ∀ {id opResult}, rsm.channel id = some opResult → s.Answers p rsm id opResult
  executed   : ∀ {index call opResult}, rsm.reader = .executed index call opResult →
                 s.Applied p rsm.incarnation index call opResult
  delivering : ∀ {id opResult}, rsm.reader = .delivering id opResult → s.Answers p rsm id opResult

namespace RSM.Sound

variable {rsm : RSM σ P Req Res}

theorem mono (hg : s.Grows s') (h : rsm.Sound s p) : rsm.Sound s' p where
  pending hw    := have ⟨hi, hm, hl, hs⟩ := h.pending hw; ⟨hi, hm, hl, hg.started hs⟩
  results hr    := h.results hr
  channel hc    := have ⟨hl, ha⟩ := h.channel hc; ⟨hl, fun w hw => hg.applied_mono (ha w hw)⟩
  executed he   := hg.applied_mono (h.executed he)
  delivering hd := have ⟨hl, ha⟩ := h.delivering hd; ⟨hl, fun w hw => hg.applied_mono (ha w hw)⟩

theorem make (incarnation index : Nat) (data : Option D) :
    (RSM.make sm incarnation index data : RSM σ P Req Res).Sound s p := by
  constructor <;> simp [RSM.make]

theorem skip (h : rsm.Sound s p) : { rsm with id := rsm.id + 1 }.Sound s p where
  pending hw    := have ⟨hi, hm, hl, hs⟩ := h.pending hw; ⟨hi, hm, Nat.lt_succ_of_lt hl, hs⟩
  results hr    := h.results hr
  channel hc    := have ⟨hl, ha⟩ := h.channel hc; ⟨Nat.lt_succ_of_lt hl, ha⟩
  executed he   := h.executed he
  delivering hd := have ⟨hl, ha⟩ := h.delivering hd; ⟨Nat.lt_succ_of_lt hl, ha⟩

theorem drain (h : rsm.Sound s p) (id : Nat) :
    { rsm with channel := Function.update rsm.channel id none }.Sound s p where
  pending hw     := h.pending hw
  results hr     := h.results hr
  channel hc     := by
    simp only [Function.update_apply] at hc
    split_ifs at hc
    exact h.channel hc
  executed he    := h.executed he
  delivering hd  := h.delivering hd

theorem deliver (h : rsm.Sound s p) {id : Nat} {opResult : Res}
    (hr : rsm.reader = .delivering id opResult) :
    { rsm with channel := Function.update rsm.channel id (some opResult),
               reader := .receiving }.Sound s p where
  pending hw     := h.pending hw
  results hr     := h.results hr
  channel hc     := by
    simp only [Function.update_apply] at hc
    split_ifs at hc
    case pos hi =>
      cases hc
      subst hi
      exact h.delivering hr
    case neg => exact h.channel hc
  executed he    := nomatch he
  delivering hd  := nomatch hd

-- The state of the state machine does not matter for the bookkeeping.
theorem receive (h : rsm.Sound s p) (after : σ) (index : Nat) :
    { rsm with sm := after, reader := .receiving, lastApplied := index }.Sound s p where
  pending hw    := h.pending hw
  results hr    := h.results hr
  channel hc    := h.channel hc
  executed he   := nomatch he
  delivering hd := nomatch hd

theorem execute (h : rsm.Sound s p) {index : Nat} {call : Call P Req} {opResult : Res} (after : σ)
    (ha : s.Applied p rsm.incarnation index call opResult) :
    RSM.Sound s p
      { rsm with sm := after, reader := .executed index call opResult, lastApplied := index } where
  pending hw    := h.pending hw
  results hr    := h.results hr
  channel hc    := h.channel hc
  executed he   := by cases he; exact ha
  delivering hd := nomatch hd

theorem find (h : rsm.Sound s p) {id : Nat} {opResult : Res} (ha : s.Answers p rsm id opResult) :
    { rsm with reader := .delivering id opResult }.Sound s p where
  pending hw    := h.pending hw
  results hr    := h.results hr
  channel hc    := h.channel hc
  executed he   := nomatch he
  delivering hd := by cases hd; exact ha

variable [DecidableEq P]

-- A new call's id is not in use yet.
theorem answers_register (op : Op P Req) (index initialTerm : Nat) (ho : op.id = rsm.id) {id : Nat}
    {opResult : Res} (h : s.Answers p rsm id opResult) :
    s.Answers p (rsm.register op index initialTerm) id opResult := by
  have ⟨hl, ha⟩ := h
  refine ⟨Nat.lt_succ_of_lt hl, fun w hw => ha w ?_⟩
  simpa [RSM.register, Function.update_of_ne (show id ≠ op.id by omega)] using hw

theorem register (h : rsm.Sound s p) (req : Req) (index initialTerm : Nat)
    (hs : (index, ⟨rsm.op p req, rsm.incarnation⟩) ∈ s.started) :
    (rsm.register (rsm.op p req) index initialTerm).Sound s p where
  pending {id w} hw := by
    simp only [RSM.register, Function.update_apply] at hw
    split_ifs at hw
    case pos hi =>
      cases hw
      exact ⟨hi.symm, rfl, hi ▸ Nat.lt_succ_self _, hs⟩
    case neg =>
      have ⟨hi, hm, hl, hs⟩ := h.pending hw
      exact ⟨hi, hm, Nat.lt_succ_of_lt hl, hs⟩
  results {key id} hr := by
    simp only [RSM.register, Function.update_apply] at hr
    split_ifs at hr
    case pos hk =>
      cases hr
      exact ⟨⟨rsm.op p req, index, initialTerm⟩, Function.update_self .., hk⟩
    case neg =>
      have ⟨w, hw, hk⟩ := h.results hr
      have hl : id < rsm.id := (h.pending hw).right.right.left
      exact ⟨w, (Function.update_of_ne (Nat.ne_of_lt hl) ..).trans hw, hk⟩
  channel hc    := answers_register _ _ _ rfl (h.channel hc)
  executed he   := h.executed he
  delivering hd := answers_register _ _ _ rfl (h.delivering hd)

-- A call that has returned does not wait any more.
theorem pending_unregister {w w' : Pending P Req} {id : Nat}
    (h : (rsm.unregister w).pending id = some w') :
    rsm.pending id = some w' := by
  simp only [RSM.unregister, Function.update_apply] at h
  split_ifs at h
  exact h

theorem answers_unregister (w : Pending P Req) {id : Nat} {opResult : Res}
    (h : s.Answers p rsm id opResult) :
    s.Answers p (rsm.unregister w) id opResult :=
  ⟨h.left, fun w' hw => h.right w' (pending_unregister hw)⟩

theorem unregister (h : rsm.Sound s p) {w : Pending P Req} (hw : rsm.pending w.op.id = some w) :
    (rsm.unregister w).Sound s p where
  pending hw          := h.pending (pending_unregister hw)
  results {key id} hr := by
    simp only [RSM.unregister, Function.update_apply] at hr
    split_ifs at hr
    case neg hk =>
      have ⟨w', hw', hk'⟩ := h.results hr
      have hi : id ≠ w.op.id := by
        rintro rfl
        obtain rfl := Option.some.inj (hw.symm.trans hw')
        contradiction
      exact ⟨w', (Function.update_of_ne hi ..).trans hw', hk'⟩
  channel hc          := answers_unregister w (h.channel hc)
  executed he         := h.executed he
  delivering hd       := answers_unregister w (h.delivering hd)

end RSM.Sound

-- The call has the index from `Start`. At this index the server has applied the operation of this
-- very call, and it returns what `DoOp` has returned for it.
def Return.Own (sm : StateMachine σ Req Res D) (s : State σ P Req Res) (r : Return P Req Res) :
    Prop :=
  ∃ index before after result,
    (r.index = some index) ∧ (r.result = some result) ∧ ((index, r.call) ∈ s.started) ∧
    (s.sequence[index - 1]? = some r.call) ∧
    (⟨r.call.op.me, r.call.incarnation, index, r.call, before, result⟩ ∈ s.applied) ∧
    (sm.doOp before r.call.op.req = some (after, result))

namespace State

-- `Start` returns an index that it had already returned to a call of the same server with the same
-- id. The calls of one incarnation have different ids, so this is a call before a restart.
def Reused (s : State σ P Req Res) : Event P Req D → Prop
  | .submit p _ (some (index, _)) =>
    ∃ x ∈ s.started, x.fst = index ∧ x.snd.op.me = p ∧ x.snd.op.id = (s.rsm p).id
  | _ => False

instance [DecidableEq P] {s : State σ P Req Res} : (a : Event P Req D) → Decidable (s.Reused a)
  | .submit p _ (some (index, _)) =>
    inferInstanceAs <| Decidable <|
      ∃ x ∈ s.started, x.fst = index ∧ x.snd.op.me = p ∧ x.snd.op.id = (s.rsm p).id
  | .submit _ _ none | .receive .. | .poll .. | .commit _ | .execute _ | .lookup _ | .deliver
    _ | .restore ..
  | .restart .. => isFalse id

structure Sound (sm : StateMachine σ Req Res D) (s : State σ P Req Res) : Prop where
  unique   : ∀ {index call call'}, (index, call) ∈ s.started → (index, call') ∈ s.started →
               call.op.id = call'.op.id → call.op.me = call'.op.me → call = call'
  sequence : ∀ {k call}, s.sequence[k]? = some call → (k + 1, call) ∈ s.started
  applied  : ∀ {a}, a ∈ s.applied →
               (∃ k, a.index = k + 1 ∧ s.sequence[k]? = some a.call) ∧
               (∃ after, sm.doOp a.before a.call.op.req = some (after, a.opResult))
  server   : ∀ p, (s.rsm p).Sound s p
  returned : ∀ {r}, r ∈ s.returned → r.err = .ok → r.Own sm s

namespace Sound

theorem init : Sound sm (.init sm : State σ P Req Res) where
  unique h   := nomatch h
  sequence h := nomatch h
  applied h  := nomatch h
  server _   := .make 0 0 none
  returned h := nomatch h

theorem sequence_mono (h : s.Grows s') {k : Nat} {call : Call P Req}
    (hk : s.sequence[k]? = some call) :
    s'.sequence[k]? = some call := by
  have ⟨_, ht⟩ := h.sequence
  have hl := (List.getElem?_eq_some_iff.mp hk).choose
  rw [←ht, List.getElem?_append_left hl, hk]

theorem own_mono {r : Return P Req Res} (hg : s.Grows s') (h : r.Own sm s) : r.Own sm s' := by
  have ⟨index, before, after, result, hi, hr, hs, hq, ha, hd⟩ := h
  exact ⟨index, before, after, result, hi, hr, hg.started hs, sequence_mono hg hq, hg.applied ha,
    hd⟩

-- The histories stay as they are.
theorem set [DecidableEq P] (h : s.Sound sm) {rsm : RSM σ P Req Res} (hr : rsm.Sound s p) :
    (s.set p rsm).Sound sm where
  unique   := h.unique
  sequence := h.sequence
  applied  := h.applied
  server q := by
    refine .mono (s := s) ⟨List.Subset.refl _, List.prefix_rfl, List.Subset.refl _⟩ ?_
    simp only [State.set, Function.update_apply]
    split_ifs
    case pos hq => exact hq ▸ hr
    case neg    => exact h.server q
  returned := h.returned

theorem record (h : s.Sound sm) {r : Return P Req Res} (hr : r.err = .ok → r.Own sm s) :
    Sound sm { s with returned := r :: s.returned } where
  unique         := h.unique
  sequence       := h.sequence
  applied        := h.applied
  server q       :=
    .mono (s := s) ⟨List.Subset.refl _, List.prefix_rfl, List.Subset.refl _⟩ (h.server q)
  returned hm he := by
    cases List.mem_cons.mp hm
    case inl hm => exact hm ▸ hr (hm ▸ he)
    case inr hm => exact h.returned hm he

theorem start (h : s.Sound sm) {index : Nat} (call : Call P Req)
    (hn : ∀ call', (index, call') ∈ s.started → call'.op.me = call.op.me →
      call'.op.id ≠ call.op.id) :
    Sound sm { s with started := (index, call) :: s.started } := by
  have hg : s.Grows { s with started := (index, call) :: s.started } :=
    ⟨List.subset_cons_self .., List.prefix_rfl, List.Subset.refl _⟩
  refine {
    unique         := ?unique
    sequence hk    := hg.started (h.sequence hk)
    applied        := h.applied
    server q       := (h.server q).mono hg
    returned hm he := own_mono hg (h.returned hm he)
  }
  intro index' call₁ call₂ h₁ h₂ hi hm
  cases List.mem_cons.mp h₁ <;> cases List.mem_cons.mp h₂
  case inl.inl h₁ h₂ => cases h₁; cases h₂; rfl
  case inl.inr h₁ h₂ => cases h₁; exact absurd hi.symm (hn _ h₂ hm.symm)
  case inr.inl h₁ h₂ => cases h₂; exact absurd hi (hn _ h₁ hm)
  case inr.inr h₁ h₂ => exact h.unique h₁ h₂ hi hm

theorem commit (h : s.Sound sm) {call : Call P Req}
    (hs : (s.sequence.length + 1, call) ∈ s.started) :
    Sound sm { s with sequence := s.sequence ++ [call] } := by
  have hg : s.Grows { s with sequence := s.sequence ++ [call] } :=
    ⟨List.Subset.refl _, List.prefix_append .., List.Subset.refl _⟩
  refine {
    unique         := h.unique
    sequence       := ?sequence
    applied        := ?applied
    server q       := (h.server q).mono hg
    returned hm he := own_mono hg (h.returned hm he)
  }
  case sequence =>
    intro k call' hk
    rcases Nat.lt_trichotomy k s.sequence.length with hl | rfl | hl
    · exact h.sequence (by rwa [List.getElem?_append_left hl] at hk)
    · obtain rfl : call = call' := by simpa using hk
      exact hs
    · rw [List.getElem?_eq_none (by simp; omega)] at hk
      contradiction
  case applied =>
    intro a ha
    have ⟨⟨k, hi, hk⟩, hd⟩ := h.applied ha
    exact ⟨⟨k, hi, sequence_mono hg hk⟩, hd⟩

theorem apply (h : s.Sound sm) {a : Application σ P Req Res} {k : Nat} {after : σ}
    (hi : a.index = k + 1) (hk : s.sequence[k]? = some a.call)
    (hd : sm.doOp a.before a.call.op.req = some (after, a.opResult)) :
    Sound sm { s with applied := a :: s.applied } := by
  have hg : s.Grows { s with applied := a :: s.applied } :=
    ⟨List.Subset.refl _, List.prefix_rfl, List.subset_cons_self ..⟩
  refine {
    unique         := h.unique
    sequence       := h.sequence
    applied        := ?applied
    server q       := (h.server q).mono hg
    returned hm he := own_mono hg (h.returned hm he)
  }
  intro a' ha
  cases List.mem_cons.mp ha
  case inl ha =>
    subst ha
    exact ⟨⟨k, hi, hk⟩, after, hd⟩
  case inr ha => exact h.applied ha

-- The key of an executed operation determines its call.
theorem answers (h : s.Sound sm) {index id : Nat} {call : Call P Req} {opResult : Res}
    (hr : (s.rsm p).reader = .executed index call opResult)
    (hf : (s.rsm p).results (RSM.constructKey call.op index) = some id) :
    s.Answers p (s.rsm p) id opResult := by
  have ⟨w, hw, hk⟩ := (h.server p).results hf
  have ⟨_, hm, hl, hs⟩ := (h.server p).pending hw
  have ha := (h.server p).executed hr
  have ⟨⟨k, hi, hq⟩, _⟩ := h.applied ha.choose_spec
  have hc : (index, call) ∈ s.started := by
    rw [show index = k + 1 from hi]
    exact h.sequence hq
  simp only [RSM.constructKey, Key.mk.injEq] at hk
  obtain ⟨hk, hk', rfl⟩ := hk
  obtain rfl := h.unique hc hs hk hk'
  refine ⟨hl, fun w' hw' => ?_⟩
  obtain rfl := Option.some.inj (hw.symm.trans hw')
  exact ha

theorem own (h : s.Sound sm) {id : Nat} {w : Pending P Req} {opResult : Res}
    (hw : (s.rsm p).pending id = some w) (hc : (s.rsm p).channel id = some opResult) :
    Return.Own sm s ⟨⟨w.op, (s.rsm p).incarnation⟩, w.index, .ok, some opResult⟩ := by
  have ⟨_, hm, _, hs⟩ := (h.server p).pending hw
  have ⟨before, ha⟩ := ((h.server p).channel hc).right w hw
  have ⟨⟨k, hi, hq⟩, after, hd⟩ := h.applied ha
  refine ⟨w.index, before, after, opResult, rfl, rfl, hs, ?_, hm ▸ ha, hd⟩
  rw [show w.index = k + 1 from hi]
  exact hq

variable [DecidableEq P]

theorem respond (h : s.Sound sm) {w : Pending P Req} {err : Err} {result : Option Res}
    (hw : (s.rsm p).pending w.op.id = some w)
    (hr : err = .ok → Return.Own sm s ⟨⟨w.op, (s.rsm p).incarnation⟩, w.index, err, result⟩) :
    (s.respond p w err result).Sound sm :=
  .record (h.set ((h.server p).unregister hw)) hr

theorem step (h : s.Sound sm) (hn : s.next sm a = some s') (hu : ¬s.Reused a) : s'.Sound sm := by
  cases stepped hn
  case refused p req => exact .record (h.set (h.server p).skip) nofun
  case started p req index initialTerm =>
    have hn (call : Call P Req) (hc : (index, call) ∈ s.started) (hm : call.op.me = p) :
        call.op.id ≠ (s.rsm p).id :=
      fun hi => hu ⟨_, hc, rfl, hm, hi⟩
    have h := h.start ⟨(s.rsm p).op p req, (s.rsm p).incarnation⟩ hn
    exact h.set ((h.server p).register req index initialTerm (List.mem_cons_self ..))
  case received p id w result hw hc =>
    obtain ⟨rfl, -⟩ := (h.server p).pending hw
    refine respond (h.set ((h.server p).drain w.op.id)) ?waiting ?own <;>
      simp only [State.set, Function.update_self]
    case waiting => exact hw
    case own => exact fun _ => h.own hw hc
  case deposed p id currentTerm isLeader w hw =>
    obtain ⟨rfl, -⟩ := (h.server p).pending hw
    exact h.respond hw nofun
  case waited => exact h
  case committed k call hk => exact h.commit (List.mem_of_getElem? hk)
  case executed p call after opResult hr hc hd =>
    have h := h.apply
      (a := ⟨p, (s.rsm p).incarnation, (s.rsm p).lastApplied + 1, call, (s.rsm p).sm, opResult⟩)
      rfl hc hd
    exact h.set ((h.server p).execute after ⟨_, List.mem_cons_self ..⟩)
  case found p index call opResult id hr hf => exact h.set ((h.server p).find (h.answers hr hf))
  case missing p => exact h.set ((h.server p).receive _ _)
  case delivered p id opResult hr => exact h.set ((h.server p).deliver hr)
  case restored p index data hr _ =>
    have h := h.set ((h.server p).receive (sm.restore (s.rsm p).sm data) index)
    rwa [←hr] at h
  case restarted p index data => exact h.set (.make ..)

end Sound
end State

-- As long as `Start` never returns to a server the index and id of one of its calls before a
-- restart, every call of `Submit` that returns `OK` returns the result of its own operation.
theorem Execution.submit_own_result [DecidableEq P] (e : Execution P sm)
    (h : e.Avoids State.Reused) (i : Nat) {r : Return P Req Res}
    (hr : r ∈ (e.state i).returned) (ho : r.err = .ok) : r.Own sm (e.state i) := by
  have hs := e.invariant (I := State.Sound sm) .init fun i a _ ha hn hs => hs.step hn (h i a ha)
  exact (hs i).returned hr ho

-- After a restart the server uses an id for the second time, but the first call had no index.
def submission : List (Event Nat (KvRaft.Req Nat Nat) (Nat → Option (Data Nat))) :=
  [.submit 0 (.get 7) none, .restart 0 0 none, .submit 0 (.put 7 5 0) (some (1, 2)), .commit 0,
   .execute 0, .lookup 0, .deliver 0, .receive 0 0]

theorem submit_own_result_put :
    ∃ (e : Execution Nat (KvRaft.stateMachine Nat Nat))
      (r : Return Nat (KvRaft.Req Nat Nat) (KvRaft.Resp Nat)),
      (r ∈ (e.state 8).returned) ∧ (r.result = some (.put .ok)) ∧
      (r.Own (KvRaft.stateMachine Nat Nat) (e.state 8)) := by
  let e := System.Behavior.ofActions (rsm Nat (KvRaft.stateMachine Nat Nat)) submission
    (by decide +kernel)
  let r : Return Nat (KvRaft.Req Nat Nat) (KvRaft.Resp Nat) :=
    ⟨⟨⟨.put 7 5 0, 0, 0⟩, 1⟩, some 1, .ok, some (.put .ok)⟩
  have h : e.Avoids State.Reused := System.Behavior.avoids_ofActions (by decide +kernel)
  have hr : r ∈ (e.state 8).returned := by decide +kernel
  exact ⟨e, r, hr, rfl, Execution.submit_own_result e h 8 hr rfl⟩

-- A server is restarted before its first call of `Submit` was committed. `Start` returns the same
-- index to the first call after the restart, but then the old operation is committed.
def resubmission : List (Event Nat (KvRaft.Req Nat Nat) (Nat → Option (Data Nat))) :=
  [.submit 0 (.get 7) (some (1, 1)), .restart 0 0 none, .submit 0 (.put 7 5 0) (some (1, 2)),
    .commit 1, .execute 0, .lookup 0, .deliver 0, .receive 0 0]

-- The `Put` returns the response of the `Get`.
theorem submit_other_result :
    ∃ (e : Execution Nat (KvRaft.stateMachine Nat Nat)) (i : Nat)
      (r : Return Nat (KvRaft.Req Nat Nat) (KvRaft.Resp Nat)),
      (r ∈ (e.state i).returned) ∧ (r.err = .ok) ∧
      (r.call.op.req = .put 7 5 0) ∧ (r.result = some (.get ⟨none, 0, .errNoKey⟩)) ∧
      ¬r.Own (KvRaft.stateMachine Nat Nat) (e.state i) := by
  let e := System.Behavior.ofActions (rsm Nat (KvRaft.stateMachine Nat Nat)) resubmission
    (by decide +kernel)
  let r : Return Nat (KvRaft.Req Nat Nat) (KvRaft.Resp Nat) :=
    ⟨⟨⟨.put 7 5 0, 0, 0⟩, 1⟩, some 1, .ok, some (.get ⟨none, 0, .errNoKey⟩)⟩
  have hr : (e.state 8).returned = [r] := by decide +kernel
  have hq : (e.state 8).sequence = [⟨⟨.get 7, 0, 0⟩, 0⟩] := by decide +kernel
  refine ⟨e, 8, r, hr ▸ List.mem_singleton_self r, rfl, rfl, rfl, ?_⟩
  rintro ⟨index, _, _, _, hi, -, -, hs, -⟩
  cases hi
  simp [hq, r] at hs

end Rsm
