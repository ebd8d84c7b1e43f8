import DistributedSystems.Rsm.Theorems.Submit

namespace Rsm

variable {σ P Req Res D : Type} {sm : StateMachine σ Req Res D}

-- The states that a server can be in after the first of the requests. What `Restore` leaves of the
-- old state is up to the state machine.
inductive StateMachine.Derives (sm : StateMachine σ Req Res D) (requests : List Req) :
    Nat → σ → Prop
  | init : Derives sm requests 0 sm.init
  | doOp {i req st after opResult} (h : Derives sm requests i st) (hr : requests[i]? = some req)
    (hd : sm.doOp st req = some (after, opResult)) : Derives sm requests (i + 1) after
  | restore {i j st st'} (h : Derives sm requests i st) (h' : Derives sm requests j st')
    (hi : i ≤ j) :
    Derives sm requests j (sm.restore st (sm.snapshot st'))

namespace StateMachine.Derives

variable {requests : List Req} {i : Nat} {st : σ}

theorem le_length (h : sm.Derives requests i st) : i ≤ requests.length := by
  induction h
  case init           => exact Nat.zero_le _
  case doOp hr _ _    => exact (List.getElem?_eq_some_iff.mp hr).choose
  case restore _ _ hi => exact hi

theorem append (h : sm.Derives requests i st) (reqs : List Req) :
    sm.Derives (requests ++ reqs) i st := by
  induction h
  case init               => exact .init
  case doOp hr hd hi      =>
    have hl := (List.getElem?_eq_some_iff.mp hr).choose
    exact .doOp hi (by rwa [List.getElem?_append_left hl]) hd
  case restore hle hi hi' => exact .restore hi hi' hle

end StateMachine.Derives

namespace State

def requests (s : State σ P Req Res) : List Req :=
  s.sequence.map (·.op.req)

-- The data are the snapshot of a server that has executed the operations up to the index.
def Taken (sm : StateMachine σ Req Res D) (s : State σ P Req Res) (index : Nat) (data : D) : Prop :=
  ∃ st, sm.Derives s.requests index st ∧ data = sm.snapshot st

-- A server restores something else than a snapshot of the operations up to the index.
def Foreign (sm : StateMachine σ Req Res D) (s : State σ P Req Res) : Event P Req D → Prop
  | .restore _ index data        => ¬s.Taken sm index data
  | .restart _ index (some data) => ¬s.Taken sm index data
  | .restart _ index none        => index ≠ 0
  | _                            => False

-- All servers have executed the same operations.
structure Derived (sm : StateMachine σ Req Res D) (s : State σ P Req Res) : Prop where
  server  : ∀ p, sm.Derives s.requests (s.rsm p).lastApplied (s.rsm p).sm
  applied : ∀ a ∈ s.applied, ∃ i, a.index = i + 1 ∧ sm.Derives s.requests i a.before

variable {s s' : State σ P Req Res}

theorem getElem?_requests {i : Nat} {call : Call P Req} (h : s.sequence[i]? = some call) :
    s.requests[i]? = some call.op.req := by
  simp [requests, h]

theorem Taken.le_length {index : Nat} {data : D} (h : s.Taken sm index data) :
    index ≤ s.sequence.length := by
  have ⟨_, hs, _⟩ := h
  simpa [requests] using hs.le_length

theorem Taken.mono {index : Nat} {data : D} (h : s.Taken sm index data)
    (hq : s.sequence <+: s'.sequence) :
    s'.Taken sm index data := by
  obtain ⟨st, hs, hd⟩ := h
  obtain ⟨calls, hq⟩ := hq
  refine ⟨st, ?_, hd⟩
  rw [requests, ←hq, List.map_append]
  exact hs.append _

namespace Derived

theorem init : (State.init sm : State σ P Req Res).Derived sm where
  server _ := .init
  applied  := nofun

-- A server can take a snapshot of its state at any time.
theorem taken (h : s.Derived sm) (p : P) :
    s.Taken sm (s.rsm p).lastApplied (sm.snapshot (s.rsm p).sm) :=
  ⟨_, h.server p, rfl⟩

theorem commit (h : s.Derived sm) (call : Call P Req) :
    { s with sequence := s.sequence ++ [call] }.Derived sm where
  server p     := by simpa [requests] using (h.server p).append [call.op.req]
  applied a ha := by
    have ⟨i, hi, hb⟩ := h.applied a ha
    exact ⟨i, hi, by simpa [requests] using hb.append [call.op.req]⟩

variable [DecidableEq P]

theorem set (h : s.Derived sm) {p : P} {r : RSM σ P Req Res}
    (hr : sm.Derives s.requests r.lastApplied r.sm) :
    (s.set p r).Derived sm where
  server q := by
    by_cases hq : q = p
    case pos => simpa [State.set, requests, hq] using hr
    case neg => simpa [State.set, requests, hq] using h.server q
  applied  := h.applied

theorem submit (h : s.Derived sm) (p : P) (req : Req) (start : Option (Nat × Nat)) :
    (s.submit p req start).Derived sm := by
  rcases start with _ | ⟨index, initialTerm⟩
  · have h := h.set (p := p) (r := { s.rsm p with id := (s.rsm p).id + 1 }) (h.server p)
    exact ⟨h.server, h.applied⟩
  · have h := h.set (p := p) (r := (s.rsm p).register ((s.rsm p).op p req) index initialTerm)
      (h.server p)
    exact ⟨h.server, h.applied⟩

theorem respond (h : s.Derived sm) (p : P) (w : Pending P Req) (err : KvSrv.Err)
    (result : Option Res) :
    (s.respond p w err result).Derived sm :=
  have h := h.set (p := p) (r := (s.rsm p).unregister w) (h.server p)
  ⟨h.server, h.applied⟩

theorem execute (h : s.Derived sm) {p : P} {call : Call P Req} {after : σ} {opResult : Res}
    {reader : Reader P Req Res} (hc : s.sequence[(s.rsm p).lastApplied]? = some call)
    (hd : sm.doOp (s.rsm p).sm call.op.req = some (after, opResult)) :
    { s.set p { s.rsm p with sm := after, reader, lastApplied := (s.rsm p).lastApplied + 1 } with
      applied :=
        ⟨p, (s.rsm p).incarnation, (s.rsm p).lastApplied + 1, call, (s.rsm p).sm, opResult⟩ ::
        s.applied }.Derived sm := by
  have h' := h.set (p := p)
    (r := { s.rsm p with sm := after, reader, lastApplied := (s.rsm p).lastApplied + 1 })
    (.doOp (h.server p) (getElem?_requests hc) hd)
  refine ⟨h'.server, fun a ha => ?_⟩
  rcases List.mem_cons.mp ha with rfl | ha
  · exact ⟨_, rfl, h.server p⟩
  · exact h.applied a ha

theorem step (h : s.Derived sm) {e : Event P Req D} (hs : Stepped sm s e s')
    (hf : ¬s.Foreign sm e) :
    s'.Derived sm := by
  cases hs
  case refused p req                          => exact h.submit p req none
  case started p req index initialTerm        => exact h.submit p req (some (index, initialTerm))
  case received p id w result _ _             =>
    have h := h.set (p := p)
      (r := { s.rsm p with channel := Function.update (s.rsm p).channel id none })
      (h.server p)
    exact h.respond ..
  case deposed                                => exact h.respond ..
  case waited                                 => exact h
  case committed                              => exact h.commit _
  case executed p call after opResult _ hc hd => exact h.execute hc hd
  case restored p index data _ hi =>
    obtain ⟨st, hst, rfl⟩ := not_not.mp hf
    exact h.set (.restore (h.server p) hst hi)
  case restarted p index data =>
    cases data
    case none =>
      obtain rfl := not_not.mp hf
      exact h.set .init
    case some data =>
      obtain ⟨st, hst, rfl⟩ := not_not.mp hf
      exact h.set (.restore .init hst (Nat.zero_le _))
  all_goals
    refine h.set ?_
    exact h.server _

end Derived

end State

-- What is restored has been passed to `Snapshot` before.
def Event.Permitted (snapshots : List (Nat × D)) : Event P Req D → Prop
  | .submit ..            => False
  | .restore _ index data => (index, data) ∈ snapshots
  | .restart _ index data => (index = 0 ∧ data = none) ∨ ∃ d, data = some d ∧ (index, d) ∈ snapshots
  | _                     => True

namespace State

variable {s s' : State σ P Req Res} {snapshots : List (Nat × D)}

theorem not_reused {e : Event P Req D} (hp : e.Permitted snapshots) : ¬s.Reused e := by
  cases e
  case submit => exact hp.elim
  all_goals exact id

structure Faithful (sm : StateMachine σ Req Res D) (snapshots : List (Nat × D))
    (s : State σ P Req Res) : Prop
    extends s.Derived sm where
  snapshots : ∀ x ∈ snapshots, s.Taken sm x.fst x.snd

namespace Faithful

theorem init : (State.init sm : State σ P Req Res).Faithful sm [] where
  toDerived := .init
  snapshots := nofun

theorem snapshot (h : s.Faithful sm snapshots) (p : P) :
    s.Faithful sm (snapshots ++ [((s.rsm p).lastApplied, sm.snapshot (s.rsm p).sm)]) where
  toDerived := h.toDerived
  snapshots := List.forall_mem_append.mpr ⟨h.snapshots, by simpa using h.taken p⟩

theorem not_foreign (h : s.Faithful sm snapshots) {e : Event P Req D} (hp : e.Permitted snapshots) :
    ¬s.Foreign sm e := by
  cases e
  case restore p index data => exact not_not.mpr (h.snapshots _ hp)
  case restart p index data =>
    rcases hp with ⟨rfl, rfl⟩ | ⟨d, rfl, hd⟩
    · exact not_not.mpr rfl
    · exact not_not.mpr (h.snapshots _ hd)
  all_goals exact id

variable [DecidableEq P]

theorem submit (h : s.Faithful sm snapshots) (p : P) (req : Req) (start : Option (Nat × Nat)) :
    (s.submit p req start).Faithful sm snapshots where
  toDerived      := h.toDerived.submit p req start
  snapshots x hx := (h.snapshots x hx).mono (by rcases start with _ | _ <;> exact List.prefix_rfl)

theorem step (h : s.Faithful sm snapshots) {e : Event P Req D} (hp : e.Permitted snapshots)
    (hs : Stepped sm s e s') : s'.Faithful sm snapshots where
  toDerived      := h.toDerived.step hs (h.not_foreign hp)
  snapshots x hx := by
    refine (h.snapshots x hx).mono ?_
    cases hs
    case committed => exact List.prefix_append ..
    all_goals exact List.prefix_rfl

end Faithful

variable [DecidableEq P]

abbrev Steps (sm : StateMachine σ Req Res D) (snapshots : List (Nat × D)) :
    State σ P Req Res → State σ P Req Res → Prop :=
  Relation.ReflTransGen fun s s' => ∃ e : Event P Req D, e.Permitted snapshots ∧
  s.next sm e = some s'

theorem Faithful.steps (h : s.Faithful sm snapshots) (hs : s.Steps sm snapshots s') :
    s'.Faithful sm snapshots := by
  induction hs
  case refl       => exact h
  case tail hs hi =>
    obtain ⟨e, hp, hs⟩ := hs
    exact hi.step hp (stepped hs)

end State

end Rsm
