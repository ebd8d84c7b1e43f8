import DistributedSystems.Library.Service
import DistributedSystems.Raft.Theorems.ApplyOrder
import DistributedSystems.Raft.Theorems.Provenance
import DistributedSystems.Rsm.Replicated
import DistributedSystems.Rsm.Theorems.Derived

open TermLog
open Rsm (StateMachine RSM)

-- Sequences of operations

section Sequence

variable {n : Nat} {C D : Type} {w w' : Logs n C} {sequence : List C}

-- The operations are the first commands of a decided log.
def Logs.Agrees (w : Logs n C) (sequence : List C) : Prop :=
  ∃ t l, w.Decided t l ∧ sequence.length < l.length ∧
    ∀ k c, sequence[k]? = some c → l[k + 1]?.map (·.command) = some (some c)

namespace Logs.Agrees

theorem grows (h : Logs.Agrees w sequence) (g : w.Grows w') : Logs.Agrees w' sequence :=
  have ⟨t, l, hd, hl⟩ := h
  ⟨t, l, g.decided hd le_rfl, hl⟩

-- A command that a peer may apply is the one in the sequence, or it can be added to it.
theorem read (h : Logs.Agrees w sequence) (hv : w.Valid) {nd : Node n C D} {p : Fin n}
    (hn : nd.Refines w p) {k : Nat} {c : C} (hk : k + 1 ≤ nd.rf.commitIndex)
    (hc : (w.log p)[k + 1]?.map (·.command) = some (some c)) :
    (k < sequence.length → sequence[k]? = some c) ∧
    (k = sequence.length → Logs.Agrees w (sequence ++ [c])) := by
  obtain ⟨t, l, hd, hlen, hl⟩ := h
  have hmlen : ((w.log p).take (nd.rf.commitIndex + 1)).length = nd.rf.commitIndex + 1 := by
    have := hn.commit
    rw [List.length_take]
    omega
  have hm {i} (hi : i ≤ nd.rf.commitIndex) :
      ((w.log p).take (nd.rf.commitIndex + 1))[i]? = (w.log p)[i]? :=
    List.getElem?_take_of_lt (by omega)
  have heq {i} (hi : i < l.length) (hi' : i ≤ nd.rf.commitIndex) : l[i]? = (w.log p)[i]? :=
    (hv.decided_getElem? hd hn.decided hi (by omega)).trans (hm hi')
  refine ⟨fun hlt => ?_, ?_⟩
  · have hs := List.getElem?_eq_getElem hlt
    have hx := hl k _ hs
    rw [heq (by omega) hk, hc, Option.some.injEq, Option.some.injEq] at hx
    rw [hs, hx]
  · rintro rfl
    refine ⟨_, _, hn.decided, by simpa [hmlen] using hk, fun i d hi => ?_⟩
    by_cases hlt : i < sequence.length
    case pos =>
      rw [List.getElem?_append_left hlt] at hi
      rw [hm (by omega), ←heq (by omega) (by omega)]
      exact hl i d hi
    case neg =>
      have hi := List.getElem?_eq_some_iff.mp hi
      obtain ⟨hb, hi⟩ := hi
      obtain rfl : i = sequence.length := by
        rw [List.length_append, List.length_singleton] at hb
        omega
      rw [hm hk, hc]
      simpa using hi

end Logs.Agrees

end Sequence

-- Streams of messages

section Messages

variable {n : Nat} {C D : Type} {msgs : List (ApplyMsg C D)}

theorem lastIndex_le {i k : Nat} (hi : i ≤ k) (h : ∀ m ∈ msgs, m.index ≤ k) :
    lastIndex i msgs ≤ k := by
  induction msgs generalizing i
  case nil          => exact hi
  case cons m _ hi' =>
    exact hi' (h m List.mem_cons_self) fun m' hm => h m' (List.mem_cons_of_mem m hm)

end Messages

-- A peer and the RSM above it

section Attached

variable {n : Nat} {σ P Req Res C D : Type} {nd : Node n C D} {rsm : RSM σ P Req Res}

structure Attached (nd : Node n C D) (rsm : RSM σ P Req Res) : Prop where
  incarnation : rsm.incarnation = nd.incarnation
  stream      : ∃ i, nd.Streams i ∧ i ≤ nd.rf.lastApplied ∧ rsm.lastApplied = lastIndex i nd.applyCh

namespace Attached

theorem congr (h : Attached nd rsm) {rsm' : RSM σ P Req Res}
    (hi : rsm'.incarnation = rsm.incarnation) (hl : rsm'.lastApplied = rsm.lastApplied) :
    Attached nd rsm' where
  incarnation := hi.trans h.incarnation
  stream      :=
    have ⟨i, hs, hb, hx⟩ := h.stream
    ⟨i, hs, hb, hl.trans hx⟩

theorem boot {sm : StateMachine σ Req Res D} {me : Fin n} {persister : Persister n C D} {k : Nat} :
    Attached (.boot me persister k)
      (.make sm k (Node.boot me persister k).rf.snapshotLastIndex persister.snapshot :
        RSM σ P Req Res) where
  incarnation := rfl
  stream      := by
    refine ⟨_, .boot, ?_, rfl⟩
    cases persister with | mk raftstate _ => cases raftstate <;> exact le_rfl

theorem continues {s : Cluster n C D} {p : Fin n} (h : Attached (s.node p) rsm)
    (ho : (s.node p).Ordered) {a : Event n C D} (hc : s.Continues a p nd)
    (hm : nd.applyCh = (s.node p).applyCh) : Attached nd rsm where
  incarnation := h.incarnation.trans hc.incarnation.symm
  stream      := by
    obtain ⟨i, hs, hb, hx⟩ := h.stream
    refine ⟨i, hc.streams hs, ?_, by rw [hm, hx]⟩
    cases hc
    case same hsame _ _       => exact hsame.lastApplied ▸ hb
    case stores rf hl _ _     => exact hl ▸ hb
    case ticks rf applier hf ht =>
      have ⟨b, hset⟩ := (s.node p).rf.settle_eq (s.node p).applier
      have hl : ((s.node p).rf.settle (s.node p).applier).lastApplied =
          (s.node p).rf.lastApplied := by rw [hset]
      cases ht
      case sleep       => exact hl ▸ hb
      case snapshot hw =>
        have ⟨he, hlt⟩ := ho.waits hf hw
        rw [he]
        exact hb.trans hlt.le
      case command     => exact (hl ▸ hb).trans (Nat.le_succ _)
    case receives msg _ => simp at hm

theorem receive (h : Attached nd rsm) {msg : ApplyMsg C D} (ha : nd.applier = .offering msg)
    {rsm' : RSM σ P Req Res} (hi : rsm'.incarnation = rsm.incarnation)
    (hl : rsm'.lastApplied = msg.index) :
    Attached { nd with applier := .sent msg, applyCh := nd.applyCh ++ [msg] } rsm' where
  incarnation := hi.trans h.incarnation
  stream      :=
    have ⟨i, hs, hb, _⟩ := h.stream
    ⟨i, hs.receive ha, hb, hl.trans lastIndex_concat.symm⟩

-- The next command is the one after the last message.
theorem command (h : Attached nd rsm) {c : Option C} {index : Nat}
    (ha : nd.applier = .offering (.command c index)) : index = rsm.lastApplied + 1 := by
  have ⟨i, hs, _, hx⟩ := h.stream
  have hp := hs.position
  rw [ha] at hp
  exact hx ▸ hp.right

theorem snapshot (h : Attached nd rsm) (ho : nd.Ordered) {data : Option D} {term index : Nat}
    (ha : nd.applier = .offering (.snapshot data term index)) : rsm.lastApplied ≤ index := by
  have ⟨i, hs, hb, hx⟩ := h.stream
  have hp := ho.ahead
  rw [ha] at hp
  rw [hx, show index = nd.rf.lastApplied from hp.left]
  exact lastIndex_le hb fun m hm => (hp.right m hm).le

theorem received (h : Attached nd rsm) {k : Nat} (hr : nd.received = some k) :
    k = rsm.lastApplied := by
  have ⟨i, _, _, hx⟩ := h.stream
  simp only [Node.received] at hr
  split at hr
  case h_1 c index hl =>
    cases hr
    rw [hx, lastIndex_of_getLast? hl]
    rfl
  case h_2 => cases hr

end Attached

end Attached

-- The peers

structure Cluster.Grounded {n : Nat} {C D : Type} (s : Cluster n C D) (w : Logs n C)
    (started : List (Nat × C)) (snapshots : List (Nat × D)) : Prop where
  refines : s.Refines w
  ordered : ∀ p, (s.node p).Ordered
  sourced : s.Sourced (fun i c => (i, c) ∈ started) (fun i d => (i, d) ∈ snapshots)

theorem Cluster.Grounded.next {n : Nat} {C D : Type} [DecidableEq C] [DecidableEq D]
    {s s' : Cluster n C D} {w : Logs n C} {started started' : List (Nat × C)}
    {snapshots snapshots' : List (Nat × D)} (h : s.Grounded w started snapshots) {a : Event n C D}
    (hs : s.next a = some s') (hb : ¬s.Outdated a) (ho : ¬s.Overtaken a) (hst : started ⊆ started')
    (hsn : snapshots ⊆ snapshots')
    (hG : ∀ p command, a = .start p command → (s.node p).rf.state = .leader →
      ((s.node p).rf.logLength, command) ∈ started')
    (hH : ∀ p data, a = .snapshot p data → ∀ i, (s.node p).received = some i →
      (i, data) ∈ snapshots') :
    ∃ w', w.Grows w' ∧ s'.Grounded w' started' snapshots' := by
  have ⟨w', hm, hr⟩ := h.refines.next_refines hs hb
  have hsrc := h.sourced.mono (fun _ _ hx => hst hx) (fun _ _ hx => hsn hx)
  exact ⟨w', hm.grows, hr, Cluster.ordered_next h.ordered hs ho,
    hsrc.next h.refines.streams hG hH hs⟩

-- A step of one peer that sends nothing on `applyCh`. It may crash.
def Cluster.Silent {n : Nat} {C D : Type} (s s' : Cluster n C D) : Prop :=
  ∃ p nd msgs, s' = s.update p nd msgs ∧
    (nd.applyCh = (s.node p).applyCh ∨ nd.incarnation = (s.node p).incarnation + 1)

theorem Cluster.next_silent {n : Nat} {C D : Type} [DecidableEq C] [DecidableEq D]
    {s s' : Cluster n C D} {a : Event n C D} (h : s.next a = some s') (ha : ∀ p, a ≠ .receive p) :
    s.Silent s' := by
  cases a <;> simp only [Cluster.next] at h
  case receive p       => exact absurd rfl (ha p)
  case start p command =>
    cases h
    rw [Cluster.start]
    split
    case h_1 => exact ⟨_, _, _, rfl, .inl rfl⟩
    case h_2 => exact ⟨_, _, _, rfl, .inr rfl⟩
  case startElection p =>
    cases h
    rw [Cluster.startElection]
    split
    case h_1 => exact ⟨_, _, _, rfl, .inl rfl⟩
    case h_2 => exact ⟨_, _, _, rfl, .inr rfl⟩
  case heartbeat p     =>
    rw [Cluster.heartbeat] at h
    split_ifs at h
    split at h <;> cases h
    case h_1 => exact ⟨_, _, _, rfl, .inl rfl⟩
    case h_2 => exact ⟨_, _, _, rfl, .inr rfl⟩
  case snapshot p data =>
    obtain ⟨i, _, rfl⟩ := Option.map_eq_some_iff.mp h
    split
    case h_1 => exact ⟨_, _, _, rfl, .inl rfl⟩
    case h_2 => exact ⟨_, _, _, rfl, .inr rfl⟩
  case applyTicker p   =>
    obtain ⟨r, _, rfl⟩ := Option.map_eq_some_iff.mp h
    cases r
    case ok    => exact ⟨_, _, _, rfl, .inl rfl⟩
    case error => exact ⟨_, _, _, rfl, .inr rfl⟩
  case serve call      =>
    split_ifs at h
    cases h
    rw [Cluster.serve]
    split
    case h_1 => exact ⟨_, _, _, rfl, .inl rfl⟩
    case h_2 => exact ⟨_, _, _, rfl, .inr rfl⟩
  case returned call r =>
    split_ifs at h
    rw [Cluster.returned] at h
    split_ifs at h
    obtain ⟨r, _, rfl⟩ := Option.map_eq_some_iff.mp h
    cases r
    case ok    => exact ⟨_, _, _, rfl, .inl rfl⟩
    case error => exact ⟨_, _, _, rfl, .inr rfl⟩
  case failed call     =>
    split_ifs at h
    rw [Cluster.failed] at h
    split_ifs at h
    split at h <;> cases h
    case h_1 => exact ⟨call.caller, _, [], Cluster.update_self.symm, .inl rfl⟩
    case h_2 => exact ⟨_, _, _, rfl, .inl rfl⟩
  case restart p       =>
    cases h
    exact ⟨_, _, _, rfl, .inr rfl⟩

-- The steps of the servers

namespace Rsm

variable {σ P Req Res D : Type}

-- Nothing has been started or executed, and no server has crashed.
structure State.Calm (s s' : State σ P Req Res) : Prop where
  started     : s'.started = s.started
  sequence    : s'.sequence = s.sequence
  incarnation : ∀ p, (s'.rsm p).incarnation = (s.rsm p).incarnation
  lastApplied : ∀ p, (s'.rsm p).lastApplied = (s.rsm p).lastApplied

theorem State.Calm.trans {s₁ s₂ s₃ : State σ P Req Res} (h₁ : s₁.Calm s₂) (h₂ : s₂.Calm s₃) :
    s₁.Calm s₃ where
  started       := h₂.started.trans h₁.started
  sequence      := h₂.sequence.trans h₁.sequence
  incarnation p := (h₂.incarnation p).trans (h₁.incarnation p)
  lastApplied p := (h₂.lastApplied p).trans (h₁.lastApplied p)

def Event.Local : Event P Req D → Prop
  | .receive .. | .poll .. | .lookup _ | .deliver _ => True
  | _                                               => False

variable [DecidableEq P]

@[simp]
theorem State.set_rsm_self {s : State σ P Req Res} {p : P} {rsm} : (s.set p rsm).rsm p = rsm :=
  Function.update_self ..

@[simp]
theorem State.set_rsm_ne {s : State σ P Req Res} {p q : P} {rsm} (h : q ≠ p) :
    (s.set p rsm).rsm q = s.rsm q :=
  Function.update_of_ne h ..

theorem State.Calm.set (s : State σ P Req Res) {p : P} {rsm : RSM σ P Req Res}
    (hi : rsm.incarnation = (s.rsm p).incarnation) (hl : rsm.lastApplied = (s.rsm p).lastApplied) :
    s.Calm (s.set p rsm) := by
  refine ⟨rfl, rfl, fun q => ?_, fun q => ?_⟩ <;> by_cases hq : q = p <;> simp [hq, hi, hl]

theorem State.Calm.respond (s : State σ P Req Res) (p : P) (w : Pending P Req) (err : KvSrv.Err)
    (result : Option Res) : s.Calm (s.respond p w err result) :=
  have h : s.Calm (s.set p ((s.rsm p).unregister w)) := .set s rfl rfl
  { h with }

theorem State.submit_rsm (s : State σ P Req Res) (p : P) (req : Req) (start : Option (Nat × Nat))
    (q : P) :
    ((s.submit p req start).rsm q).incarnation = (s.rsm q).incarnation ∧
    ((s.submit p req start).rsm q).lastApplied = (s.rsm q).lastApplied := by
  by_cases hq : q = p <;> rcases start with _ | ⟨index, term⟩ <;>
    simp [State.submit, State.set, RSM.register, hq]

theorem State.submit_sequence (s : State σ P Req Res) (p : P) (req : Req)
    (start : Option (Nat × Nat)) :
    (s.submit p req start).sequence = s.sequence := by
  rcases start with _ | ⟨index, term⟩ <;> rfl

theorem State.Stepped.calm {sm : StateMachine σ Req Res D} {s s' : State σ P Req Res}
    {e : Event P Req D} (h : Stepped sm s e s') (he : e.Local) : s.Calm s' := by
  cases h
  case received p id _ _ _ _ =>
    have hd : s.Calm
        (s.set p { s.rsm p with channel := Function.update (s.rsm p).channel id none }) :=
      .set s rfl rfl
    exact hd.trans (.respond ..)
  case deposed   => exact .respond ..
  case waited    => exact ⟨rfl, rfl, fun _ => rfl, fun _ => rfl⟩
  case found     => exact .set s rfl rfl
  case missing   => exact .set s rfl rfl
  case delivered => exact .set s rfl rfl
  all_goals exact he.elim

end Rsm

namespace Replicated

variable {n : Nat} {σ Req Res D : Type} {sm : StateMachine σ Req Res D}
  {s s' : Replicated n σ Req Res D} {w : Logs n (Rsm.Call (Fin n) Req)} {p : Fin n}

-- What the step is for servers that know nothing about Raft but the order of the operations.
inductive Refined (sm : StateMachine σ Req Res D) (s : Replicated n σ Req Res D) :
    Action n Req D → Replicated n σ Req Res D → Prop
  | submitted {p req raft} (start)
    (hr : ¬s.rsm.Reused (.submit p req start : Rsm.Event (Fin n) Req D)) :
    Refined sm s (.submit p req) { s with raft, rsm := s.rsm.submit p req start }
  | snapshotted {p raft} (hr : (s.rsm.rsm p).reader = .receiving) :
    Refined sm s (.maybeSnapshot p)
      { s with raft, snapshots :=
        s.snapshots ++ [((s.rsm.rsm p).lastApplied, sm.snapshot (s.rsm.rsm p).sm)] }
  | internal {a raft rsm} (ha : ∀ p req, a ≠ .submit p req) (hs : s.rsm.Steps sm s.snapshots rsm) :
    Refined sm s a { s with raft, rsm }

-- The next call of `Submit` gets the same key as an earlier one.
def Reuses (s : Replicated n σ Req Res D) (p : Fin n) : Prop :=
  (s.raft.node p).rf.state = .leader ∧
  ∃ x ∈ s.rsm.started, x.fst = (s.raft.node p).rf.logLength ∧ x.snd.op.me = p ∧
  x.snd.op.id = (s.rsm.rsm p).id

-- The steps at which the guarantees of Raft or of `Submit` are lost.
def Bad (s : Replicated n σ Req Res D) : Action n Req D → Prop
  | .submit p _ => s.Reuses p
  | .raft e     => s.raft.Outdated e ∨ s.raft.Overtaken e
  | _           => False

instance decidableReuses : Decidable (s.Reuses p) :=
  inferInstanceAs (Decidable (_ ∧ ∃ x ∈ s.rsm.started, _))

instance decidableBad : (a : Action n Req D) → Decidable (s.Bad a)
  | .submit p _ => inferInstanceAs (Decidable (s.Reuses p))
  | .raft e     => inferInstanceAs (Decidable (s.raft.Outdated e ∨ s.raft.Overtaken e))
  | .receive .. | .poll .. | .read _ | .lookup _ | .deliver _ | .maybeSnapshot _ => isFalse id

structure Coupled (sm : StateMachine σ Req Res D) (s : Replicated n σ Req Res D)
    (w : Logs n (Rsm.Call (Fin n) Req)) : Prop where
  grounded : s.raft.Grounded w s.rsm.started s.snapshots
  attached : ∀ p, Attached (s.raft.node p) (s.rsm.rsm p)
  agrees   : Logs.Agrees w s.rsm.sequence
  faithful : s.rsm.Faithful sm s.snapshots

-- Only the peer that takes the step can crash.
theorem follow_update {nd : Node n (Rsm.Call (Fin n) Req) D} {msgs} :
    s.follow sm (s.raft.update p nd msgs) =
    if nd.incarnation = (s.raft.node p).incarnation then { s with raft := s.raft.update p nd msgs }
      else
    { s with
      raft := s.raft.update p nd msgs
      rsm  := s.rsm.set p
        (.make sm nd.incarnation nd.rf.snapshotLastIndex nd.persister.snapshot) } := by
  simp only [follow]
  split_ifs with hi <;> congr <;> funext q <;> by_cases hq : q = p <;> simp [Cluster.update, hq, hi]

theorem follow_finish {rf : Raft n (Rsm.Call (Fin n) Req) D} {msgs} :
    s.follow sm (s.raft.update p ((s.raft.node p).finish rf) msgs) =
    { s with raft := s.raft.update p ((s.raft.node p).finish rf) msgs } :=
  follow_update.trans (if_pos rfl)

namespace Coupled

variable (h : s.Coupled sm w)
include h

theorem persister_le (me p : Fin n) :
    (Raft.make me (s.raft.node p).persister).snapshotLastIndex ≤ s.rsm.sequence.length := by
  rcases ((h.grounded.sourced.node p).persister me).snapshot with ⟨h0, _⟩ | ⟨d, _, hd⟩
  · exact h0 ▸ Nat.zero_le _
  · exact (h.faithful.snapshots _ hd).le_length

-- A server that has crashed goes on with the snapshot of its persister.
theorem restart (me p : Fin n) (k : Nat) :
    s.rsm.Steps sm s.snapshots (s.rsm.set p (.make sm ((s.raft.node p).incarnation + 1)
      (Node.boot me (s.raft.node p).persister k).rf.snapshotLastIndex
        (s.raft.node p).persister.snapshot)) := by
  have hs := ((h.grounded.sourced.node p).persister me).snapshot
  refine .single ⟨.restart p (Raft.make me (s.raft.node p).persister).snapshotLastIndex
    (s.raft.node p).persister.snapshot, hs, ?_⟩
  rw [Rsm.State.next, if_pos (h.persister_le me p), (h.attached p).incarnation]
  rfl

theorem local_step {f : Rsm.Event (Fin n) Req D} (hf : f.Local) (hp : f.Permitted s.snapshots) {rsm}
    (hs : s.rsm.next sm f = some rsm) : { s with rsm }.Coupled sm w :=
  have hc := (Rsm.State.stepped hs).calm hf
  { grounded   := hc.started.symm ▸ h.grounded
    attached p := (h.attached p).congr (hc.incarnation p) (hc.lastApplied p)
    agrees     := hc.sequence.symm ▸ h.agrees
    faithful   := h.faithful.step hp (Rsm.State.stepped hs) }

variable [DecidableEq Req] [DecidableEq D]

-- What Raft does on its own, or in a call of `Start` or `Snapshot`, is invisible above it, except
-- for a crash.
theorem follow {raft} {a : Event n (Rsm.Call (Fin n) Req) D} (hs : s.raft.next a = some raft)
    (ha : ∀ p, a ≠ .receive p) (hp : s.raft.panics a = false) :
    s.rsm.Steps sm s.snapshots (s.follow sm raft).rsm ∧
    (∀ q, Attached (raft.node q) ((s.follow sm raft).rsm.rsm q)) := by
  obtain ⟨p, nd, msgs, rfl, hq⟩ := Cluster.next_silent hs ha
  have hself : (s.raft.update p nd msgs).node p = nd := Function.update_self ..
  have hproc := Cluster.next_proceeds hs p
  rw [hself] at hproc
  rw [follow_update]
  split_ifs with hi
  case pos =>
    refine ⟨.refl, fun q => ?_⟩
    by_cases hqp : q = p
    case neg => simpa [Cluster.update, hqp] using h.attached q
    case pos =>
      subst hqp
      rw [hself]
      rcases hproc with hc | ⟨_, rfl, _⟩
      · exact (h.attached q).continues (h.grounded.ordered q) hc (hq.resolve_right (by omega))
      · exact absurd hi (Nat.succ_ne_self _)
  case neg =>
    rcases hproc with hc | ⟨persister, rfl, hper⟩
    · exact absurd hc.incarnation hi
    · obtain rfl := hper hp
      have hstep := h.restart (s.raft.node p).rf.me p ((s.raft.node p).incarnation + 1)
      refine ⟨hstep, fun q => ?_⟩
      by_cases hqp : q = p
      case neg => simpa [Cluster.update, hqp] using h.attached q
      case pos =>
        subst hqp
        rw [hself]
        simp only [Rsm.State.set_rsm_self]
        exact .boot

theorem raft {e : Event n (Rsm.Call (Fin n) Req) D} {raft} (hs : s.raft.next e = some raft)
    (hr : ∀ p, e ≠ .receive p) (ha : ∀ p command, e ≠ .start p command)
    (hd : ∀ p data, e ≠ .snapshot p data) (hb : ¬s.raft.Outdated e) (ho : ¬s.raft.Overtaken e) :
    s.rsm.Steps sm s.snapshots (s.follow sm raft).rsm ∧ ∃ w', (s.follow sm raft).Coupled sm w' := by
  have hp := h.grounded.refines.next_panics (by rw [hs]; rfl)
  have ⟨hstep, hatt⟩ := h.follow hs hr hp
  have ⟨w', g, hg⟩ := h.grounded.next hs hb ho (List.Subset.refl _) (List.Subset.refl _)
    (fun p c he => absurd he (ha p c)) (fun p d he => absurd he (hd p d))
  exact ⟨hstep, w', hg, hatt, h.agrees.grows g, h.faithful.steps hstep⟩

theorem submit (req : Req) (hb : ¬s.Reuses p) :
    s.Refined sm (.submit p req) (s.submit sm p req) ∧ ∃ w', (s.submit sm p req).Coupled sm w' := by
  let call : Rsm.Call (Fin n) Req := ⟨(s.rsm.rsm p).op p req, (s.rsm.rsm p).incarnation⟩
  have hs : s.raft.next (.start p call) = some (s.raft.start p call) := rfl
  have hp := h.grounded.refines.next_panics (by rw [hs]; rfl)
  cases hx : (s.raft.node p).rf.start call
  case error => simp [Cluster.panics, hx, Except.isOk, Except.toBool] at hp
  case ok x  =>
    obtain ⟨rf, sent, index, initialTerm, isLeader⟩ := x
    let start := if isLeader then some (index, initialTerm) else none
    have hsub : s.submit sm p req = { s with raft := s.raft.start p call,
                                             rsm := s.rsm.submit p req start } := by
      simp only [Replicated.submit]
      rw [hx]
    have hfol : s.follow sm (s.raft.start p call) = { s with raft := s.raft.start p call } := by
      have hraft :
          s.raft.start p call = s.raft.update p ((s.raft.node p).finish rf)
            (s.raft.calls p sent) := by
        rw [Cluster.start, hx]
      rw [hraft, follow_finish]
    have hlead (hl : (s.raft.node p).rf.state = .leader) :
        start = some ((s.raft.node p).rf.logLength, (s.raft.node p).rf.currentTerm) := by
      rw [Raft.start_leader hl] at hx
      obtain ⟨_, _, hx⟩ := Raft.bind_ok hx
      cases hx
      rfl
    have hnot (hl : (s.raft.node p).rf.state ≠ .leader) : start = none := by
      simp only [Raft.start, hl, ne_eq, not_false_eq_true, if_true] at hx
      cases hx
      rfl
    obtain ⟨_, hatt⟩ := h.follow hs (by simp) hp
    rw [hfol] at hatt
    have hst : s.rsm.started ⊆ (s.rsm.submit p req start).started := by
      rcases start with _ | _ <;> simp [Rsm.State.submit, Rsm.State.set]
    obtain ⟨w', g, hg⟩ := h.grounded.next hs id id hst (List.Subset.refl _)
      (by
        rintro _ _ ⟨⟩ hl
        rw [hlead hl]
        exact List.mem_cons_self)
      (by simp)
    rw [hsub]
    refine ⟨.submitted start fun hre => hb ?_, w', hg, fun q => ?_, ?_,
      h.faithful.submit p req start⟩
    · by_cases hl : (s.raft.node p).rf.state = .leader
      case pos =>
        rw [hlead hl] at hre
        exact ⟨hl, hre⟩
      case neg =>
        rw [hnot hl] at hre
        exact hre.elim
    · obtain ⟨hi, hl⟩ := s.rsm.submit_rsm p req start q
      exact (hatt q).congr hi hl
    · rw [Rsm.State.submit_sequence]
      exact h.agrees.grows g

theorem maybeSnapshot (hr : (s.rsm.rsm p).reader = .receiving) {raft}
    (hs : s.raft.snapshot p (sm.snapshot (s.rsm.rsm p).sm) = some raft) :
    let snapshots := s.snapshots ++ [((s.rsm.rsm p).lastApplied, sm.snapshot (s.rsm.rsm p).sm)]
    s.Refined sm (.maybeSnapshot p) { s.follow sm raft with snapshots } ∧
    ∃ w', { s.follow sm raft with snapshots }.Coupled sm w' := by
  intro snapshots
  have hs' : s.raft.next (.snapshot p (sm.snapshot (s.rsm.rsm p).sm)) = some raft := hs
  have hp := h.grounded.refines.next_panics (by rw [hs']; rfl)
  have hfol : s.follow sm raft = { s with raft } := by
    obtain ⟨i, hi, rfl⟩ := Option.map_eq_some_iff.mp hs
    simp only [Cluster.panics, hi, Option.any_some, Bool.not_eq_eq_eq_not, Bool.not_false] at hp
    split
    case h_1 rf hx => exact follow_finish
    case h_2 c hx  => simp [hx, Except.isOk, Except.toBool] at hp
  obtain ⟨_, hatt⟩ := h.follow hs' (by simp) hp
  rw [hfol] at hatt ⊢
  have hsn : s.snapshots ⊆ snapshots := List.subset_append_left ..
  obtain ⟨w', g, hg⟩ := h.grounded.next hs' id id (List.Subset.refl _) hsn (by simp) (by
      rintro _ _ ⟨⟩ i hi
      rw [(h.attached p).received hi]
      exact List.mem_append_right _ List.mem_cons_self)
  exact ⟨.snapshotted hr, w', hg, hatt, h.agrees.grows g, h.faithful.snapshot p⟩

-- The message has been taken from the channel, and processed.
theorem receive {msg} (ha : (s.raft.node p).applier = .offering msg) {raft}
    (hs : s.raft.receive p = some raft) {rsm : Rsm.State σ (Fin n) Req Res}
    (hst : rsm.started = s.rsm.started) (hag : Logs.Agrees w rsm.sequence)
    (hne : ∀ q ≠ p, rsm.rsm q = s.rsm.rsm q)
    (hi : (rsm.rsm p).incarnation = (s.rsm.rsm p).incarnation)
    (hl : (rsm.rsm p).lastApplied = msg.index) (hsteps : s.rsm.Steps sm s.snapshots rsm) :
    ∃ w', { s with raft, rsm }.Coupled sm w' := by
  have hs' : s.raft.next (.receive p) = some raft := hs
  have ⟨w', g, hg⟩ :=
    h.grounded.next hs' id id (List.Subset.refl _) (List.Subset.refl _) nofun nofun
  rw [Cluster.receive, ha] at hs
  cases hs
  refine ⟨w', hst.symm ▸ hg, fun q => ?_, hag.grows g, h.faithful.steps hsteps⟩
  by_cases hq : q = p
  case pos =>
    subst hq
    simpa [Cluster.update] using (h.attached q).receive ha hi hl
  case neg => simpa [Cluster.update, hq, hne q hq] using h.attached q

-- All servers execute the same operation at an index, so it can be settled when the first one reads
-- it.
theorem read_command (hr : (s.rsm.rsm p).reader = .receiving) {c index}
    (ha : (s.raft.node p).applier = .offering (.command c index)) {raft}
    (hs : s.raft.receive p = some raft) {rsm} (hx : read sm s.rsm p (.command c index) = some rsm) :
    s.rsm.Steps sm s.snapshots rsm ∧ ∃ w', { s with raft, rsm }.Coupled sm w' := by
  obtain ⟨call, rfl, hst⟩ := (h.grounded.sourced.node p).offered _ ha
  obtain rfl := (h.attached p).command ha
  have hnode := h.grounded.refines.node p
  have ⟨hle, hcmd⟩ := hnode.commands _ _ (.inr ha)
  have ⟨hold, hnew⟩ := h.agrees.read h.grounded.refines.valid hnode hle hcmd
  obtain ⟨⟨after, opResult⟩, hd, hx⟩ := Option.bind_eq_some_iff.mp hx
  -- The sequence with the operation in it, whether it has been there before or not.
  have ⟨sequence, hsteps, hif, hag, hcall⟩ : ∃ sequence,
      s.rsm.Steps sm s.snapshots { s.rsm with sequence } ∧
      (if (s.rsm.rsm p).lastApplied + 1 = s.rsm.sequence.length + 1 then s.rsm.sequence ++ [call]
        else s.rsm.sequence) = sequence ∧
      Logs.Agrees w sequence ∧ sequence[(s.rsm.rsm p).lastApplied]? = some call := by
    rcases (h.faithful.taken p).le_length.lt_or_eq with hlt | heq
    · exact ⟨_, .refl, if_neg (by omega), h.agrees, hold hlt⟩
    · obtain ⟨k, hk⟩ := List.mem_iff_getElem?.mp hst
      refine ⟨_, .single ⟨.commit k, trivial, ?_⟩, if_pos (by omega), hnew heq, ?_⟩
      · simp [Rsm.State.next, hk, heq]
      · rw [heq, List.getElem?_concat_length]
  simp only [hif, Option.some.injEq] at hx
  have hsteps : s.rsm.Steps sm s.snapshots rsm := by
    refine hsteps.tail ⟨.execute p, trivial, ?_⟩
    simp only [Rsm.State.next, hr, hcall, Option.bind_eq_bind, Option.bind_some, hd, ←hx]
    rfl
  refine ⟨hsteps, ?_⟩
  subst hx
  exact h.receive ha hs rfl hag (fun q hq => by simp [hq]) (by simp)
    (by simp [ApplyMsg.index]) hsteps

theorem read_snapshot (hr : (s.rsm.rsm p).reader = .receiving) {data term index}
    (ha : (s.raft.node p).applier = .offering (.snapshot data term index)) {raft}
    (hs : s.raft.receive p = some raft) {rsm}
    (hx : read sm s.rsm p (.snapshot data term index) = some rsm) :
    s.rsm.Steps sm s.snapshots rsm ∧ ∃ w', { s with raft, rsm }.Coupled sm w' := by
  obtain ⟨d, rfl, hd⟩ := (h.grounded.sourced.node p).offered _ ha
  have hlow := (h.attached p).snapshot (h.grounded.ordered p) ha
  have hhigh := (h.faithful.snapshots _ hd).le_length
  cases hx
  suffices hsteps : s.rsm.Steps sm s.snapshots _ from
    ⟨hsteps, h.receive ha hs rfl h.agrees (fun q hq => by simp [hq]) (by simp)
      (by simp [ApplyMsg.index]) hsteps⟩
  refine .single ⟨.restore p index d, hd, ?_⟩
  simp only [Rsm.State.next, hr]
  exact if_pos ⟨hlow, hhigh⟩

theorem step {a : Action n Req D} (hb : ¬s.Bad a) (hs : s.next sm a = some s') :
    s.Refined sm a s' ∧ ∃ w', s'.Coupled sm w' := by
  have hlocal {a : Action n Req D} {f : Rsm.Event (Fin n) Req D} (hf : f.Local)
      (hp : f.Permitted s.snapshots)
      (ha : ∀ p req, a ≠ .submit p req)
      (hs : (s.rsm.next sm f).map (fun rsm => { s with rsm }) = some s') :
      s.Refined sm a s' ∧ ∃ w', s'.Coupled sm w' := by
    obtain ⟨rsm, hx, rfl⟩ := Option.map_eq_some_iff.mp hs
    exact ⟨.internal ha (.single ⟨f, hp, hx⟩), w, h.local_step hf hp hx⟩
  cases a
  case submit p req =>
    cases hs
    exact h.submit _ hb
  case receive p id => exact hlocal (f := .receive p id) trivial trivial nofun hs
  case poll p id    =>
    exact hlocal
      (f := .poll p id (s.raft.node p).rf.currentTerm ((s.raft.node p).rf.state = .leader))
      trivial trivial nofun hs
  case lookup p     => exact hlocal (f := .lookup p) trivial trivial nofun hs
  case deliver p    => exact hlocal (f := .deliver p) trivial trivial nofun hs
  case read p       =>
    simp only [Replicated.next] at hs
    split at hs
    case h_2 => cases hs
    case h_1 msg hr ha =>
      split at hs
      case h_1 rsm hx =>
        obtain ⟨raft, hraft, rfl⟩ := Option.map_eq_some_iff.mp hs
        cases msg
        case command c index         =>
          have ⟨hsteps, hc⟩ := h.read_command hr ha hraft hx
          exact ⟨.internal nofun hsteps, hc⟩
        case snapshot data term index =>
          have ⟨hsteps, hc⟩ := h.read_snapshot hr ha hraft hx
          exact ⟨.internal nofun hsteps, hc⟩
      case h_2 =>
        cases hs
        have ⟨hsteps, hc⟩ := h.raft (e := .restart p) rfl nofun nofun nofun id id
        exact ⟨.internal nofun hsteps, hc⟩
  case maybeSnapshot p =>
    simp only [Replicated.next] at hs
    split at hs
    case h_2 => cases hs
    case h_1 hr =>
      obtain ⟨raft, hraft, rfl⟩ := Option.map_eq_some_iff.mp hs
      exact h.maybeSnapshot hr hraft
  case raft e =>
    rw [Bad, not_or] at hb
    have hx : (∀ p, e ≠ .receive p) ∧ (∀ p command, e ≠ .start p command) ∧
        (∀ p data, e ≠ .snapshot p data) ∧
        (s.raft.next e).map (s.follow sm) = some s' := by
      cases e <;> simp_all [Replicated.next]
    obtain ⟨hr, ha, hd, hs⟩ := hx
    obtain ⟨raft, hraft, rfl⟩ := Option.map_eq_some_iff.mp hs
    have ⟨hsteps, hc⟩ := h.raft hraft hr ha hd hb.left hb.right
    exact ⟨.internal nofun hsteps, hc⟩

end Coupled

theorem Coupled.init (hn : Odd n) :
    (⟨.init n _ D, .init sm, []⟩ : Replicated n σ Req Res D).Coupled sm
      (World.genesis (Fin n) ⟨0, none⟩) where
  grounded   := ⟨Cluster.init_refines hn, fun _ => .boot, .init⟩
  attached _ := .boot
  agrees     :=
    have : Nonempty (Fin n) := ⟨⟨0, hn.pos⟩⟩
    ⟨0, _, World.genesis_decided rfl, by simp [Rsm.State.init], nofun⟩
  faithful   := .init

theorem Refined.submit_cases {req : Req} (h : s.Refined sm (.submit p req) s') :
    ∃ start, ¬s.rsm.Reused (.submit p req start : Rsm.Event (Fin n) Req D) ∧
      s'.rsm = s.rsm.submit p req start ∧ s'.snapshots = s.snapshots := by
  cases h
  case submitted start hr => exact ⟨start, hr, rfl, rfl⟩
  case internal ha        => exact absurd rfl (ha p req)

theorem Refined.step_cases {a : Action n Req D} (h : s.Refined sm a s')
    (ha : ∀ p req, a ≠ .submit p req) :
    (s.rsm.Steps sm s.snapshots s'.rsm ∧ s'.snapshots = s.snapshots) ∨
    (∃ p, (s.rsm.rsm p).reader = .receiving ∧ s'.rsm = s.rsm ∧
      s'.snapshots = s.snapshots ++
        [((s.rsm.rsm p).lastApplied, sm.snapshot (s.rsm.rsm p).sm)]) := by
  cases h
  case submitted p req _ _ _ => exact absurd rfl (ha p req)
  case snapshotted p _ hr    => exact .inr ⟨p, hr, rfl, rfl⟩
  case internal hs _         => exact .inl ⟨hs, rfl⟩

-- What a specification without Raft does not allow: two calls of `Submit` with the same key, or a
-- server that restores something else than a snapshot of the operations that all servers execute.
def Forbidden (sm : StateMachine σ Req Res D) (st : Rsm.State σ (Fin n) Req Res)
    (e : Rsm.Event (Fin n) Req D) : Prop :=
  st.Reused e ∨ st.Foreign sm e

theorem sound_of_reached {st : Rsm.State σ (Fin n) Req Res}
    (h : (Rsm.rsm (Fin n) sm).Reached (Forbidden sm) st) : st.Sound sm ∧ st.Derived sm := by
  induction h
  case init            => exact ⟨.init, .init⟩
  case next _ hb hs hi =>
    have ⟨hu, hf⟩ := not_or.mp hb
    exact ⟨hi.left.step hs hu, hi.right.step (Rsm.State.stepped hs) hf⟩

theorem Refined.reached {a : Action n Req D} (h : s.Refined sm a s')
    (hf : s.rsm.Faithful sm s.snapshots) (hr : (Rsm.rsm (Fin n) sm).Reached (Forbidden sm) s.rsm) :
    (Rsm.rsm (Fin n) sm).Reached (Forbidden sm) s'.rsm := by
  cases h
  case submitted start hu => exact .next hr (not_or.mpr ⟨hu, id⟩) rfl
  case snapshotted        => exact hr
  case internal hs _      =>
    induction hs
    case refl          => exact hr
    case tail hs' hs hi =>
      obtain ⟨e, hp, hs⟩ := hs
      exact .next hi (not_or.mpr ⟨Rsm.State.not_reused hp, (hf.steps hs').not_foreign hp⟩) hs

variable [DecidableEq Req] [DecidableEq D]

theorem coupled (hn : Odd n) (b : (replicated n sm).Behavior) (hb : b.Avoids Bad) (i : Nat) :
    (Rsm.rsm (Fin n) sm).Reached (Forbidden sm) (b.state i).rsm ∧
    ∃ w, (b.state i).Coupled sm w := by
  refine b.invariant (I := fun s => (Rsm.rsm (Fin n) sm).Reached (Forbidden sm) s.rsm ∧
    ∃ w, s.Coupled sm w)
    ⟨.init, _, .init hn⟩ (fun i a s' ha hs hi => ?_) i
  obtain ⟨hr, w, hc⟩ := hi
  have ⟨hs, hw⟩ := hc.step (hb i a ha) hs
  exact ⟨hs.reached hc.faithful hr, hw⟩

-- Raft is no more to its servers than the order of their operations, and what they recover from it
-- is the outcome of these operations.
theorem refines_rsm (hn : Odd n) (b : (replicated n sm).Behavior) (hb : b.Avoids Bad) (i : Nat) :
    (Rsm.rsm (Fin n) sm).Reached (Forbidden sm) (b.state i).rsm :=
  (coupled hn b hb i).left

-- A put that is committed, answered and compacted, before the leader crashes.
def putting : List (Action 3 (KvRaft.Req Unit Nat) (Unit → Option (KvSrv.Data Nat))) :=
  let vote := ⟨0, 1, 0, .requestVote ⟨1, 0, 0, 0⟩⟩
  let append := ⟨0, 1, 0, .appendEntries ⟨1, 0, 0, 0, 0, [⟨1, some ⟨⟨.put () 5 0, 0, 0⟩, 0⟩⟩]⟩⟩
  [.raft (.startElection 0), .raft (.serve vote), .raft (.returned vote (.requestVote ⟨0, true⟩)),
    .submit 0 (.put () 5 0), .raft (.serve append),
    .raft (.returned append (.appendEntries ⟨1, true, 0, 0⟩)), .raft (.applyTicker 0), .read 0,
    .lookup 0, .deliver 0, .receive 0 0, .maybeSnapshot 0, .raft (.restart 0)]

def put : (replicated 3 (KvRaft.stateMachine Unit Nat)).Behavior :=
  .ofActions _ putting (by decide +kernel)

theorem put_avoids : put.Avoids Bad :=
  System.Behavior.avoids_ofActions (by decide +kernel)

theorem refines_rsm_put :
    (((put.state 13).rsm.rsm 0).incarnation = 1) ∧
    (((put.state 13).rsm.rsm 0).sm () = some ⟨1, 5⟩) ∧
    ((Rsm.rsm (Fin 3) (KvRaft.stateMachine Unit Nat)).Reached
      (Forbidden (KvRaft.stateMachine Unit Nat))
      (put.state 13).rsm) :=
  ⟨by decide +kernel, by decide +kernel, refines_rsm (by decide) put put_avoids 13⟩

-- Whatever Raft does below, a call of `Submit` returns the result of its own request. All servers
-- execute it at the same index, and in a state that the requests before it lead to.
theorem submit_returns (hn : Odd n) (b : (replicated n sm).Behavior) (hb : b.Avoids Bad) (i : Nat) :
    (∀ r ∈ (b.state i).rsm.returned, r.err = .ok → r.Own sm (b.state i).rsm) ∧
    (∀ a ∈ (b.state i).rsm.applied, ∀ a' ∈ (b.state i).rsm.applied, a.index = a'.index →
      a.call = a'.call) ∧
    (∀ a ∈ (b.state i).rsm.applied, ∃ k, a.index = k + 1 ∧
      sm.Derives (b.state i).rsm.requests k a.before) := by
  have ⟨hs, hd⟩ := sound_of_reached (coupled hn b hb i).left
  refine ⟨fun r hr => hs.returned hr, fun a ha a' ha' hi => ?_, hd.applied⟩
  obtain ⟨⟨k, hk, hc⟩, _⟩ := hs.applied ha
  obtain ⟨⟨k', hk', hc'⟩, _⟩ := hs.applied ha'
  obtain rfl : k = k' := by omega
  exact Option.some.inj (hc.symm.trans hc')

theorem submit_returns_put : ∃ r ∈ (put.state 11).rsm.returned, r.result = some (.put .ok) ∧
    r.Own (KvRaft.stateMachine Unit Nat) (put.state 11).rsm := by
  have hr : (put.state 11).rsm.returned =
      [⟨⟨⟨.put () 5 0, 0, 0⟩, 0⟩, some 1, .ok, some (.put .ok)⟩] := by
    decide +kernel
  refine ⟨_, by rw [hr]; exact List.mem_cons_self, rfl, ?_⟩
  exact (submit_returns (by decide) put put_avoids 11).left _
    (by rw [hr]; exact List.mem_cons_self) rfl

end Replicated
