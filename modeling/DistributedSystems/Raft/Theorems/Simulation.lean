import DistributedSystems.Raft.Theorems.Refinement

open TermLog

variable {n : Nat} {C D : Type} {w w' : Logs n C}

-- Steps that the world does not answer

theorem Raft.make_commitIndex (p : Fin n) (persister : Persister n C D) :
    (Raft.make p persister).commitIndex = (Raft.make p persister).snapshotLastIndex ∧
    (Raft.make p persister).lastApplied = (Raft.make p persister).snapshotLastIndex := by
  cases persister with | mk raftstate _ => cases raftstate <;> exact ⟨rfl, rfl⟩

namespace Node.Refines

variable {nd nd' : Node n C D} {p : Fin n}

-- A step after which the server has the same log and the same commit index.
theorem same (h : nd.Refines w p) (g : w.Grows w') (hl : w'.log p = w.log p)
    (ht : w'.term p = nd'.rf.currentTerm) (hs : nd.rf.SameSnapshot nd'.rf)
    (hlog : nd'.rf.log = nd.rf.log) (hc : nd'.rf.commitIndex = nd.rf.commitIndex)
    (ha : nd'.applier = nd.applier) (hch : nd'.applyCh = nd.applyCh)
    (hx : nd'.rf.state = .leader → nd'.rf.Leads w' p (w.log p)) : nd'.Refines w' p where
  term       := ht
  log        := hl ▸ h.log.congr hlog hs.snapshotLastIndex hs.snapshotLastTerm
  base       := by rw [hs.snapshotLastIndex, hc]; exact h.base
  commit     := by rw [hc, hl]; exact h.commit
  decided    := by rw [hl, hc]; exact g.decided h.decided (g.term p)
  applied    := by rw [hs.lastApplied, hc]; exact h.applied
  commands   := by rw [hch, ha, hc, hl]; exact h.commands
  leader hs  := hl ▸ hx hs

-- A restart forgets what has been committed, but not what has been compacted.
theorem boot (h : nd.Refines w p) {persister k}
    (hs : (Raft.make p persister).persist = nd.rf.persist) :
    (Node.boot p persister k).Refines w p := by
  have hp := Raft.persist_vote hs
  have hc := Raft.make_commitIndex p persister
  simp only [Raft.persist, Persister.mk.injEq, Option.some.injEq, RaftStateBytes.mk.injEq] at hs
  obtain ⟨⟨_, _, h₁, h₂, h₃⟩, _⟩ := hs
  refine {
    term := h.term.trans hp.left.symm, log := h.log.congr h₁ h₂ h₃
    base := hc.left.ge, commit := ?_, decided := ?_, applied := (hc.right.trans hc.left.symm).le
    commands := by simp [Node.boot], leader := fun hl => ?_ }
  · simp only [Node.boot, hc.left, h₂]
    exact h.base.trans_lt h.commit
  · simp only [Node.boot, hc.left, h₂]
    exact h.decided.restrict (List.take_prefix_take_left (Nat.succ_le_succ h.base))
  · rw [Node.boot_state] at hl
    cases hl

theorem snapshot (h : nd.Refines w p) {i : Nat} (hi : nd.received = some i) (data : D) :
    ∃ rf, nd.rf.makeSnapshot i data = .ok rf ∧ (nd.finish rf).Refines w p := by
  have hm : ∃ c, .command c i ∈ nd.applyCh := by
    simp only [Node.received] at hi
    split at hi <;> cases hi
    case _ heq => exact ⟨_, List.mem_of_getLast? heq⟩
  obtain ⟨c, hm⟩ := hm
  obtain ⟨hic, _⟩ := h.commands c i (.inl hm)
  obtain ⟨rf, hx, hr⟩ := h.log.makeSnapshot (hic.trans_lt h.commit) data
  refine ⟨rf, hx, ?_⟩
  cases Raft.makeSnapshot_ok hx
  case inl hc =>
    rw [hc.right]
    exact { h with }
  case inr hc =>
    obtain ⟨hb, e, he, hc⟩ := hc
    subst hc
    exact { h with
      log := hr, base := hic
      leader := fun hl => { h.leader hl with } }

theorem ticks (h : nd.Refines w p) {i : Nat} (hs : nd.Streams i)
    (ho : ∀ msg, nd.applier ≠ .offering msg) {rf applier}
    (ht : (nd.rf.settle nd.applier).Ticks rf applier) : { nd with rf, applier }.Refines w p := by
  have hcompact := (hs.settle ho).right
  have ⟨b, hb⟩ := nd.rf.settle_eq nd.applier
  rw [hb] at ht hcompact
  have hc (c i) (hc : .command c i ∈ nd.applyCh) := h.commands c i (.inl hc)
  cases ht
  case snapshot =>
    exact { h with
      log := h.log.congr rfl rfl rfl
      applied := h.base
      commands c i hx := hx.elim (hc c i) nofun
      leader := fun hl => { h.leader hl with } }
  case sleep =>
    exact { h with
      log := h.log.congr rfl rfl rfl
      commands c i hx := hx.elim (hc c i) nofun
      leader := fun hl => { h.leader hl with } }
  case command entry hsa hl hb he =>
    refine { h with
      log := h.log.congr rfl rfl rfl
      applied := hl
      commands c i hx := hx.elim (hc c i) fun hx => ?_
      leader := fun hl => { h.leader hl with } }
    cases hx
    have hlt := Nat.lt_succ_of_le (hcompact hsa).left
    refine ⟨hl, ?_⟩
    rw [←h.log.getElem? hlt]
    exact congrArg (Option.map (·.command)) he

theorem not_stuck (h : nd.Refines w p) {i : Nat} (hs : nd.Streams i)
    (ho : ∀ msg, nd.applier ≠ .offering msg) : ¬(nd.rf.settle nd.applier).Stuck := by
  have hcompact := (hs.settle ho).right
  have ⟨b, hb⟩ := nd.rf.settle_eq nd.applier
  rw [hb] at hcompact ⊢
  intro ⟨h₁, h₂, h₃⟩
  have ⟨h₄, _⟩ := hcompact h₁
  have h₅ := h.commit
  rw [←h.log.logLength] at h₅
  simp only [Raft.logLength] at *
  omega

theorem receive (h : nd.Refines w p) {msg} (ha : nd.applier = .offering msg) :
    { nd with applier := .sent msg, applyCh := nd.applyCh ++ [msg] }.Refines w p := by
  refine { h with commands c i hx := ?_ }
  have hx := hx.resolve_right nofun
  cases List.mem_append.mp hx
  case inl hx => exact h.commands c i (.inl hx)
  case inr hx => exact h.commands c i (.inr ((List.mem_singleton.mp hx) ▸ ha))

end Node.Refines

-- What a leader sends

theorem Node.Refines.sendTo {nd : Node n C D} {p q : Fin n} (h : nd.Refines w p)
    (hl : nd.rf.state = .leader) (hq : q ≠ p) :
    ∃ request, nd.rf.sendTo q = .ok request ∧ request.Sound w p q := by
  have L := h.leader hl
  have ⟨h₁, h₂⟩ := L.nextIndex q
  have hdec := h.term ▸ h.decided
  by_cases hb : nd.rf.snapshotLastIndex < nd.rf.nextIndex q
  case pos =>
    have ⟨prevLogTerm, hp, hs⟩ := h.log.sendTo hb h₂
    have hlt : nd.rf.nextIndex q - 1 < (w.log p).length := by omega
    refine ⟨_, hs, ⟨w.log p, {
      log := L.log
      prev := hp
      entries := by simp only [Nat.sub_add_cancel h₁]; exact List.prefix_refl _
      all := fun i e he hi => ?_, commit := ?_, decided := hdec, held := fun ht => ?_ }⟩⟩
    · have := (List.getElem?_eq_some_iff.mp he).choose
      simp only [List.length_drop] at hi
      omega
    · have := h.commit
      simp only [List.length_drop]
      omega
    · rw [List.getElem?_eq_getElem hlt] at hp
      exact L.held q hq _ (List.getElem?_eq_getElem hlt) ((Option.some.inj hp).trans ht)
  case neg =>
    refine ⟨_, if_neg hb, ⟨w.log p, { log := L.log, last := h.log.head, decided := ?_ }⟩⟩
    exact hdec.restrict (List.take_prefix_take_left (Nat.succ_le_succ h.base))

theorem Node.Refines.startSendEntries {nd : Node n C D} {p : Fin n} (h : nd.Refines w p)
    (hl : nd.rf.state = .leader) (hme : nd.rf.me = p) :
    ∃ sent, nd.rf.startSendEntries = .ok sent ∧ ∀ q request, (q, request) ∈ sent →
      q ≠ p ∧ nd.rf.sendTo q = .ok request ∧ request.Sound w p q := by
  cases hx : nd.rf.startSendEntries
  case error c =>
    have ⟨_, _, q, c', hq, hc⟩ := Raft.startSendEntries_error hx
    have ⟨_, hr, _⟩ := h.sendTo hl (hme ▸ hq)
    cases hc.symm.trans hr
  case ok sent =>
    refine ⟨sent, rfl, fun q request hm => ?_⟩
    have ⟨hq, hs⟩ := Raft.startSendEntries_ok hx hm
    have ⟨_, hr, hx⟩ := h.sendTo hl (hme ▸ hq)
    cases hs.symm.trans hr
    exact ⟨hme ▸ hq, hs, hx⟩

namespace Cluster

variable {s : Cluster n C D} {p q : Fin n} {nd : Node n C D}

-- A step that the world does not see.
theorem Answer.stay (h : nd.Refines w p) (hi : (s.node p).incarnation ≤ nd.incarnation)
    (hc : nd.rf.commitIndex ≤ (s.node p).rf.commitIndex ∨ nd.rf.state = .leader)
    (hs : nd.incarnation = (s.node p).incarnation → (s.node p).rf.state = .leader →
      nd.rf.state = .leader) : s.Answer w p nd [] w where
  moves       := .refl
  others _ _  := ⟨rfl, rfl⟩
  leaderLog _ := .inl rfl
  own _ h     := h
  idle _ _    := rfl
  node        := h
  restarts    := hi
  stays hx _  := hs hx
  commit      := hc.imp_right .inl
  candidate   := nofun
  leads       := nofun
  sound       := nofun

-- The requests of a leader go along with any step after which it is the leader.
theorem Answer.send (a : s.Answer w p nd [] w') (hl : nd.rf.state = .leader)
    {sent : List (Fin n × Request n C D)}
    (hs : ∀ q request, (q, request) ∈ sent →
      q ≠ p ∧ nd.rf.sendTo q = .ok request ∧ request.Sound w' p q) :
    s.Answer w p nd (s.calls p sent) w' := by
  refine { a with candidate c q k args hm := ?_, leads call t hm ht := ?_, sound m hm := ?_ }
  all_goals
    have ⟨q', request, hr, hc⟩ := mem_calls hm
    have ⟨h₁, h₂, h₃⟩ := hs q' request hr
    cases hc
  · exact absurd rfl (Raft.sendTo_ne_requestVote h₂ _)
  · exact ⟨rfl, h₁, hl, h₂⟩
  · exact h₃

namespace Refines

variable (h : s.Refines w)

include h

theorem heartbeat (hl : (s.node p).rf.state = .leader) :
    ∃ sent, (s.node p).rf.startSendEntries = .ok sent ∧
      s.Answer w p (s.node p) (s.calls p sent) w := by
  have ⟨sent, hx, hs⟩ := (h.node p).startSendEntries hl (h.elections.me p)
  exact ⟨sent, hx, (Answer.stay (h.node p) le_rfl (.inl le_rfl) fun _ h => h).send hl hs⟩

theorem restart : s.Answer w p ((s.node p).restart (s.node p).persister) [] w := by
  have hs := h.elections.saved p
  rw [Node.Saved, h.elections.me] at hs
  rw [Node.restart, h.elections.me]
  have N := (h.node p).boot (k := (s.node p).incarnation + 1) hs
  refine .stay N (Nat.le_succ _) (.inl ?_) fun hc => absurd hc (Nat.succ_ne_self _)
  simp only [Raft.persist, Persister.mk.injEq, Option.some.injEq, RaftStateBytes.mk.injEq] at hs
  exact (Raft.make_commitIndex ..).left.trans hs.left.right.right.right.left ▸ (h.node p).base

theorem snapshot {i : Nat} (hi : (s.node p).received = some i) (data : D) :
    ∃ rf, (s.node p).rf.makeSnapshot i data = .ok rf ∧
    s.Answer w p ((s.node p).finish rf) [] w := by
  have ⟨rf, hx, hr⟩ := (h.node p).snapshot hi data
  have hk : rf.commitIndex = (s.node p).rf.commitIndex ∧ rf.state = (s.node p).rf.state := by
    cases Raft.makeSnapshot_ok hx
    case inl hc => exact hc.right ▸ ⟨rfl, rfl⟩
    case inr hc => have ⟨_, _, _, hc⟩ := hc; exact hc ▸ ⟨rfl, rfl⟩
  exact ⟨rf, hx, .stay hr le_rfl (.inl hk.left.le) fun _ hl => hk.right.trans hl⟩

theorem applyTicker {r} (hx : (s.node p).rf.applyTicker (s.node p).applier = some r) :
    ∃ rf applier, r = .ok (rf, applier) ∧ s.Answer w p { s.node p with rf, applier } [] w := by
  have ⟨i, hs⟩ := h.streams p
  cases r
  case error c =>
    have ⟨ho, hc⟩ := Raft.applyTicker_error hx
    exact absurd hc ((h.node p).not_stuck hs ho)
  case ok r =>
    obtain ⟨rf, applier⟩ := r
    have ⟨ho, ht⟩ := Raft.applyTicker_ok hx
    have hk : rf.commitIndex = (s.node p).rf.commitIndex ∧ rf.state = (s.node p).rf.state := by
      have ⟨b, hb⟩ := (s.node p).rf.settle_eq (s.node p).applier
      rw [hb] at ht
      cases ht <;> exact ⟨rfl, rfl⟩
    refine ⟨rf, applier, rfl, .stay ((h.node p).ticks hs ho ht) le_rfl (.inl hk.left.le) fun _ hl =>
      ?_⟩
    exact hk.right.trans hl

theorem receive {msg} (ha : (s.node p).applier = .offering msg) :
    s.Answer w p
      { s.node p with applier := .sent msg, applyCh := (s.node p).applyCh ++ [msg] } [] w :=
  .stay ((h.node p).receive ha) le_rfl (.inl le_rfl) fun _ h => h

-- Nothing but the persister changes.
theorem persist : s.Answer w p ((s.node p).finish (s.node p).rf) [] w :=
  .stay { h.node p with } le_rfl (.inl le_rfl) fun _ h => h

end Refines

-- Elections

-- A step that touches neither the logs of the servers nor those of the leaders.
theorem Answer.of_logs (m : World.Moves w w') (hl : w'.log = w.log)
    (hll : w'.leaderLog = w.leaderLog) (ht : ∀ q ≠ p, w'.term q = w.term q) (hn : nd.Refines w' p)
    (hi : nd.incarnation = (s.node p).incarnation)
    (hc : nd.rf.commitIndex = (s.node p).rf.commitIndex)
    (hs : w'.term p = w.term p → (s.node p).rf.state = .leader → nd.rf.state = .leader) :
    s.Answer w p nd [] w' where
  moves       := m
  others q hq := ⟨hl ▸ rfl, ht q hq⟩
  leaderLog t := .inl <| hll ▸ rfl
  own _ h     := by rw [hll, hl]; exact h
  idle _ _    := hl ▸ rfl
  node        := hn
  restarts    := hi.ge
  stays _     := hs
  commit      := .inl hc.le
  candidate   := nofun
  leads       := nofun
  sound       := nofun

theorem Answer.reply (a : s.Answer w p nd [] w') {call : Call n C D} {r : Reply}
    (hr : r.Sound w' call.callee call.request) : s.Answer w p nd [.reply call r] w' :=
  { a with
    candidate c q k args hm := by cases List.mem_singleton.mp hm
    leads call t hm         := by cases List.mem_singleton.mp hm
    sound m hm              := (List.mem_singleton.mp hm) ▸ hr }

namespace Refines

variable (h : s.Refines w)

include h

theorem stepDown {t : Nat} (ht : (s.node p).rf.currentTerm < t) :
    s.Answer w p ((s.node p).finish ((s.node p).rf.becomeFollower t)) [] (w.observed p t) := by
  have hp := (h.node p).term
  have ho : (w.observed p t).term p = t := World.observed_term (by omega)
  refine .of_logs (w.moves_observed p t) World.observed_log World.observed_leaderLog
    (fun q hq => World.observed_term_ne hq) ?_ rfl rfl fun hx => by omega
  exact (h.node p).same (w.moves_observed p t).grows (by simp) ho { Raft.SameSnapshot.refl _ with }
    rfl rfl rfl rfl nofun

theorem startElection : ∃ rf sent w', (s.node p).rf.startElection = .ok (rf, sent) ∧
    s.Answer w p ((s.node p).finish rf) (s.calls p sent) w' := by
  have hp := (h.node p).term
  have hc : (s.node p).rf.candidacy.Represents (w.log p) := (h.node p).log.congr rfl rfl rfl
  have ⟨e, he, hlast⟩ := hc.logAt_last
  cases hx : (s.node p).rf.startElection
  case error c => cases he.symm.trans (Raft.startElection_error hx).right.right
  case ok r =>
    obtain ⟨rf, sent⟩ := r
    have ⟨hrf, e', he', hs⟩ := Raft.startElection_ok hx
    cases he.symm.trans he'
    let w' := (w.observed p (w.term p + 1)).polled p (last (w.log p))
    have ho : (w.observed p (w.term p + 1)).term p = w.term p + 1 :=
      World.observed_term (Nat.le_succ _)
    have ht : w'.term p = w.term p + 1 := by simp only [w', World.polled_term, ho]
    have m : World.Moves w w' := (w.moves_observed p _).trans <| World.moves_polled <| by
      rw [World.observed_log]
      exact .inr ⟨rfl, le_rfl⟩
    have hn : ((s.node p).finish rf).Refines w' p := by
      refine (h.node p).same m.grows (by simp [w']) ?_ ?_ ?_ ?_ rfl rfl ?_ <;> rw [hrf]
      · exact ht.trans (congrArg (· + 1) hp)
      · exact { Raft.SameSnapshot.refl _ with }
      · rfl
      · rfl
      · exact nofun
    have a : s.Answer w p ((s.node p).finish rf) [] w' :=
      .of_logs m (by simp [w']) (by simp [w']) (fun q hq => by simp [w', hq]) hn rfl (hrf ▸ rfl)
        fun hx => by omega
    refine ⟨rf, sent, w', rfl, { a with
      candidate c q k args hm := ?_, leads call t hm hl := ?_, sound m hm := ?_ }⟩
    all_goals
      have ⟨q', request, hmem, hc⟩ := mem_calls hm
      have hr := hs q' request hmem
      clear hmem
      cases hc
    · cases hr
      exact ⟨rfl, by omega, by simp only [w', World.polled_log, World.observed_log]; exact hlast⟩
    · rw [hr] at hl
      cases hl
    · rw [hr]
      have hv : w'.leaderLog (w.term p + 1) ≠ none ∨
          w'.voted p (w.term p + 1) (last (w.log p)) := by
        have := (w.observed p (w.term p + 1)).polled_voted p (last (w.log p))
        rw [ho] at this
        simpa only [w', World.polled_leaderLog] using this
      rw [hp, hlast] at hv
      exact ⟨Nat.succ_ne_zero _, hv⟩

-- The state in which a vote is decided.
theorem observes {t : Nat} (ht : (s.node p).rf.currentTerm ≤ t) {rf : Raft n C D}
    (hrf : ∃ votedFor, rf = { (s.node p).rf.observe t with votedFor }) (m : World.Moves w w')
    (hl : w'.log = w.log) (hll : w'.leaderLog = w.leaderLog) (hwt : w'.term p = t)
    (hne : ∀ q ≠ p, w'.term q = w.term q) : s.Answer w p ((s.node p).finish rf) [] w' := by
  have ⟨_, hrf⟩ := hrf
  have hx : rf.state = .leader → (s.node p).rf.observe t = (s.node p).rf :=
    fun hx => Raft.observe_leader (by rw [hrf] at hx; exact hx)
  have hs : (s.node p).rf.SameSnapshot rf :=
    hrf ▸ { Raft.SameSnapshot.observe (s.node p).rf t with }
  have hc : rf.commitIndex = (s.node p).rf.commitIndex := by
    rw [hrf]
    simp only [Raft.observe]
    split <;> rfl
  refine .of_logs m hl hll hne ?_ rfl hc fun hc hs => ?_
  · refine (h.node p).same m.grows (hl ▸ rfl) ?_ hs ?_ hc rfl rfl fun hl => ?_
    · rw [hwt, hrf]; exact (Raft.observe_currentTerm ht).symm
    · rw [hrf]; exact Raft.observe_log ..
    · have ho := hx hl
      have hst : (s.node p).rf.state = .leader := by rw [←ho]; rw [hrf] at hl; exact hl
      have L := (h.node p).leader hst
      rw [hrf, ho]
      exact { L.mono m.grows (hll ▸ L.log) with }
  · have ho : (s.node p).rf.observe t = (s.node p).rf :=
      Raft.observe_self (by rw [←(h.node p).term, ←hc, hwt])
    rw [hrf, ho]
    exact hs

theorem requestVote {call : Call n C D} {args} (hr : call.request = .requestVote args) :
    ∃ rf reply w', (s.node call.callee).rf.requestVote args = .ok (rf, reply) ∧
      s.Answer w call.callee ((s.node call.callee).finish rf)
        [.reply call (.requestVote reply)] w' := by
  generalize hq : call.callee = q
  have hp := (h.node q).term
  have hs := Raft.SameSnapshot.observe (s.node q).rf args.term
  have hc := (h.node q).log.congr (Raft.observe_log (s.node q).rf args.term)
    hs.snapshotLastIndex hs.snapshotLastTerm
  cases hx : (s.node q).rf.requestVote args
  case error c =>
    have ⟨_, he, _⟩ := hc.logAt_last
    cases he.symm.trans (Raft.requestVote_error hx)
  case ok r =>
    obtain ⟨rf, reply⟩ := r
    cases (Raft.requestVote_ok hx).right
    case inr hg =>
      have hsound (w' : Logs n C) :
          (Reply.requestVote reply).Sound w' call.callee call.request := by
        rw [hr]
        exact fun hc => by cases hg.left.symm.trans hc
      cases hg.right
      case inl hg => exact ⟨rf, reply, w, rfl, hg.right ▸ h.persist.reply (hsound w)⟩
      case inr hg =>
        refine ⟨rf, reply, w.observed q args.term, rfl, .reply ?_ (hsound _)⟩
        exact h.observes hg.left ⟨_, hg.right⟩ (w.moves_observed q args.term) World.observed_log
          World.observed_leaderLog (World.observed_term (hp ▸ hg.left))
          fun q' hq' => World.observed_term_ne hq'
    case inl hg =>
      have ⟨_, ht, _, ⟨e, he, hold⟩, hrf⟩ := hg
      have ⟨e', he', hlast⟩ := (h.node q).log.last
      cases he.symm.trans he'
      have hup : UpToDate (args.lastLogTerm, args.lastLogIndex) (last (w.log q)) := by
        rw [hlast]
        simp only [Raft.myLogOlder] at hold
        simp only [UpToDate]
        split at hold
        case isTrue => cases hold
        case isFalse hlt =>
          split at hold
          case isTrue heq => simp only [decide_eq_false_iff_not] at hold; omega
          case isFalse    => omega
      have ho : (w.observed q args.term).term q = args.term := World.observed_term (hp ▸ ht)
      let w' := (w.observed q args.term).polled q (args.lastLogTerm, args.lastLogIndex)
      have m : World.Moves w w' := (w.moves_observed q _).trans <| World.moves_polled <| by
        rw [World.observed_log]
        exact hup
      refine ⟨rf, reply, w', rfl, .reply ?_ ?_⟩
      · exact h.observes ht ⟨_, hrf⟩ m (by simp [w']) (by simp [w']) (by simp [w', ho])
          fun q' hq' => by simp [w', hq']
      · rw [hr, hq]
        intro _
        have := (w.observed q args.term).polled_voted q (args.lastLogTerm, args.lastLogIndex)
        rw [ho] at this
        simpa only [Logs.Backs, w', World.polled_leaderLog] using this

-- As long as its term has no leader, all votes for a candidate were given to the log that it has.
theorem voted_of_won (hn : w.leaderLog (w.term p) = none) (hw : s.Won (w.term p) p) :
    ∃ Q : Finset (Fin n), Majority Q ∧ ∀ v ∈ Q, w.voted v (w.term p) (last (w.log p)) := by
  have ⟨Q, hQ, hv⟩ := hw.majority h.odd
  refine ⟨Q, hQ, fun v hv' => ?_⟩
  cases hv v hv'
  case inl hs =>
    have ⟨hvp, x, k, args, ht, hm⟩ := hs
    have hb := (h.sound _ hm).right.resolve_left (by simp [ht, hn])
    rw [h.candidate _ _ _ _ hm ht.symm (ht ▸ hn), ←ht, hvp]
    exact hb
  case inr hr =>
    have ⟨k, args, r, ht, hg, hm⟩ := hr
    have hb := (h.sound _ hm hg).resolve_left (by simp [ht, hn])
    rw [h.candidate _ _ _ _ (h.elections.requested _ _ hm) ht.symm (ht ▸ hn), ←ht]
    exact hb

theorem term_ne (hn : w.leaderLog (w.term p) = none) : ∀ e ∈ w.log p, e.term ≠ w.term p := by
  intro e he hx
  have ⟨i, hi, hx'⟩ := List.mem_iff_getElem.mp he
  have ⟨T, hT, _⟩ := h.valid.log_coherent p i e (hx' ▸ List.getElem?_eq_getElem hi)
  have hT : w.leaderLog e.term = some T := hT
  cases (hx ▸ hT).symm.trans hn

-- The log of a candidate has no entries of its own term, so nothing is known about its peers yet.
theorem elect {rf : Raft n C D} (hrf : ∃ votesReceived, rf = { (s.node p).rf with votesReceived })
    (hn : w.leaderLog (w.term p) = none) (hw : s.Won (w.term p) p) :
    ∃ w', s.Answer w p ((s.node p).finish rf.becomeLeader) [] w' := by
  have ⟨_, hrf⟩ := hrf
  have N := h.node p
  have hme := h.elections.me p
  have hpos : 0 < n := Nat.zero_lt_of_lt p.isLt
  have hlen := N.log.logLength
  have hc := N.commit
  have ⟨Q, hQ, hvoted⟩ := h.voted_of_won hn hw
  have hold := h.term_ne hn
  let w' := (w.elected p).accepted p (w.log p) ((w.log p).length - 1)
  have m : World.Moves w w' := (World.moves_elected hn hQ hvoted).trans <|
    World.moves_accepted World.elected_leaderLog (by omega)
  have hlog : w'.log p = w.log p := World.accepted_log_self (List.prefix_refl _)
  have hll : w'.leaderLog (w.term p) = some (w.log p) := World.elected_leaderLog
  refine ⟨w', {
    moves := m, others q hq := ⟨World.accepted_log_ne hq, rfl⟩
    leaderLog t := ?leaderLog, own _ _ := hlog ▸ hll, idle _ _ := hlog
    node := ?node, restarts := le_rfl, stays _ _ _ := rfl, commit := .inr (.inl rfl)
    candidate := nofun, leads := nofun, sound := nofun }⟩
  case leaderLog =>
    by_cases ht : t = w.term p
    case pos => exact .inr ⟨ht.trans (hrf ▸ N.term), rfl⟩
    case neg => exact .inl <| World.elected_leaderLog_ne ht
  case node =>
    refine N.same m.grows hlog (hrf ▸ N.term) (hrf ▸ { Raft.SameSnapshot.refl _ with }) (hrf ▸ rfl)
      (hrf ▸ rfl) rfl rfl fun _ => ?_
    have hmatch (q) : ((s.node p).finish rf.becomeLeader).rf.matchIndex q
        = if q = p then (w.log p).length - 1 else (s.node p).rf.commitIndex := by
      simp only [Node.finish, Raft.becomeLeader, Function.update_apply, hrf, hme,
        Raft.logLength] at hlen ⊢
      rw [hlen]
    have hnext (q) : ((s.node p).finish rf.becomeLeader).rf.nextIndex q = (w.log p).length := by
      rw [hrf]; exact hlen
    have hct : ((s.node p).finish rf.becomeLeader).rf.currentTerm = w.term p := by
      rw [hrf]; exact N.term.symm
    have hci : ((s.node p).finish rf.becomeLeader).rf.commitIndex = (s.node p).rf.commitIndex := by
      rw [hrf]; rfl
    refine {
      log := hct ▸ hll, nextIndex q := ?_, matchIndex q := ?_, median := ?_
      ahead q hq e he ht := ?_, held q hq e he ht := ?_, acked q j hj := ?_ }
    · rw [hnext]; omega
    · rw [hmatch]; split <;> omega
    · refine Raft.le_median hpos fun q => ?_
      rw [hci, hmatch]
      split <;> omega
    · rw [hct] at ht
      exact absurd ht (hold e (List.mem_of_getElem? he))
    · rw [hct] at ht
      exact absurd ht (hold e (List.mem_of_getElem? he))
    · rw [hmatch] at hj
      rw [hct, hci]
      split at hj
      case isFalse  => exact .inl hj
      case isTrue hq =>
        subst hq
        exact .inr <| (w.elected q).accepted_acked q _ _ j hj

theorem sendRequestVote {args r k}
    (hm : .reply ⟨p, q, k, .requestVote args⟩ (.requestVote r) ∈ s.network)
    (hk : k = (s.node p).incarnation)
    (he : (s.update p ((s.node p).finish ((s.node p).rf.sendRequestVote q args.term r))
      []).Elections) :
    ∃ w', s.Answer w p ((s.node p).finish ((s.node p).rf.sendRequestVote q args.term r)) [] w' := by
  have N := h.node p
  obtain hx | hx | hx := (s.node p).rf.sendRequestVote_cases q args.term r
  case inl     => exact ⟨_, hx.right ▸ h.stepDown hx.left⟩
  case inr.inl => exact ⟨w, hx.symm ▸ h.persist⟩
  case inr.inr =>
    have ⟨ht, hg, hl, hx⟩ := hx
    cases hx
    case inl hx =>
      rw [hx]
      refine ⟨w, .stay ?_ le_rfl (.inl le_rfl) fun _ hs => absurd hs hl⟩
      exact N.same (.refl w) rfl N.term { Raft.SameSnapshot.refl _ with } rfl rfl rfl rfl
        (absurd · hl)
    case inr hx =>
      have hw := he.leader p
      simp only [update_node_self, hx.right] at hw
      have hw : s.Won (w.term p) p := (N.term ▸ hw rfl).of_update
      rw [hx.right]
      refine h.elect ⟨_, rfl⟩ ?_ hw
      by_contra hc
      exact hl <| h.running p ⟨q, args, ht.symm, hk ▸ h.elections.requested _ _ hm⟩ hw hc

end Refines
end Cluster
