import DistributedSystems.Raft.Theorems.Simulation

open TermLog

variable {n : Nat} {C D : Type} {w w' : Logs n C}

-- Log replication

theorem Raft.followCommit_eq {rf : Raft n C D} {i : Nat} (h : i < rf.logLength) :
    rf.followCommit i = { rf with commitIndex := max rf.commitIndex i } := by
  simp only [Raft.followCommit]
  split
  case isTrue hc  => rw [Nat.min_eq_left (by omega), Nat.max_eq_right hc.le]
  case isFalse hc => rw [Nat.max_eq_left (Nat.le_of_not_lt hc)]

namespace Node.Refines

variable {nd : Node n C D} {p : Fin n} {t i : Nat} {T : List (LogEntry C)}

theorem committed (h : nd.Refines w p) (v : w.Valid) (hT : w.leaderLog t = some T)
    (ht : nd.rf.currentTerm ≤ t) : (w.log p).take (nd.rf.commitIndex + 1) <+: T :=
  v.decided_prefix_leader h.decided hT (h.term ▸ ht)

-- All that is compacted is part of the log of the leader.
theorem compacted (h : nd.Refines w p) (v : w.Valid) (hT : w.leaderLog t = some T)
    (ht : nd.rf.currentTerm ≤ t) (hi : i ≤ nd.rf.snapshotLastIndex) :
    i < T.length ∧ T.take (i + 1) <+: w.log p := by
  have hp := h.committed v hT ht
  have hic := hi.trans h.base
  have hl := h.commit
  have hlen := hp.length_le
  rw [List.length_take] at hlen
  refine ⟨by omega, ?_⟩
  have hx : (w.log p).take (i + 1) = T.take (i + 1) := by
    have := List.prefix_iff_eq_take.mp
      ((List.take_prefix_take_left (Nat.succ_le_succ hic)).trans hp)
    rwa [List.length_take, Nat.min_eq_left (by omega)] at this
  exact hx ▸ List.take_prefix _ _

-- The server takes over the log of the leader up to index `i`, of which `c` is known to be decided.
theorem accept (h : nd.Refines w p) (v : w.Valid) (hT : w.leaderLog t = some T)
    (ht : nd.rf.currentTerm ≤ t) (hi : i < T.length) {rf : Raft n C D} (hct : rf.currentTerm = t)
    (hr : rf.Represents (merge (w.log p) (T.take (i + 1)))) {c : Nat}
    (hc : rf.commitIndex = max nd.rf.commitIndex c) (hci : c ≤ i)
    (hd : w.Decided t (T.take (c + 1))) (hb : rf.snapshotLastIndex ≤ rf.commitIndex)
    (ha : rf.lastApplied = nd.rf.lastApplied) (hs : rf.state ≠ .leader) :
    (nd.finish rf).Refines ((w.observed p t).accepted p T i) p := by
  have ho : (w.observed p t).term p = t := World.observed_term (h.term ▸ ht)
  have m : World.Moves w ((w.observed p t).accepted p T i) :=
    (w.moves_observed p t).trans <| World.moves_accepted (by rwa [ho, World.observed_leaderLog]) hi
  have hlog : ((w.observed p t).accepted p T i).log p = merge (w.log p) (T.take (i + 1)) := by
    rw [World.accepted_log, World.observed_log]
  have hterm : ((w.observed p t).accepted p T i).term p = t := ho
  have hold := prefix_merge_take (List.take_prefix _ _) (h.committed v hT ht) (i + 1)
  have hnew := prefix_merge (w.log p) (T.take (i + 1))
  have hlold := hold.length_le
  have hlnew := hnew.length_le
  have hcommit := h.commit
  rw [List.length_take] at hlold hlnew
  have htake {l : List (LogEntry C)} {k : Nat} (hk : k < l.length)
      (hp : l.take (k + 1) <+: merge (w.log p) (T.take (i + 1))) :
      (merge (w.log p) (T.take (i + 1))).take (k + 1) = l.take (k + 1) := by
    have := List.prefix_iff_eq_take.mp hp
    rwa [List.length_take, Nat.min_eq_left (by omega), eq_comm] at this
  refine {
    term := hterm.trans hct.symm, log := hlog ▸ hr, base := hb, commit := ?commit, decided :=
      ?decided
    applied := ?applied, commands := fun x k hx => ?commands, leader := (absurd · hs) }
  case commit => simp only [Node.finish, hlog, hc]; omega
  case decided =>
    simp only [Node.finish, hlog, hc, hterm]
    cases Nat.le_total nd.rf.commitIndex c
    case inl hle =>
      rw [Nat.max_eq_right hle,
        htake (by omega) ((List.take_prefix_take_left (by omega)).trans hnew)]
      exact m.grows.decided hd le_rfl
    case inr hle =>
      rw [Nat.max_eq_left hle, htake hcommit hold]
      exact m.grows.decided h.decided (h.term ▸ ht)
  case applied => simp only [Node.finish, hc, ha]; exact h.applied.trans (Nat.le_max_left _ _)
  case commands =>
    obtain ⟨hk, hg⟩ := h.commands x k hx
    refine ⟨by simp only [Node.finish, hc]; omega, ?_⟩
    rw [hlog, ←List.getElem?_take_of_lt (Nat.lt_succ_of_le hk), htake hcommit hold,
      List.getElem?_take_of_lt (Nat.lt_succ_of_le hk)]
    exact hg

end Node.Refines

namespace Cluster.Refines

variable {s : Cluster n C D} {p q : Fin n} {nd : Node n C D} (h : s.Refines w)

include h

-- A leader gets no requests of its own term.
theorem not_leader {call : Call n C D} {t : Nat} (hm : .request call ∈ s.network)
    (hl : call.request.leaderTerm = some t) (ht : (s.node call.callee).rf.currentTerm = t) :
    (s.node call.callee).rf.state ≠ .leader := by
  intro hs
  have ⟨hw, hc⟩ := h.leads call t hm hl
  exact hc <| h.elections.won_unique h.odd (ht ▸ h.elections.leader _ hs) hw

theorem accepts {t i : Nat} {T : List (LogEntry C)} (hT : w.leaderLog t = some T)
    (ht : (s.node p).rf.currentTerm ≤ t) (hi : i < T.length)
    (hn : nd.Refines ((w.observed p t).accepted p T i) p)
    (hinc : nd.incarnation = (s.node p).incarnation)
    (hc : nd.rf.commitIndex ≤ (s.node p).rf.commitIndex ∨ s.Announced nd.rf.commitIndex)
    (hs : (s.node p).rf.currentTerm = t → (s.node p).rf.state = .leader → nd.rf.state = .leader) :
    s.Answer w p nd [] ((w.observed p t).accepted p T i) := by
  have ho : (w.observed p t).term p = t := World.observed_term ((h.node p).term ▸ ht)
  refine {
    moves := (w.moves_observed p t).trans <|
      World.moves_accepted (by rwa [ho, World.observed_leaderLog]) hi
    others q hq := ⟨by simp [hq], by simp [hq]⟩
    leaderLog t := .inl (by simp), own hx hl := ?own, idle hx hl := ?idle, node := hn
    restarts := hinc.ge, stays _ hx := hs ?stays, commit := hc.imp_right .inr
    candidate := nofun, leads := nofun, sound := nofun }
  all_goals have hx : t = w.term p := ho.symm.trans hx
  case own =>
    simp only [World.accepted_leaderLog, World.observed_leaderLog, World.accepted_log,
      World.observed_log]
    rw [←hx] at hl ⊢
    cases hT.symm.trans hl
    rw [merge_eq_left (List.take_prefix _ _)]
    exact hl
  case idle =>
    simp only [World.accepted_leaderLog, World.observed_leaderLog] at hl
    rw [←hx, hT] at hl
    cases hl
  case stays => rw [hx]; exact (h.node p).term.symm

-- The server already has the log of the leader up to index `i`.
theorem confirms {t i : Nat} {T : List (LogEntry C)} {rf : Raft n C D}
    (hT : w.leaderLog t = some T) (ht : (s.node p).rf.currentTerm ≤ t) (hi : i < T.length)
    (hp : T.take (i + 1) <+: w.log p) (hct : rf.currentTerm = t)
    (hss : (s.node p).rf.SameSnapshot rf) (hlog : rf.log = (s.node p).rf.log)
    (hc : rf.commitIndex = (s.node p).rf.commitIndex)
    (hl : rf.state = .leader → rf = (s.node p).rf)
    (hs : (s.node p).rf.currentTerm = t → (s.node p).rf.state = .leader → rf.state = .leader) :
    s.Answer w p ((s.node p).finish rf) [] ((w.observed p t).accepted p T i) := by
  have ho : (w.observed p t).term p = t := World.observed_term ((h.node p).term ▸ ht)
  have m : World.Moves w ((w.observed p t).accepted p T i) := (w.moves_observed p t).trans <|
    World.moves_accepted (by rwa [ho, World.observed_leaderLog]) hi
  refine h.accepts hT ht hi ?_ rfl (.inl hc.le) hs
  refine (h.node p).same m.grows ?_ (ho.trans hct.symm) hss hlog hc rfl rfl fun hx => ?_
  · rw [World.accepted_log, World.observed_log, merge_eq_left hp]
  · have hrf := hl hx
    have L := (h.node p).leader (hrf ▸ hx)
    subst hrf
    exact { L.mono m.grows (by simpa using L.log) with }

end Cluster.Refines

theorem Raft.followLeader_currentTerm {rf : Raft n C D} {t : Nat} (h : rf.currentTerm ≤ t) :
    (rf.followLeader t).currentTerm = t := by
  simp only [Raft.followLeader]
  split
  case isTrue  => rfl
  case isFalse => simp only; omega

theorem Raft.followLeader_state (rf : Raft n C D) (t : Nat) :
    (rf.followLeader t).state = .follower := by
  simp only [Raft.followLeader]
  split <;> rfl

namespace AppendEntriesArgs.Sound

variable {args : AppendEntriesArgs n C} {q : Fin n} {T : List (LogEntry C)}

-- A server that has acknowledged the previous entry in this term would still have it.
theorem prev_ne (h : args.Sound w q T) (v : w.Valid) (ht : w.term q ≤ args.term)
    (hn : ¬(T.take (args.prevLogIndex + 1) <+: w.log q)) : args.prevLogTerm ≠ args.term := by
  intro hc
  have ⟨_, T', hT', _, hor⟩ := v.ack_log _ _ _ (h.held hc args.prevLogIndex le_rfl)
  cases h.log.symm.trans hT'
  have ⟨_, _, hv₁, hv₂, _⟩ := hor.resolve_left hn
  omega

-- If an entry up to the previous one is of the current term, then the previous one is so too.
theorem prev_eq (h : args.Sound w q T) (v : w.Valid) {i : Nat} {e : LogEntry C}
    (hi : i ≤ args.prevLogIndex) (he : T[i]? = some e) (ht : e.term = args.term) :
    args.prevLogTerm = args.term := by
  have hp := h.prev_lt
  have ⟨d, hd, hdt⟩ := Option.map_eq_some_iff.mp h.prev
  have hle : e.term ≤ d.term := by
    cases Nat.eq_or_lt_of_le hi
    case inl heq => rw [heq, hd] at he; cases he; exact le_rfl
    case inr hlt =>
      have hs := List.pairwise_iff_getElem.mp (v.leader_sorted _ _ h.log) _ _ (by omega) hp hlt
      have ⟨_, he⟩ := List.getElem?_eq_some_iff.mp he
      have ⟨_, hd⟩ := List.getElem?_eq_some_iff.mp hd
      rw [he, hd] at hs
      exact hs
  have : d.term ≤ args.term := v.leader_bound _ _ h.log d (List.mem_of_getElem? hd)
  omega

end AppendEntriesArgs.Sound

-- A server that has the last entry of a snapshot knows its term.
theorem InstallSnapshotArgs.Sound.last_le {args : InstallSnapshotArgs n D} {q : Fin n}
    {T : List (LogEntry C)} (h : args.Sound w T) (v : w.Valid)
    (hp : T.take (args.lastIncludedIndex + 1) <+: w.log q) :
    args.lastIncludedTerm ≤ w.term q := by
  have ⟨e, he, het⟩ := Option.map_eq_some_iff.mp h.last
  have hmem : e ∈ w.log q := by
    refine hp.subset (List.mem_of_getElem? (i := args.lastIncludedIndex) ?_)
    rw [List.getElem?_take_of_lt (Nat.lt_succ_self _)]
    exact he
  exact het ▸ v.log_bound _ e hmem

namespace Cluster.Refines

variable {s : Cluster n C D} {p q : Fin n} {nd : Node n C D} (h : s.Refines w)

include h

theorem appends {args : AppendEntriesArgs n C} {T} (hS : args.Sound w q T)
    (hc : s.Announced args.leaderCommit)
    (ht : (s.node q).rf.currentTerm ≤ args.term)
    (hs : (s.node q).rf.currentTerm = args.term → (s.node q).rf.state ≠ .leader) {rf reply}
    (ha : (s.node q).rf.Appends args (w.log q) T rf reply) :
    ∃ w', s.Answer w q ((s.node q).finish rf) [] w' ∧
      (Reply.appendEntries reply).Sound w' q (.appendEntries args : Request n C D) := by
  have N := h.node q
  have hfl : ((s.node q).rf.followLeader args.term).state ≠ .leader := by
    simp [Raft.followLeader_state]
  have hfss := Raft.SameSnapshot.followLeader (s.node q).rf args.term
  obtain ⟨hflog, _, _, hfc⟩ := (s.node q).rf.followLeader_log args.term
  have hft := Raft.followLeader_currentTerm ht
  have ho : (w.observed q args.term).term q = args.term := World.observed_term (N.term ▸ ht)
  have hlast := hS.last_lt
  have hack (i : Nat) : ((w.observed q args.term).accepted q T i).Acked q args.term i := by
    have := (w.observed q args.term).accepted_acked q T i
    rwa [ho] at this
  cases ha with
  | @accept log hrep =>
    have hlen : args.leaderCommit <
        { (s.node q).rf.followLeader args.term with log }.logLength := by
      have := (prefix_merge (w.log q)
        (T.take (args.prevLogIndex + args.entries.length + 1))).length_le
      have := hS.commit
      rw [List.length_take] at *
      rw [hrep.logLength]
      omega
    rw [Raft.followCommit_eq hlen]
    refine ⟨_, h.accepts hS.log ht hlast ?_ rfl ?commit fun hc hl => absurd hl (hs hc),
      fun _ => ⟨fun _ => hack _, by simp⟩⟩
    case commit =>
      simp only [Node.finish, hfc]
      exact (Nat.le_total args.leaderCommit (s.node q).rf.commitIndex).imp
        (fun hx => (Nat.max_eq_left hx).le) (fun hx => (Nat.max_eq_right hx).symm ▸ hc)
    refine N.accept h.valid hS.log ht hlast hft (hrep.congr rfl rfl rfl) (congrArg (max · _) hfc)
      hS.commit hS.decided ?_ hfss.lastApplied hfl
    simp only [hfss.snapshotLastIndex, hfc]
    exact N.base.trans (Nat.le_max_left _ _)
  | behind hrt hrs hb hh =>
    obtain ⟨hlt, hp⟩ := N.compacted h.valid hS.log ht le_rfl
    refine ⟨_, h.confirms hS.log ht hlt hp hft hfss hflog hfc (absurd · hfl) fun hc hl =>
      absurd hl (hs hc), fun _ => ⟨fun hc => absurd (hrs.symm.trans hc) Bool.false_ne_true,
        fun _ => ⟨T, ?_⟩⟩⟩
    exact {
      log        := by simpa using hS.log
      range      := by omega
      ahead _    := by omega
      held e _ _ := (hack _).restrict (by omega) }
  | refuse hrt hrs hne h₁ h₂ =>
    have hprev := hS.prev_lt
    have hnot := hS.prev_ne h.valid (N.term ▸ ht) hne
    refine ⟨w.observed q args.term, ?_,
      fun _ => ⟨fun hc => absurd (hrs.symm.trans hc) Bool.false_ne_true, fun _ => ⟨T, {
      log := by simpa using hS.log, range := by omega, ahead hc := absurd hc hnot
      held e he het := absurd (hS.prev_eq h.valid (by omega) he het) hnot }⟩⟩⟩
    refine .of_logs (w.moves_observed q args.term) World.observed_log World.observed_leaderLog
      (fun q hq => World.observed_term_ne hq) ?_ rfl hfc fun hc hl => absurd hl (hs ?_)
    · exact N.same (w.moves_observed _ _).grows (by simp) (ho.trans hft.symm) hfss hflog hfc rfl rfl
        (absurd · hfl)
    · rw [←N.term, ←hc, ho]

theorem appendEntries {call : Call n C D} {args} (hm : .request call ∈ s.network)
    (hr : call.request = .appendEntries args) :
    ∃ rf reply w', (s.node call.callee).rf.appendEntries args = .ok (rf, reply) ∧
      s.Answer w call.callee ((s.node call.callee).finish rf)
        [.reply call (.appendEntries reply)] w' := by
  have hsound := h.sound _ hm
  simp only [Message.Sound, hr] at hsound
  have ⟨T, hS⟩ := hsound
  by_cases ht : args.term < (s.node call.callee).rf.currentTerm
  case pos =>
    refine ⟨_, _, w, if_pos ht, h.persist.reply ?_⟩
    rw [hr]
    exact fun hc => absurd hc (Nat.not_le.mpr ht)
  case neg =>
    have ht := Nat.le_of_not_lt ht
    have hM := (h.valid.log_coherent call.callee).matching (h.valid.leader_coherent _ _ hS.log)
    have ⟨rf, reply, hx, ha⟩ := (h.node call.callee).log.appendEntries hM hS.toFits ht
    have hann : s.Announced args.leaderCommit := ⟨call, _, hm, by rw [hr]; rfl, le_rfl⟩
    have ⟨w', a, hs⟩ := h.appends hS hann ht (h.not_leader hm (by rw [hr]; rfl)) ha
    exact ⟨rf, reply, w', hx, a.reply (hr ▸ hs)⟩

-- Snapshots of leaders

theorem installs {args : InstallSnapshotArgs n D} {T} (hS : args.Sound w T)
    (ht : (s.node q).rf.currentTerm = args.term)
    (hb : (s.node q).rf.snapshotLastIndex < args.lastIncludedIndex)
    (hs : (s.node q).rf.state ≠ .leader) (hc : s.Announced args.lastIncludedIndex) {rf : Raft n C D}
    (hrf : rf = { (s.node q).rf with
      log               := (s.node q).rf.compactedLog args.lastIncludedIndex args.lastIncludedTerm
      commitIndex       := max (s.node q).rf.commitIndex args.lastIncludedIndex
      snapshotLastIndex := args.lastIncludedIndex
      snapshotLastTerm  := args.lastIncludedTerm
      snapshot          := args.data
      isSnapshotApplied := false }) :
    s.Answer w q ((s.node q).finish rf) []
    ((w.observed q args.term).accepted q T args.lastIncludedIndex) := by
  subst hrf
  refine h.accepts hS.log ht.le hS.lt ?node rfl ?commit fun _ hl => absurd hl hs
  case node =>
    have hM := (h.valid.log_coherent q).matching (h.valid.leader_coherent _ _ hS.log)
    exact (h.node q).accept h.valid hS.log ht.le hS.lt ht
      ((h.node q).log.compactedLog hM hb hS.last rfl rfl rfl)
      rfl le_rfl hS.decided (Nat.le_max_right _ _) rfl hs
  case commit =>
    exact (Nat.le_total args.lastIncludedIndex (s.node q).rf.commitIndex).imp
      (fun hx => (Nat.max_eq_left hx).le) (fun hx => (Nat.max_eq_right hx).symm ▸ hc)

theorem installSnapshot {call : Call n C D} {args} (hm : .request call ∈ s.network)
    (hr : call.request = .installSnapshot args)
    (hc : ¬((s.node call.callee).rf.currentTerm < args.term ∧
      (s.node call.callee).rf.snapshotLastIndex < args.lastIncludedIndex)) :
    ∃ rf reply w', (s.node call.callee).rf.installSnapshot args = .ok (rf, reply) ∧
      s.Answer w call.callee ((s.node call.callee).finish rf)
      [.reply call (.installSnapshot reply)] w' := by
  have N := h.node call.callee
  have hsound := h.sound _ hm
  simp only [Message.Sound, hr] at hsound
  have ⟨T, hS⟩ := hsound
  have ⟨rf, hx, hrf⟩ := (s.node call.callee).rf.installSnapshot_ok args
  have hack (ht : (s.node call.callee).rf.currentTerm ≤ args.term) :
      ((w.observed call.callee args.term).accepted call.callee T args.lastIncludedIndex).Acked
        call.callee args.term args.lastIncludedIndex := by
    have := (w.observed call.callee args.term).accepted_acked call.callee T args.lastIncludedIndex
    rwa [World.observed_term (N.term ▸ ht)] at this
  cases Nat.lt_or_ge args.term (s.node call.callee).rf.currentTerm
  case inl ht =>
    refine ⟨rf, _, w, hx, ?_⟩
    rw [(hrf.resolve_right fun hn => absurd hn.left (Nat.not_le.mpr ht)).left]
    refine h.persist.reply ?_
    rw [hr]
    exact fun hn => absurd hn (Nat.not_le.mpr ht)
  case inr ht =>
    cases hrf
    case inr hrf =>
      have ⟨_, hb, hrf⟩ := hrf
      have heq : (s.node call.callee).rf.currentTerm = args.term :=
        Nat.le_antisymm ht (Nat.le_of_not_lt fun hn => hc ⟨hn, hb⟩)
      have hs := h.not_leader hm (by rw [hr]; rfl) heq
      have hann : s.Announced args.lastIncludedIndex := ⟨call, _, hm, by rw [hr]; rfl, le_rfl⟩
      refine ⟨rf, _, _, hx, .reply (h.installs hS heq hb hs hann hrf) ?_⟩
      rw [hr]
      exact fun _ _ => hack ht
    case inl hrf =>
      have ⟨hrf, hb⟩ := hrf
      have hb := hb.resolve_left (Nat.not_lt.mpr ht)
      have ⟨hlt, hp⟩ := N.compacted h.valid hS.log ht hb
      cases Nat.eq_or_lt_of_le ht
      case inl heq =>
        refine ⟨rf, _, _, hx, .reply (h.confirms hS.log ht hlt hp ?_ ?_ ?_ ?_ (fun _ => hrf) ?_) ?_⟩
        · rw [hrf]; exact heq
        · rw [hrf]; exact .refl _
        · rw [hrf]
        · rw [hrf]
        · rw [hrf]; exact fun _ hl => hl
        · rw [hr]; exact fun _ _ => hack ht
      case inr hgt =>
        -- The server has compacted the entry in an earlier term.
        refine ⟨rf, _, w, hx, ?_⟩
        rw [hrf]
        refine h.persist.reply ?_
        rw [hr]
        intro _ heq
        have hle := hS.last_le h.valid hp
        rw [N.term] at hle
        omega

end Cluster.Refines

-- Commands of clients

namespace Node.Refines

variable {nd : Node n C D} {p : Fin n} (h : nd.Refines w p) (hme : nd.rf.me = p)
  (hl : nd.rf.state = .leader) (command : C)

include h hl in
theorem moves_extended : World.Moves w (w.extended p ⟨nd.rf.currentTerm, some command⟩) :=
  World.moves_extended (h.term ▸ (h.leader hl).log) h.term.symm

include h hme hl

theorem extended_leads : (nd.rf.extended command).Leads
    (w.extended p ⟨nd.rf.currentTerm, some command⟩) p
    (w.log p ++ [⟨nd.rf.currentTerm, some command⟩]) := by
  have hn : 0 < n := Nat.zero_lt_of_lt p.isLt
  have g := (h.moves_extended hl command).grows
  have L := h.leader hl
  have hlt := L.matchIndex
  have hself : (nd.rf.extended command).matchIndex p = (w.log p).length := by
    simp only [Raft.extended, hme, Function.update_self, h.log.logLength]
  have hne {q} (hq : q ≠ p) : (nd.rf.extended command).matchIndex q = nd.rf.matchIndex q := by
    simp only [Raft.extended, hme, Function.update_of_ne hq]
  refine {
    log := by rw [Raft.extended, ←h.term]; exact World.extended_leaderLog
    nextIndex q := ?nextIndex, matchIndex q := ?matchIndex, median := ?median
    ahead q hq e := ?ahead, held q hq e he ht := ?held, acked q j hj := ?acked }
  case nextIndex =>
    have ⟨h₁, h₂⟩ := L.nextIndex q
    rw [List.length_append]
    exact ⟨h₁, h₂.trans (Nat.le_add_right _ _)⟩
  case matchIndex =>
    rw [List.length_append, List.length_singleton]
    by_cases hq : q = p
    case pos => rw [hq, hself]; omega
    case neg => rw [hne hq]; exact (hlt q).trans (Nat.lt_succ_self _)
  case median =>
    refine L.median.trans (Raft.median_mono hn fun q => ?_)
    by_cases hq : q = p
    case pos => rw [hq, hself]; exact (hlt p).le
    case neg => rw [hne hq]
  case ahead =>
    rw [hne hq, List.getElem?_append_left (hlt q)]
    exact L.ahead q hq e
  case held =>
    have ⟨h₁, h₂⟩ := L.nextIndex q
    have hx : nd.rf.nextIndex q - 1 < (w.log p).length := by omega
    exact g.ackedUpTo (L.held q hq e (List.getElem?_append_left hx ▸ he) ht)
  case acked =>
    by_cases hq : q = p
    case pos =>
      subst hq
      exact .inr (h.term ▸ w.extended_acked q _ j (hself ▸ hj))
    case neg => exact (L.acked q j (hne hq ▸ hj)).imp_right (g.acked _ _ _)

theorem extended : (nd.finish (nd.rf.extended command)).Refines
    (w.extended p ⟨nd.rf.currentTerm, some command⟩) p := by
  have htake (e : LogEntry C) : (w.log p ++ [e]).take (nd.rf.commitIndex + 1)
      = (w.log p).take (nd.rf.commitIndex + 1) := List.take_append_of_le_length h.commit
  refine {
    term := h.term, log := ?_, base := h.base, commit := ?_, decided := ?_, applied := h.applied
    commands c i hc := ?_, leader _ := ?_ }
  all_goals rw [World.extended_log]
  · exact (h.log.append _).congr rfl rfl rfl
  · rw [List.length_append]
    exact h.commit.trans_le (Nat.le_add_right _ _)
  · exact (h.moves_extended hl command).grows.decided (htake _ ▸ h.decided) le_rfl
  · have ⟨hi, hg⟩ := h.commands c i hc
    rw [List.getElem?_append_left (hi.trans_lt h.commit)]
    exact ⟨hi, hg⟩
  · exact h.extended_leads hme hl command

end Node.Refines

namespace Cluster.Refines

variable {s : Cluster n C D} {p q : Fin n} {nd : Node n C D} (h : s.Refines w)

include h

theorem extend (hl : (s.node p).rf.state = .leader) (command : C) :
    s.Answer w p ((s.node p).finish ((s.node p).rf.extended command)) []
      (w.extended p ⟨(s.node p).rf.currentTerm, some command⟩) := by
  have N := h.node p
  refine {
    moves := N.moves_extended hl command, others q hq := ⟨World.extended_log_ne hq, rfl⟩
    leaderLog t := ?_, own _ _ := by rw [World.extended_leaderLog, World.extended_log]
    idle _ hx := absurd (World.extended_leaderLog.symm.trans hx) nofun
    node := N.extended (h.elections.me p) hl command, restarts := le_rfl, stays _ _ _ := hl
    commit := .inl le_rfl
    candidate := nofun, leads := nofun, sound := nofun }
  by_cases ht : t = w.term p
  case pos => exact .inr ⟨ht.trans N.term, hl⟩
  case neg => exact .inl <| World.extended_leaderLog_ne ht

theorem start (command : C) : ∃ rf sent r w', (s.node p).rf.start command = .ok (rf, sent, r) ∧
    s.Answer w p ((s.node p).finish rf) (s.calls p sent) w' := by
  by_cases hl : (s.node p).rf.state = .leader
  case neg => exact ⟨_, [], _, w, if_pos hl, h.persist⟩
  case pos =>
    have a := h.extend hl command
    have ⟨sent, hx, hsent⟩ := a.node.startSendEntries hl (h.elections.me p)
    have hr := (Raft.start_leader hl command).trans (congrArg (· >>= _) hx)
    exact ⟨_, sent, _, _, hr, a.send hl hsent⟩

end Cluster.Refines

-- Replies to a leader

namespace Raft.Leads

variable {rf : Raft n C D} {p q : Fin n} {T : List (LogEntry C)} (h : rf.Leads w p T)

include h

-- What the leader knows about one of its peers changes.
theorem update (hq : q ≠ p) (next last : Nat) (hn : 1 ≤ next ∧ next ≤ T.length)
    (hl : last < T.length) (hm : rf.matchIndex q ≤ last)
    (ahead : ∀ e, T[last]? = some e → e.term = rf.currentTerm → last < next)
    (held : ∀ e, T[next - 1]? = some e → e.term = rf.currentTerm →
      w.Acked q rf.currentTerm (next - 1))
    (acked : ∀ j ≤ last, j ≤ rf.commitIndex ∨ w.acked q rf.currentTerm j) :
    { rf with
      nextIndex  := Function.update rf.nextIndex q next
      matchIndex := Function.update rf.matchIndex q last }.Leads w p T := by
  have hpos : 0 < n := Nat.zero_lt_of_lt p.isLt
  have lift (I : Fin n → Nat → Nat → Prop) (hI : ∀ v, I v (rf.nextIndex v) (rf.matchIndex v))
      (hq : I q next last) (v : Fin n) :
      I v (Function.update rf.nextIndex q next v) (Function.update rf.matchIndex q last v) := by
    by_cases hv : v = q
    case pos => subst hv; simpa only [Function.update_self] using hq
    case neg => simpa only [Function.update_of_ne hv] using hI v
  exact {
    log        := h.log
    nextIndex  := lift (fun _ k _ => 1 ≤ k ∧ k ≤ T.length) h.nextIndex hn
    matchIndex := lift (fun _ _ m => m < T.length) h.matchIndex hl
    median     := h.median.trans <| median_mono hpos <|
      lift (fun v _ m => rf.matchIndex v ≤ m) (fun _ => le_rfl) hm
    ahead      := lift (fun v k m => v ≠ p → ∀ e, T[m]? = some e → e.term = rf.currentTerm → m < k)
      h.ahead fun _ => ahead
    held       := lift (fun v k _ => v ≠ p → ∀ e, T[k - 1]? = some e → e.term = rf.currentTerm →
      w.Acked v rf.currentTerm (k - 1)) h.held fun _ => held
    acked      := lift (fun v _ m => ∀ j ≤ m, j ≤ rf.commitIndex ∨ w.acked v rf.currentTerm j)
      h.acked acked }

-- The entries of a request that is answered now reach at least as far as those of the last one.
theorem matchIndex_le (hq : q ≠ p) {args : AppendEntriesArgs n C} (hS : args.Sound w q T)
    (ht : rf.currentTerm = args.term) (hn : args.prevLogIndex + 1 = rf.nextIndex q) :
    rf.matchIndex q ≤ args.prevLogIndex + args.entries.length := by
  by_contra hx
  have hx := Nat.lt_of_not_le hx
  have he := List.getElem?_eq_getElem (h.matchIndex q)
  have := h.ahead q hq _ he ((hS.all _ _ he hx).trans ht.symm)
  omega

theorem chosen (hm : rf.commitIndex < Raft.median rf.matchIndex) {e}
    (he : T[Raft.median rf.matchIndex]? = some e) (ht : e.term = rf.currentTerm) :
    w.Chosen rf.currentTerm (Raft.median rf.matchIndex) := by
  have hpos : 0 < n := Nat.zero_lt_of_lt p.isLt
  have hmaj := (le_median_iff hpos rf.matchIndex _).mp le_rfl
  refine ⟨T, e, h.log, he, ht, _, hmaj, fun q hq => ?_⟩
  have hq := (Finset.mem_filter.mp hq).right
  exact (h.acked q _ hq).resolve_left (Nat.not_le.mpr hm)

end Raft.Leads

theorem Node.Refines.updateCommitIndex {nd : Node n C D} {p : Fin n} (h : nd.Refines w p)
    (hl : nd.rf.state = .leader) {nextIndex matchIndex : Fin n → Nat}
    (L : { nd.rf with nextIndex, matchIndex }.Leads w p (w.log p)) :
    ∃ rf, { nd.rf with nextIndex, matchIndex }.updateCommitIndex = .ok rf ∧
      (nd.finish rf).Refines w p ∧ rf.state = .leader := by
  have hpos : 0 < n := Nat.zero_lt_of_lt p.isLt
  have hlt := Raft.median_lt hpos L.matchIndex
  have hrep : { nd.rf with nextIndex, matchIndex }.Represents (w.log p) := h.log.congr rfl rfl rfl
  have ⟨e, he, het, _⟩ := hrep.logAt (h.base.trans L.median) hlt
  have hsame : (nd.finish { nd.rf with nextIndex, matchIndex }).Refines w p :=
    h.same (.refl w) rfl h.term { Raft.SameSnapshot.refl _ with } rfl rfl rfl rfl fun _ => L
  simp only [Raft.updateCommitIndex, he]
  refine ⟨_, rfl, ?_⟩
  split
  case isFalse => exact ⟨hsame, hl⟩
  case isTrue ht =>
    cases Nat.eq_or_lt_of_le L.median
    case inl heq => rw [←heq]; exact ⟨hsame, hl⟩
    case inr hc =>
      have hch := L.chosen hc (List.getElem?_eq_getElem hlt) (het ▸ ht)
      refine ⟨{ hsame with
        log := hrep.congr rfl rfl rfl, base := h.base.trans L.median, commit := hlt
        decided := ⟨_, _, _, h.term.ge, hch, L.log, List.prefix_refl _⟩
        applied := h.applied.trans L.median
        commands := fun c i hx => ?_
        leader := fun _ => { L with
          median := le_rfl, acked := fun q j hj => ?_ } }, hl⟩
      · have ⟨hi, hg⟩ := h.commands c i hx
        exact ⟨hi.trans L.median, hg⟩
      · exact (L.acked q j hj).imp_left (·.trans L.median)

namespace Cluster.Refines

variable {s : Cluster n C D} {nd : Node n C D} (h : s.Refines w)

include h

theorem sendEntries {call : Call n C D} {args reply}
    (hm : .reply call (.appendEntries reply) ∈ s.network)
    (hr : call.request = .appendEntries args) :
    ∃ rf w', (s.node call.caller).rf.sendEntries call.callee args reply = .ok rf ∧
      s.Answer w call.caller ((s.node call.caller).finish rf) [] w' := by
  have N := h.node call.caller
  have hreq := h.elections.requested _ _ hm
  obtain ⟨_, hne⟩ := h.leads call args.term hreq (by rw [hr]; rfl)
  have hsent := h.sound _ hreq
  have hback := h.sound _ hm
  simp only [Message.Sound, hr] at hsent hback
  obtain ⟨T, hS⟩ := hsent
  simp only [Raft.sendEntries]
  split
  case isTrue ht => exact ⟨_, _, rfl, h.stepDown ht⟩
  case isFalse ht =>
  split
  case isTrue => exact ⟨_, _, rfl, h.persist⟩
  case isFalse hc =>
  simp only [not_or, ne_eq, Decidable.not_not] at hc
  obtain ⟨hl, hct, hnext⟩ := hc
  have L := N.leader hl
  obtain ⟨hok, hfail⟩ := hback (hct ▸ Nat.le_of_not_lt ht)
  cases (hct ▸ hS.log).symm.trans L.log
  split
  case isTrue hs =>
    obtain ⟨T', hH⟩ := hfail (by simpa using hs)
    cases (hct ▸ hH.log).symm.trans L.log
    refine ⟨_, w, rfl, .stay (N.same (.refl w) rfl N.term { Raft.SameSnapshot.refl _ with } rfl rfl
      rfl rfl fun _ => ?_) le_rfl (.inl le_rfl) fun _ _ => hl⟩
    have L' := L.update hne reply.failedFirstIndex _ hH.range (L.matchIndex _) le_rfl
      (fun e he het => ?_) (hct ▸ hH.held) (L.acked _)
    · rw [Function.update_eq_self] at L'
      exact L'
    · have := L.ahead _ hne e he het
      have := hH.ahead (hS.prev_eq h.valid (by omega) he (het.trans hct))
      omega
  case isFalse hs =>
    have hack := hok (by simpa using hs)
    have hlast := hS.last_lt
    have hmatch := L.matchIndex_le hne hS hct hnext
    have L' := L.update hne (args.prevLogIndex + args.entries.length + 1) _ ⟨by omega, hlast⟩
      hlast hmatch (fun _ _ _ => Nat.lt_succ_self _) (fun _ _ _ => hct ▸ hack)
      (fun j hj => .inr (hct ▸ hack j hj))
    obtain ⟨rf, hx, hn, hl'⟩ := N.updateCommitIndex hl L'
    exact ⟨rf, w, hx, .stay hn le_rfl (.inr hl') fun _ _ => hl'⟩

theorem sendInstallSnapshot {call : Call n C D} {args reply}
    (hm : .reply call (.installSnapshot reply) ∈ s.network)
    (hr : call.request = .installSnapshot args) :
    ∃ rf w', (s.node call.caller).rf.sendInstallSnapshot call.callee args reply = .ok rf ∧
      s.Answer w call.caller ((s.node call.caller).finish rf) [] w' := by
  have N := h.node call.caller
  have hreq := h.elections.requested _ _ hm
  obtain ⟨_, hne⟩ := h.leads call args.term hreq (by rw [hr]; rfl)
  have hsent := h.sound _ hreq
  have hback := h.sound _ hm
  simp only [Message.Sound, hr] at hsent hback
  obtain ⟨T, hS⟩ := hsent
  simp only [Raft.sendInstallSnapshot]
  split
  case isTrue ht => exact ⟨_, _, rfl, h.stepDown ht⟩
  case isFalse ht =>
  split
  case isTrue => exact ⟨_, _, rfl, h.persist⟩
  case isFalse hc =>
  simp only [not_or, ne_eq, Decidable.not_not] at hc
  obtain ⟨hl, hct, hbase⟩ := hc
  have L := N.leader hl
  have hack := hback (hct ▸ Nat.le_of_not_lt ht)
  cases (hct ▸ hS.log).symm.trans L.log
  have hlt := hS.lt
  have hb := N.base
  obtain ⟨h₁, h₂⟩ := L.nextIndex call.callee
  have h₃ := L.matchIndex call.callee
  have L' := L.update hne
    (max (args.lastIncludedIndex + 1) ((s.node call.caller).rf.nextIndex call.callee)) _ (by omega)
    (Nat.max_lt.mpr ⟨hlt, h₃⟩) (Nat.le_max_right _ _) (fun e he het => ?ahead)
    (fun e he het => ?held) (fun j hj => ?acked)
  obtain ⟨rf, hx, hn, hl'⟩ := N.updateCommitIndex hl L'
  exact ⟨rf, w, hx, .stay hn le_rfl (.inr hl') fun _ _ => hl'⟩
  case ahead =>
    cases Nat.le_total args.lastIncludedIndex ((s.node call.caller).rf.matchIndex call.callee)
    case inr hx => omega
    case inl hx =>
      rw [Nat.max_eq_right hx] at he
      have := L.ahead _ hne e he het
      omega
  case held =>
    cases Nat.le_total (args.lastIncludedIndex + 1) ((s.node call.caller).rf.nextIndex call.callee)
    case inl hx =>
      rw [Nat.max_eq_right hx] at he ⊢
      exact L.held _ hne e he het
    case inr hx =>
      rw [Nat.max_eq_left hx, Nat.add_sub_cancel] at he ⊢
      have hlast := hS.last
      rw [he] at hlast
      exact hct ▸ hack ((Option.some.inj hlast).symm.trans (het.trans hct))
  case acked =>
    cases Nat.lt_or_ge ((s.node call.caller).rf.matchIndex call.callee) j
    case inl hx => exact .inl (by omega)
    case inr hx => exact L.acked _ j hx

end Cluster.Refines
