import DistributedSystems.Raft.Test
import DistributedSystems.Raft.Theorems.Daemon

open Rfsrv Tester

variable {n : Nat} {C : Type} {snapshot : Bool}

theorem follows_of_gapFree {D : Type} {k : Nat} {msgs : List (ApplyMsg C D)} {m : ApplyMsg C D}
    (h : GapFree k (msgs ++ [m])) : m.Follows (lastIndex k msgs) := by
  induction msgs generalizing k
  case nil         => exact h.left
  case cons _ _ hi => exact hi h.right

namespace Peer

variable {peer peer' : Peer n C} {m : ApplyMsg C (Snapshot C)} {k : Nat}

theorem Coherent.applyCh (h : peer.Coherent snapshot k) (hm : peer.rs.applier = .received m) :
    peer.node.applyCh = peer.processed ++ [m] := by
  simp only [processed, hm]
  exact (List.dropLast_append_getLast? m (h.received m hm)).symm

-- Only a report moves on to the next message.
theorem act_processed {e : Act C} {sent} (h : peer.act snapshot e = some (some peer', sent)) :
    peer'.processed = peer.processed ∨ e = .report ∧ peer'.processed = peer.node.applyCh := by
  cases e <;> simp only [act] at h
  case start =>
    split at h <;> cases h
    exact .inl rfl
  case startElection =>
    split at h <;> cases h
    exact .inl rfl
  case heartbeat =>
    split_ifs at h
    split at h <;> cases h
    exact .inl rfl
  case applyTicker =>
    obtain ⟨r, _, h⟩ := Option.map_eq_some_iff.mp h
    cases r <;> cases h
    exact .inl rfl
  case receive =>
    split at h <;> cases h
    case h_1 hr _ => exact .inl (by simp [processed, hr])
  case report =>
    refine .inr ⟨rfl, ?_⟩
    split at h <;> cases h
    case h_1 => rfl
    case h_2 m _ =>
      split_ifs
      case neg => rfl
      case pos =>
        cases m <;> simp only [Rfsrv.applierSnap]
        case command  => simp only [processed]; split_ifs <;> rfl
        case snapshot => split <;> rfl
  case snapshot =>
    split at h
    case h_2 => cases h
    case h_1 hx =>
      split at h <;> cases h
      exact .inl (by simp [processed, hx, Node.finish])

theorem handle_processed {req reply} (h : peer.handle req = some (peer', reply)) :
    peer'.processed = peer.processed := by
  simp only [handle] at h
  split at h <;> cases h
  rfl

theorem resume_processed {q req reply} (h : peer.resume q req reply = some (some peer')) :
    peer'.processed = peer.processed := by
  cases reply <;> simp only [resume] at h
  case none => split at h <;> cases h <;> rfl
  case some =>
    obtain ⟨r, _, h⟩ := Option.map_eq_some_iff.mp h
    cases r <;> cases h
    rfl

-- What a server has worked on by now.
theorem becomes_processed {p : Fin n} {a : Group.Event (Fin n) (Act C)} {o : Option (Peer n C)}
    (h : Becomes (raft1d n C snapshot) p a o peer') : peer'.processed = [] ∨ ∃ peer, o = some peer ∧
      (peer'.processed = peer.processed ∨ a = .act p .report ∧
        peer'.processed = peer.node.applyCh) := by
  cases h
  case start =>
    refine .inl ?_
    simp only [raft1d, processed, make]
    split <;> rfl
  case same     => exact .inr ⟨_, rfl, .inl rfl⟩
  case handle h => exact .inr ⟨_, rfl, .inl (handle_processed h)⟩
  case resume h => exact .inr ⟨_, rfl, .inl (resume_processed h)⟩
  case act s e sent ha h =>
    refine .inr ⟨_, rfl, (act_processed h).imp_right fun hx => ?_⟩
    exact ⟨hx.left ▸ ha, hx.right⟩

end Peer

namespace RaftServer

variable [DecidableEq C] {srvs : Fin n → RaftServer n C} {p q : Fin n} {c : Option C} {index : Nat}
  {err : Error n C} {rs : Rfsrv C}

theorem disagreement_eq_some (h : disagreement srvs p c index = some err) :
    ∃ q old, (srvs q).logs index = some old ∧ old ≠ c ∧ err = .mismatch index p c q old := by
  refine List.foldlRecOn (motive := fun o => ∀ err, o = some err →
    ∃ q old, (srvs q).logs index = some old ∧ old ≠ c ∧
    err = .mismatch index p c q old) (List.finRange n) _ (by simp) ?_ err h
  intro o ho q _ err he
  split at he
  case h_2 => exact ho err he
  case h_1 old hq =>
    split_ifs at he with hc
    · cases he
      exact ⟨q, old, hq, hc, rfl⟩
    · exact ho err he

-- The reasons for an error.
inductive Finds (snapshot : Bool) (srvs : Fin n → RaftServer n C) (p : Fin n) (rs : Rfsrv C) :
    Error n C → Prop
  | unexpected {c : Option C} {index : Nat} :
    rs.applier = .received (.command c index) → snapshot = true →
    index ≠ rs.lastApplied + 1 → Finds snapshot srvs p rs (.unexpected p (rs.lastApplied + 1) index)
  | outOfOrder {c : Option C} {index : Nat} :
    rs.applier = .received (.command c index) → 1 < index →
    (srvs p).logs (index - 1) = none → Finds snapshot srvs p rs (.outOfOrder p index)
  | mismatch {c old : Option C} {index : Nat} {q : Fin n} :
    rs.applier = .received (.command c index) →
    (srvs q).logs index = some old → old ≠ c → Finds snapshot srvs p rs (.mismatch index p c q old)
  | snapshot {data : Option (Snapshot C)} {term index : Nat} {err : Error n C} :
    rs.applier = .received (.snapshot data term index) → rs.ingestSnap p index data = .error err →
    Finds snapshot srvs p rs err

theorem report_command (hr : rs.applier = .received (.command c index)) :
    report snapshot srvs p rs =
      if snapshot ∧ index ≠ rs.lastApplied + 1 then
        (srvs, some (.unexpected p (rs.lastApplied + 1) index))
      else
        ((checkLogs srvs p c index).fst,
          if 1 < index ∧ !(checkLogs srvs p c index).snd.snd then some (.outOfOrder p index)
          else (checkLogs srvs p c index).snd.fst) := by
  simp only [report, hr]

theorem report_finds (h : (report snapshot srvs p rs).snd = some err) :
    Finds snapshot srvs p rs err := by
  cases hr : rs.applier
  case starting     => simp [report, hr] at h
  case reading      => simp [report, hr] at h
  case snapshotting => simp [report, hr] at h
  case received m =>
    cases m
    case command c index =>
      rw [report_command hr] at h
      split_ifs at h with hi hp
      · cases h
        exact .unexpected hr hi.left hi.right
      · cases h
        exact .outOfOrder hr hp.left (by simpa [checkLogs, lt_trans one_pos hp.left] using hp.right)
      · obtain ⟨q, old, hq, hc, rfl⟩ := disagreement_eq_some h
        exact .mismatch hr hq hc
    case snapshot data term index =>
      simp only [report, hr] at h
      split_ifs at h
      split at h <;> cases h
      case h_2 hx => exact .snapshot hr hx

theorem report_applyErr : ((report snapshot srvs p rs).fst q).applyErr = (srvs q).applyErr := by
  have frame (logs : Log C) :
      (Function.update srvs p { srvs p with logs } q).applyErr = (srvs q).applyErr := by
    by_cases hq : q = p
    case pos => subst hq; simp
    case neg => simp [hq]
  simp only [report, checkLogs, ingestLog]
  split
  case h_1 => exact frame _
  case h_2 => split_ifs <;> first | rfl | exact frame _
  case h_3 =>
    split_ifs
    · rfl
    · split <;> exact frame _
  case h_4 => rfl

-- Without snapshots a log only ever grows by the commands that are reported.
theorem report_uncompacted (srvs : Fin n → RaftServer n C) (p : Fin n)
    (hs : rs.applier ≠ .starting) :
    (report false srvs p rs).fst = srvs ∧ (∀ c index, rs.applier ≠ .received (.command c index)) ∨
    ∃ c index, rs.applier = .received (.command c index) ∧
      (report false srvs p rs).fst = Function.update srvs p
        { srvs p with logs := Function.update (srvs p).logs index (some c) } := by
  cases ha : rs.applier <;> simp only [report, ha, checkLogs]
  case starting     => exact absurd ha hs
  case reading      => simp
  case snapshotting => simp
  case received m   => cases m <;> simp

theorem report_logs {v : Option C} (hs : rs.applier ≠ .starting)
    (h : ((report false srvs p rs).fst q).logs index = some v) :
    (srvs q).logs index = some v ∨ q = p ∧ rs.applier = .received (.command v index) := by
  rcases report_uncompacted srvs p hs with ⟨hr, _⟩ | ⟨c, j, ha, hr⟩ <;> rw [hr] at h
  · exact .inl h
  by_cases hq : q = p
  case neg => exact .inl (by simpa [hq] using h)
  case pos =>
    subst hq
    by_cases hj : index = j
    case neg => exact .inl (by simpa [hj] using h)
    case pos =>
      subst hj
      obtain rfl : c = v := by simpa using h
      exact .inr ⟨rfl, ha⟩

theorem isSome_report (hs : rs.applier ≠ .starting)
    (h : ((srvs q).logs index).isSome ∨ q = p ∧ ∃ c, rs.applier = .received (.command c index)) :
    (((report false srvs p rs).fst q).logs index).isSome := by
  rcases report_uncompacted srvs p hs with ⟨hr, hc⟩ | ⟨c, j, ha, hr⟩ <;> rw [hr]
  · rcases h with h | ⟨_, c, hx⟩
    · exact h
    · exact absurd hx (hc c index)
  by_cases hq : q = p
  case neg => simpa [hq] using h
  case pos =>
    subst hq
    by_cases hj : index = j
    case pos => simp [hj]
    case neg =>
      rcases h with h | ⟨_, d, hx⟩
      · simpa [hj] using h
      · simp [ha, Ne.symm hj] at hx

end RaftServer

-- Without snapshots all servers receive the same commands.
theorem Execution.NoSnapshots.command_eq {D : Type} [DecidableEq C] [DecidableEq D]
    {e : Execution n C D} (hs : e.NoSnapshots) (hn : Odd n) {i j index : Nat} {p q : Fin n}
    {c d : Option C} (hp : .command c index ∈ ((e.state i).node p).applyCh)
    (hq : .command d index ∈ ((e.state j).node q).applyCh) :
    c = d := by
  obtain ⟨w, h⟩ := (hs.guarded hn).shadowed hn
  obtain ⟨hi, hc⟩ := ((h.refines i).node p).commands c index (.inl hp)
  obtain ⟨hj, hd⟩ := ((h.refines j).node q).commands d index (.inl hq)
  rw [h.committed_eq hi hj, hd] at hc
  exact (Option.some.inj hc).symm

namespace RaftTest

open RaftServer

variable [DecidableEq C] {ts ts' : RaftTest n C} {e : Execution n C (Snapshot C)} {i : Nat}
  {p q : Fin n} {peer : Peer n C} {err : Error n C}

inductive Stepped (snapshot : Bool) (ts : RaftTest n C) : RaftTest n C → Prop
  | report {p : Fin n} {group} : ts.group.next (raft1d n C snapshot) (.act p .report) = some group →
    Stepped snapshot ts { ts with group, srvs := ts.reported snapshot p }
  | group {a group} :
    (∀ p, a ≠ .act p .report) → ts.group.next (raft1d n C snapshot) a = some group →
    Stepped snapshot ts { ts with group }
  | send {p : Fin n} {peer : Peer n C} : (ts.group.server p).running = some peer →
    Stepped snapshot ts { ts with reports := ts.reports ++ [(p, peer.rs)] }
  | deliver {p : Fin n} {rs : Rfsrv C} : (p, rs) ∈ ts.reports →
    Stepped snapshot ts { ts with srvs := (report snapshot ts.srvs p rs).fst }
  | leads {p : Fin n} {peer : Peer n C} :
    (ts.group.server p).running = some peer → peer.node.rf.state = .leader →
    Stepped snapshot ts { ts with leaders := ts.leaders ++ [(peer.node.rf.currentTerm, p)] }
  | follows : Stepped snapshot ts ts

theorem stepped {a : Event n C} (h : ts.next snapshot a = some ts') : Stepped snapshot ts ts' := by
  cases a
  case group a =>
    by_cases ha : ∃ p, a = .act p .report
    case pos =>
      obtain ⟨p, rfl⟩ := ha
      obtain ⟨g, hg, rfl⟩ := Option.map_eq_some_iff.mp h
      exact .report hg
    case neg =>
      have ha p : a ≠ .act p .report := fun h => ha ⟨p, h⟩
      obtain ⟨g, hg, rfl⟩ : ∃ g, ts.group.next (raft1d n C snapshot) a = some g ∧
        { ts with group := g } = ts' := by
        unfold next at h
        split at h
        all_goals simp_all
      exact .group ha hg
  case send p =>
    obtain ⟨peer, hp, rfl⟩ := Option.map_eq_some_iff.mp h
    exact .send hp
  case deliver k =>
    obtain ⟨x, hx, rfl⟩ := Option.map_eq_some_iff.mp h
    exact .deliver (List.mem_of_getElem? hx)
  case getState p =>
    obtain ⟨peer, hp, rfl⟩ := Option.map_eq_some_iff.mp h
    split_ifs with hl
    · exact .leads hp hl
    · exact .follows

-- The daemons are the servers of a cluster.
structure Observes (snapshot : Bool) (e : Execution n C (Snapshot C)) (i : Nat)
    (ts : RaftTest n C) : Prop where
  node   : ∀ p peer, (ts.group.server p).running = some peer →
    (e.state i).node p = { peer.node with incarnation := (ts.group.server p).incarnation } ∧
    ∃ k, ((e.state i).node p).Streams k ∧ peer.Coherent snapshot k
  served : (e.state i).Served snapshot

theorem exists_execution (b : (raftTest n C snapshot).Behavior) :
    ∃ e : Execution n C (Snapshot C),
      (∀ i, Observes snapshot e i (b.state i)) ∧ (snapshot = false → e.NoSnapshots) := by
  obtain ⟨g, hg, _⟩ :=
    b.exists_related (T := Tester.group (raft1d n C snapshot)) (R := fun ts g => g = ts.group)
    (M := fun _ _ => True) rfl (by
      rintro i a ts' _ _ hs rfl
      cases stepped hs
      case report p g hg  => exact .inr ⟨.act p .report, g, trivial, hg, rfl⟩
      case group a g _ hg => exact .inr ⟨a, g, trivial, hg, rfl⟩
      all_goals exact .inl rfl)
  obtain ⟨e, hn, _, hs, he⟩ := Tester.exists_execution g
  refine ⟨e, fun i => ⟨fun p peer hp => ?_, hs i⟩, he⟩
  simpa only [hg i] using hn i p peer (by rwa [hg i])

namespace Observes

theorem applyCh (h : Observes snapshot e i ts) (hp : (ts.group.server p).running = some peer) :
    ((e.state i).node p).applyCh = peer.node.applyCh := by
  rw [(h.node p peer hp).left]

theorem sourced (h : Observes snapshot e i ts) (hp : (ts.group.server p).running = some peer)
    {m : ApplyMsg C (Snapshot C)} (hm : m ∈ peer.node.applyCh) :
    m.Sourced (fun _ _ => True) fun index data => snapshot = true ∧
    data.lastIncludedIndex = index :=
  (h.served.sourced.node p).applied m (h.applyCh hp ▸ hm)

-- The message that the server works on comes right behind those that it has worked on.
theorem received (h : Observes snapshot e i ts) (hp : (ts.group.server p).running = some peer)
    {m : ApplyMsg C (Snapshot C)} (hm : peer.rs.applier = .received m) :
    m ∈ peer.node.applyCh ∧ ∃ k, m.Follows (lastIndex k peer.processed) ∧
      (snapshot = true → peer.rs.lastApplied = lastIndex k peer.processed) ∧
      (snapshot = false → k = 0) := by
  obtain ⟨_, k, hk, hc⟩ := h.node p peer hp
  have ha := hc.applyCh hm
  have hg := hk.gapFree
  rw [h.applyCh hp, ha] at hg
  exact ⟨by simp [ha], k, follows_of_gapFree hg, hc.lastApplied, hc.base⟩

-- A test may only fail because of the commands, not because of indices or snapshots.
theorem finds (h : Observes snapshot e i ts) (hp : (ts.group.server p).running = some peer)
    (hf : Finds snapshot ts.srvs p peer.rs err) :
    ∃ index, err = .outOfOrder p index ∨ ∃ c q old, err = .mismatch index p c q old := by
  cases hf
  case outOfOrder index _ _ _     => exact ⟨index, .inl rfl⟩
  case mismatch index q _ _ _     => exact ⟨index, .inr ⟨_, _, _, rfl⟩⟩
  case unexpected c index hr hs hi =>
    obtain ⟨_, k, hk, hl, _⟩ := h.received hp hr
    exact absurd (hk.trans (congrArg (· + 1) (hl hs).symm)) hi
  case snapshot data term index hr he =>
    obtain ⟨d, rfl, _, rfl⟩ := h.sourced hp (h.received hp hr).left
    simp [ingestSnap] at he

end Observes

-- What a report to the tester leaves behind

theorem reported_logs (hp : (ts.group.server p).running = some peer) :
    (ts.reported snapshot p q).logs = ((report snapshot ts.srvs p peer.rs).fst q).logs := by
  simp only [reported, hp]
  cases (report snapshot ts.srvs p peer.rs).snd <;> simp only [Option.elim, setErr]
  by_cases hq : q = p
  case pos => subst hq; simp
  case neg => simp [hq]

theorem reported_applyErr (h : (ts.reported snapshot p q).applyErr = some err) :
    (ts.srvs q).applyErr = some err ∨
    q = p ∧ ∃ peer, (ts.group.server p).running = some peer ∧
    Finds snapshot ts.srvs p peer.rs err := by
  cases hp : (ts.group.server p).running <;> simp only [reported, hp] at h
  case none => exact .inl h
  case some peer =>
    cases hx : (report snapshot ts.srvs p peer.rs).snd <;> simp only [hx, Option.elim, setErr] at h
    case none => exact .inl (report_applyErr.symm.trans h)
    case some err' =>
      by_cases hq : q = p
      case neg => exact .inl (report_applyErr.symm.trans (by simpa [hq] using h))
      case pos =>
        subst hq
        obtain rfl : err' = err := by simpa using h
        exact .inr ⟨rfl, peer, rfl, report_finds hx⟩

-- The errors of a test come from reports of daemons.
theorem Stepped.applyErr (h : Stepped snapshot ts ts') (he : (ts'.srvs p).applyErr = some err) :
    (ts.srvs p).applyErr = some err ∨
    ∃ peer, (ts.group.server p).running = some peer ∧ Finds snapshot ts.srvs p peer.rs err := by
  cases h
  case report =>
    rcases reported_applyErr he with he | ⟨rfl, he⟩
    · exact .inl he
    · exact .inr he
  case deliver => exact .inl (report_applyErr.symm.trans he)
  all_goals exact .inl he

theorem Stepped.leaders (h : Stepped snapshot ts ts') {term : Nat} (hl : (term, p) ∈ ts'.leaders) :
    (term, p) ∈ ts.leaders ∨ ∃ peer, (ts.group.server p).running = some peer ∧
    peer.node.rf.state = .leader ∧
      peer.node.rf.currentTerm = term := by
  cases h
  case leads q peer hp hs =>
    simp only [List.mem_append, List.mem_singleton, Prod.mk.injEq] at hl
    rcases hl with hl | ⟨rfl, rfl⟩
    · exact .inl hl
    · exact .inr ⟨peer, hp, hs, rfl⟩
  all_goals exact .inl hl

-- What the tester knows in tests without snapshots.
structure Checked (e : Execution n C (Snapshot C)) (ts : RaftTest n C) : Prop where
  logs      : ∀ p index c, (ts.srvs p).logs index = some c →
    ∃ i, .command c index ∈ ((e.state i).node p).applyCh
  processed : ∀ p peer, (ts.group.server p).running = some peer →
    ∀ c index, .command c index ∈ peer.processed → ((ts.srvs p).logs index).isSome
  reports   : ∀ p rs, (p, rs) ∈ ts.reports → rs.applier ≠ .starting ∧
    ∀ c index, rs.applier = .received (.command c index) →
    ∃ i, .command c index ∈ ((e.state i).node p).applyCh

namespace Observes

variable (h : Observes false e i ts) (hp : (ts.group.server p).running = some peer)
include h hp

theorem reports : peer.rs.applier ≠ .starting ∧
    ∀ c index, peer.rs.applier = .received (.command c index) →
      ∃ i, .command c index ∈ ((e.state i).node p).applyCh := by
  obtain ⟨_, _, _, hc⟩ := h.node p peer hp
  refine ⟨fun ha => Bool.false_ne_true (hc.starting ha), fun c index ha => ⟨i, ?_⟩⟩
  rw [h.applyCh hp]
  exact (h.received hp ha).left

-- The command before has been reported already.
theorem exists_processed {c : Option C} {index : Nat}
    (ha : peer.rs.applier = .received (.command c index)) (hi : 1 < index) :
    ∃ d, .command d (index - 1) ∈ peer.processed := by
  obtain ⟨_, k, hf, _, hk⟩ := h.received hp ha
  obtain rfl := hk rfl
  have hf : index = lastIndex 0 peer.processed + 1 := hf
  cases hl : peer.processed.getLast?
  case none =>
    rw [List.getLast?_eq_none_iff.mp hl] at hf
    simp only [lastIndex] at hf
    omega
  case some m =>
    rw [lastIndex_of_getLast? hl] at hf
    have hm := List.mem_of_getLast? hl
    cases m
    case command d j =>
      obtain rfl : index = j + 1 := hf
      exact ⟨d, hm⟩
    case snapshot =>
      obtain ⟨_, _, _, hc⟩ := h.node p peer hp
      obtain ⟨_, _, hs, _⟩ := h.sourced hp (by rw [hc.applyCh ha]; exact List.mem_append_left _ hm)
      cases hs

-- The checks of the tester succeed.
theorem not_finds (hc : Checked e ts) (hs : e.NoSnapshots) (hn : Odd n) :
    ¬Finds false ts.srvs p peer.rs err := by
  intro hf
  cases hf
  case unexpected hb _ => cases hb
  case mismatch c old index q ha hq hx =>
    obtain ⟨_, hq⟩ := hc.logs q index old hq
    obtain ⟨_, hp⟩ := (h.reports hp).right c index ha
    exact hx (hs.command_eq hn hq hp)
  case outOfOrder c index ha hi hl =>
    obtain ⟨d, hd⟩ := h.exists_processed hp ha hi
    simpa [hl] using hc.processed p peer hp d (index - 1) hd
  case snapshot ha _ =>
    obtain ⟨_, _, hs, _⟩ := h.sourced hp (h.received hp ha).left
    cases hs

end Observes

namespace Checked

theorem init : Checked e (raftTest n C false).init where
  logs      := by simp [raftTest]
  processed := by simp [raftTest, Tester.group, Server.running]
  reports   := by simp [raftTest]

-- A report is checked, at once or late.
theorem report {rs : Rfsrv C} (h : Checked e ts)
    (hr : rs.applier ≠ .starting ∧ ∀ c index, rs.applier = .received (.command c index) →
      ∃ i, .command c index ∈ ((e.state i).node p).applyCh) {srvs : Fin n → RaftServer n C}
    (hs : ∀ q, (srvs q).logs = ((RaftServer.report false ts.srvs p rs).fst q).logs) :
    Checked e { ts with srvs } where
  logs q index c hq := by
    rw [hs] at hq
    rcases report_logs hr.left hq with hq | ⟨rfl, ha⟩
    · exact h.logs q index c hq
    · exact hr.right c index ha
  processed q peer hq c index hm := by
    rw [hs]
    exact isSome_report hr.left (.inl (h.processed q peer hq c index hm))
  reports := h.reports

-- The daemons do something.
theorem group {a : Group.Event (Fin n) (Peer.Act C)} {group} (h : Checked e ts)
    (hg : ts.group.next (raft1d n C false) a = some group)
    (ha : ∀ p peer, a = .act p .report → (ts.group.server p).running = some peer →
      ∀ c index, .command c index ∈ peer.node.applyCh → ((ts.srvs p).logs index).isSome) :
    Checked e { ts with group } where
  logs    := h.logs
  reports := h.reports
  processed p peer' hp c index hm := by
    rcases Peer.becomes_processed (Becomes.next hg hp) with hx | ⟨peer, hr, hx | ⟨he, hx⟩⟩ <;>
      rw [hx] at hm
    · simp at hm
    · exact h.processed p peer hr c index hm
    · exact ha p peer he hr c index hm

theorem next (h : Checked e ts) (ho : Observes false e i ts) (hs : Stepped false ts ts') :
    Checked e ts' := by
  cases hs
  case follows => exact h
  case leads   => exact ⟨h.logs, h.processed, h.reports⟩
  case group ha hg => exact h.group hg fun p _ hx => absurd hx (ha p)
  case deliver hm  => exact h.report (h.reports _ _ hm) fun _ => rfl
  case send p peer hp =>
    refine ⟨h.logs, h.processed, fun q rs hm => ?_⟩
    simp only [List.mem_append, List.mem_singleton, Prod.mk.injEq] at hm
    rcases hm with hm | ⟨rfl, rfl⟩
    · exact h.reports q rs hm
    · exact ho.reports hp
  case report p g hg =>
    have hc : Checked e { ts with srvs := ts.reported false p } := by
      cases hp : (ts.group.server p).running
      case none =>
        have hr : ts.reported false p = ts.srvs := by simp only [reported, hp]
        exact hr ▸ h
      case some peer => exact h.report (ho.reports hp) fun _ => reported_logs hp
    refine hc.group hg fun q peer hq hp c index hm => ?_
    cases hq
    have hr : ((ts.reported false p) p).logs = _ := reported_logs hp
    rw [hr]
    refine isSome_report (ho.reports hp).left ?_
    cases hx : peer.rs.applier
    case received m =>
      obtain ⟨_, _, _, hco⟩ := ho.node p peer hp
      rw [hco.applyCh hx, List.mem_append, List.mem_singleton] at hm
      rcases hm with hm | rfl
      · exact .inl (h.processed p peer hp c index hm)
      · exact .inr ⟨rfl, c, rfl⟩
    all_goals
      have hm' : .command c index ∈ peer.processed := by simpa only [Peer.processed, hx] using hm
      exact .inl (h.processed p peer hp c index hm')

end Checked

section Behavior

variable (b : (raftTest n C snapshot).Behavior) (ho : ∀ i, Observes snapshot e i (b.state i))
include ho

theorem checked (hb : snapshot = false) (i : Nat) : Checked e (b.state i) := by
  subst hb
  exact b.invariant .init (fun i _ _ _ hs h => h.next (ho i) (stepped hs)) i

theorem applyErr_cases (hn : Odd n) (hs : snapshot = false → e.NoSnapshots) (i : Nat) :
    ∀ p err, ((b.state i).srvs p).applyErr = some err → snapshot = true ∧
      ∃ index, err = .outOfOrder p index ∨ ∃ c q old, err = .mismatch index p c q old := by
  refine b.invariant (I := fun ts => ∀ p err, (ts.srvs p).applyErr = some err → snapshot = true ∧
    ∃ index, err = .outOfOrder p index ∨
    ∃ c q old, err = .mismatch index p c q old) (by simp [raftTest]) ?_ i
  intro i a ts' _ hx h p err he
  rcases (stepped hx).applyErr he with he | ⟨peer, hp, hf⟩
  · exact h p err he
  · refine ⟨?_, (ho i).finds hp hf⟩
    cases snapshot
    case true  => rfl
    case false => exact absurd hf ((ho i).not_finds hp (checked b ho rfl i) (hs rfl) hn)

theorem exists_leader (i : Nat) : ∀ term p, (term, p) ∈ (b.state i).leaders →
    ∃ j, ((e.state j).node p).rf.state = .leader ∧ ((e.state j).node p).rf.currentTerm = term := by
  refine b.invariant (I := fun ts => ∀ term p, (term, p) ∈ ts.leaders →
    ∃ j, ((e.state j).node p).rf.state = .leader ∧
    ((e.state j).node p).rf.currentTerm = term) (by simp [raftTest]) ?_ i
  intro i a ts' _ hx h term p hl
  rcases (stepped hx).leaders hl with hl | ⟨peer, hp, hl, ht⟩
  · exact h term p hl
  · exact ⟨i, by rw [((ho i).node p peer hp).left]; exact ⟨hl, ht⟩⟩

end Behavior

-- Without snapshots no check of a server's commands fails. With snapshots, servers still never
-- receive a command or a snapshot with a wrong index. And a test never finds two leaders of a term.
theorem checks_succeed (hn : Odd n) (b : (raftTest n C snapshot).Behavior) (i : Nat) :
    (∀ p err, ((b.state i).srvs p).applyErr = some err → snapshot = true ∧
      ∃ index, err = .outOfOrder p index ∨ ∃ c q old, err = .mismatch index p c q old) ∧
    ∀ term p q, (term, p) ∈ (b.state i).leaders → (term, q) ∈ (b.state i).leaders → p = q := by
  obtain ⟨e, ho, hs⟩ := exists_execution b
  refine ⟨applyErr_cases b ho hn hs i, fun term p q hp hq => ?_⟩
  obtain ⟨j, hj, ht⟩ := exists_leader b ho i term p hp
  obtain ⟨k, hk, rfl⟩ := exists_leader b ho i term q hq
  have hp := ((e.elections j).leader p hj).mono (e.network_mono (Nat.le_max_left j k))
  have hq := ((e.elections k).leader q hk).mono (e.network_mono (Nat.le_max_right j k))
  exact (e.elections (max j k)).won_unique hn (ht ▸ hp) hq

-- A call that is answered, and a command that is reported.

def answered (k : Nat) : List (Event 3 Nat) :=
  [.net k .processReq, .net k .call, .handle k, .reply k, .net k .receive, .net k (.reply .pass),
    .resume k].map .group

def applied (p : Fin 3) : List (Event 3 Nat) :=
  [.act p .applyTicker, .act p .receive, .act p .report].map .group

-- Server 0 becomes the leader and replicates a command to server 1, which reports it again after a
-- restart.
def restarted : (raftTest 3 Nat false).Behavior :=
  .ofActions _ ([.startServer 0, .addServer 0, .startServer 1, .addServer 1,
      .enable (0, 0, 1) true, .act 0 .startElection].map .group ++ answered 0 ++
    [.getState 0, .group (.act 0 (.start 7))] ++ answered 2 ++ applied 0 ++
    [.group (.act 0 .heartbeat)] ++ answered 4 ++ applied 1 ++
    [.deleteServer 1, .checkpointPersister 1, .kill 1, .startServer 1, .addServer 1,
      .act 0 .heartbeat].map .group ++ answered 6 ++ applied 1) (by decide +kernel)

theorem checks_succeed_restarted :
    (∀ p : Fin 3, p ≠ 2 → ((restarted.state 52).srvs p).logs 1 = some (some 7)) ∧
    ((restarted.state 52).group.server 1).incarnation = 1 ∧ (1, 0) ∈ (restarted.state 52).leaders ∧
    (∀ p, ((restarted.state 52).srvs p).applyErr = none) ∧
    ∀ q, (1, q) ∈ (restarted.state 52).leaders → q = 0 := by
  have hl : (1, 0) ∈ (restarted.state 52).leaders := by decide +kernel
  obtain ⟨he, hu⟩ := checks_succeed (by decide) restarted 52
  refine ⟨by decide +kernel, by decide +kernel, hl, fun p => ?_, fun q hq => hu 1 q 0 hq hl⟩
  exact Option.eq_none_iff_forall_ne_some.mpr fun err hp => Bool.false_ne_true (he p err hp).left

end RaftTest
