import DistributedSystems.Raft.Theorems.ApplyStream
import DistributedSystems.Raft.Theorems.CompactedLog

-- Where entries and snapshots come from. `G` holds for the commands that were passed to `Start`, at
-- the indices that it returned, and `H` for the snapshots that were passed to `Snapshot`.

variable {n : Nat} {C D : Type}

-- The entries behind the index `base`.
def Placed (G : Nat → C → Prop) (base : Nat) (entries : List (LogEntry C)) : Prop :=
  ∀ i entry, entries[i]? = some entry → ∃ c, entry.command = some c ∧ G (base + 1 + i) c

namespace Placed

variable {G G' : Nat → C → Prop} {base : Nat} {l m : List (LogEntry C)}

theorem nil : Placed G base [] :=
  nofun

theorem mono (h : Placed G base l) (hG : ∀ i c, G i c → G' i c) : Placed G' base l := by
  intro i entry he
  have ⟨c, hc, hg⟩ := h i entry he
  exact ⟨c, hc, hG _ c hg⟩

theorem append (h : Placed G base l) (h' : Placed G (base + l.length) m) :
    Placed G base (l ++ m) := by
  intro i entry he
  by_cases hi : i < l.length
  case pos => exact h i entry (by rwa [List.getElem?_append_left hi] at he)
  case neg =>
    rw [List.getElem?_append_right (not_lt.mp hi)] at he
    have ⟨c, hc, hg⟩ := h' _ entry he
    exact ⟨c, hc, by rwa [show base + l.length + 1 + (i - l.length) = base + 1 + i by omega] at hg⟩

theorem drop (h : Placed G base l) (k : Nat) : Placed G (base + k) (l.drop k) := by
  intro i entry he
  rw [List.getElem?_drop] at he
  have ⟨c, hc, hg⟩ := h _ entry he
  exact ⟨c, hc, by rwa [show base + 1 + (k + i) = base + k + 1 + i by omega] at hg⟩

theorem take (h : Placed G base l) (k : Nat) : Placed G base (l.take k) := by
  intro i entry he
  rw [List.getElem?_take] at he
  split_ifs at he
  exact h i entry he

theorem singleton {entry : LogEntry C} {c : C} (hc : entry.command = some c) (hg : G (base + 1) c) :
    Placed G base [entry] := by
  rintro (_ | i) e he
  · obtain rfl : entry = e := by simpa using he
    exact ⟨c, hc, hg⟩
  · simp at he

end Placed

-- The snapshot up to `index`.
def Saved (H : Nat → D → Prop) (index : Nat) (snapshot : Option D) : Prop :=
  (index = 0 ∧ snapshot = none) ∨ ∃ data, snapshot = some data ∧ H index data

theorem Saved.mono {H H' : Nat → D → Prop} {index : Nat} {snapshot : Option D}
    (h : Saved H index snapshot) (hH : ∀ i d, H i d → H' i d) : Saved H' index snapshot :=
  h.imp_right fun ⟨d, hd, hs⟩ => ⟨d, hd, hH _ d hs⟩

structure Raft.Sourced (G : Nat → C → Prop) (H : Nat → D → Prop) (rf : Raft n C D) : Prop where
  log      : Placed G rf.snapshotLastIndex rf.log.tail
  snapshot : Saved H rf.snapshotLastIndex rf.snapshot
  pending  : rf.isSnapshotApplied = false → rf.snapshotLastIndex ≠ 0

def Request.Sourced (G : Nat → C → Prop) (H : Nat → D → Prop) : Request n C D → Prop
  | .requestVote _        => True
  | .appendEntries args   => Placed G args.prevLogIndex args.entries
  | .installSnapshot args => Saved H args.lastIncludedIndex args.data

theorem Request.Sourced.mono {G G' : Nat → C → Prop} {H H' : Nat → D → Prop}
    {request : Request n C D} (h : request.Sourced G H) (hG : ∀ i c, G i c → G' i c)
    (hH : ∀ i d, H i d → H' i d) :
    request.Sourced G' H' := by
  cases request
  case requestVote     => trivial
  case appendEntries   => exact Placed.mono h hG
  case installSnapshot => exact Saved.mono h hH

namespace Raft.Sourced

variable {G G' : Nat → C → Prop} {H H' : Nat → D → Prop} {rf rf' : Raft n C D}

theorem mono (h : rf.Sourced G H) (hG : ∀ i c, G i c → G' i c) (hH : ∀ i d, H i d → H' i d) :
    rf.Sourced G' H' where
  log      := h.log.mono hG
  snapshot := h.snapshot.mono hH
  pending  := h.pending

-- Handlers that leave the log and the snapshot alone.
theorem congr (h : rf.Sourced G H) (hl : rf'.log = rf.log) (hs : rf.SameSnapshot rf') :
    rf'.Sourced G H where
  log      := by rw [hl, hs.snapshotLastIndex]; exact h.log
  snapshot := by rw [hs.snapshot, hs.snapshotLastIndex]; exact h.snapshot
  pending  := by rw [hs.isSnapshotApplied, hs.snapshotLastIndex]; exact h.pending

theorem persist (h : rf.Sourced G H) (me : Fin n) : (Raft.make me rf.persist).Sourced G H where
  log      := h.log
  snapshot := h.snapshot
  pending  := nofun

theorem extended (h : rf.Sourced G H) {command : C} (hg : G rf.logLength command) :
    (rf.extended command).Sourced G H where
  log      := by
    simp only [Raft.extended]
    rcases hl : rf.log with _ | ⟨e, l⟩
    · exact .nil
    · have hp := h.log
      rw [hl] at hp
      refine hp.append (.singleton rfl ?_)
      rw [Raft.logLength, hl] at hg
      rwa [List.tail_cons,
        show rf.snapshotLastIndex + l.length + 1 = (e :: l).length + rf.snapshotLastIndex by
        simp; omega]
  snapshot := h.snapshot
  pending  := h.pending

-- The log behind a later snapshot.
theorem dropped (h : rf.Sourced G H) {i : Nat} (hi : rf.snapshotLastIndex ≤ i) :
    Placed G i (rf.log.drop (i + 1 - rf.snapshotLastIndex)) := by
  have hd := h.log.drop (i - rf.snapshotLastIndex)
  rwa [List.drop_tail, show rf.snapshotLastIndex + (i - rf.snapshotLastIndex) = i by omega,
    show i - rf.snapshotLastIndex + 1 = i + 1 - rf.snapshotLastIndex by omega] at hd

theorem makeSnapshot (h : rf.Sourced G H) {i : Nat} {data : D} (hH : H i data)
    (hs : rf.makeSnapshot i data = .ok rf') : rf'.Sourced G H := by
  rcases makeSnapshot_ok hs with ⟨_, rfl⟩ | ⟨hi, e, _, rfl⟩
  · exact h
  · exact ⟨h.dropped hi.le, .inr ⟨data, rfl, hH⟩, fun _ => Nat.ne_zero_of_lt hi⟩

theorem installSnapshot (h : rf.Sourced G H) {args : InstallSnapshotArgs n D}
    (ha : (Request.installSnapshot args : Request n C D).Sourced G H) {reply}
    (hs : rf.installSnapshot args = .ok (rf', reply)) : rf'.Sourced G H := by
  have ⟨rf₁, hx, hc⟩ := rf.installSnapshot_ok args
  obtain ⟨rfl, -⟩ := Prod.mk.inj (Except.ok.inj (hx.symm.trans hs))
  rcases hc with ⟨rfl, _⟩ | ⟨_, hi, rfl⟩
  · exact h
  · refine ⟨?_, ha, fun _ => Nat.ne_zero_of_lt hi⟩
    simp only [compactedLog]
    split_ifs
    · exact h.dropped hi.le
    · exact .nil

-- Each entry that is taken over has the same index as in the message.
theorem mergeEntries (h : Placed G rf.snapshotLastIndex rf.log.tail) {entries : List (LogEntry C)}
    {i : Nat} (hi : rf.snapshotLastIndex ≤ i) (hl : i + 1 ≤ rf.logLength) (he : Placed G i entries)
    (hm : rf.mergeEntries (i + 1) entries = .ok rf') :
    ∃ log, rf' = { rf with log } ∧ Placed G rf.snapshotLastIndex log.tail := by
  induction entries generalizing i
  case nil =>
    cases hm
    exact ⟨rf.log, rfl, h⟩
  case cons entry entries hind =>
    rw [logLength] at hl
    have hne : rf.log ≠ [] := by
      rintro hn
      simp [hn] at hl
      omega
    simp only [Raft.mergeEntries] at hm
    split_ifs at hm with hlt
    · obtain ⟨old, _, hm⟩ := bind_ok hm
      split_ifs at hm
      · obtain ⟨log, hlog, hm⟩ := bind_ok hm
        cases hm
        have hk : rf.absoluteIndexToLogIndex (i + 1) = (i + 1 - rf.snapshotLastIndex : Nat) := by
          simp only [absoluteIndexToLogIndex]
          omega
        rw [rf.logTo_of_le hk (by omega)] at hlog
        cases hlog
        refine ⟨_, rfl, ?_⟩
        have hx : i + 1 - rf.snapshotLastIndex = (i - rf.snapshotLastIndex) + 1 := by omega
        obtain ⟨e, l, hel⟩ := List.exists_cons_of_ne_nil hne
        rw [hel] at h hl ⊢
        simp only [hx, List.take_succ_cons, List.cons_append, List.tail_cons] at h ⊢
        refine (h.take _).append ?_
        rw [List.length_take, min_eq_left (by simp at hl; omega)]
        rwa [show rf.snapshotLastIndex + (i - rf.snapshotLastIndex) = i by omega]
      · exact hind (by omega) (by rw [logLength] at hlt; rw [logLength]; omega) (he.drop 1) hm
    · cases hm
      refine ⟨_, rfl, ?_⟩
      rw [logLength] at hlt
      rw [List.tail_append_of_ne_nil hne]
      refine h.append ?_
      rw [List.length_tail]
      rwa [show rf.snapshotLastIndex + (rf.log.length - 1) = i by omega]

end Raft.Sourced

def Crash.Sourced (G : Nat → C → Prop) (H : Nat → D → Prop) (c : Crash n C D) : Prop :=
  c.rf.Sourced G H ∧ ∀ x ∈ c.sent, x.snd.Sourced G H

namespace Raft

variable {G : Nat → C → Prop} {H : Nat → D → Prop} {rf rf' : Raft n C D}

theorem Sourced.crash (h : rf.Sourced G H) : Crash.Sourced G H { rf } :=
  ⟨h, nofun⟩

theorem mergeEntries_error {i : Nat} {entries : List (LogEntry C)} {c}
    (h : rf.mergeEntries i entries = .error c) : c = { rf } := by
  induction entries generalizing i
  case nil => cases h
  case cons entry entries hi =>
    simp only [mergeEntries] at h
    split_ifs at h
    rcases bind_error h with h | ⟨old, _, h⟩
    · exact (logAt_error h).left
    · split_ifs at h
      · rcases bind_error h with h | ⟨_, _, h⟩
        · exact (logTo_error h).left
        · cases h
      · exact hi h

theorem followLeader_sourced (h : rf.Sourced G H) (term : Nat) :
    (rf.followLeader term).Sourced G H :=
  h.congr (rf.followLeader_log term).left (.followLeader rf term)

theorem followCommit_sourced (h : rf.Sourced G H) (leaderCommit : Nat) :
    (rf.followCommit leaderCommit).Sourced G H := by
  simp only [followCommit]
  split_ifs
  · exact ⟨h.log, h.snapshot, h.pending⟩
  · exact h

-- `AppendEntries`, whether it panics or not.
theorem appendEntries_sourced (h : rf.Sourced G H) {args : AppendEntriesArgs n C}
    (ha : Placed G args.prevLogIndex args.entries) :
    (∀ rf' reply, rf.appendEntries args = .ok (rf', reply) → rf'.Sourced G H) ∧
    (∀ c, rf.appendEntries args = .error c → c.Sourced G H) := by
  have hf := followLeader_sourced h args.term
  simp only [appendEntries]
  split_ifs with ht hl hb
  · exact ⟨fun _ _ hx => by cases hx; exact h, (by simp)⟩
  · refine ⟨fun _ _ hx => ?_, fun c hx => ?_⟩
    · obtain ⟨_, _, hx⟩ := bind_ok hx
      cases hx
      exact hf
    · rcases bind_error hx with hx | ⟨_, _, hx⟩
      · exact buildFailedReply_error hx ▸ hf.crash
      · cases hx
  · exact ⟨fun _ _ hx => by cases hx; exact hf, (by simp)⟩
  · refine ⟨fun _ _ hx => ?_, fun c hx => ?_⟩
    · obtain ⟨prev, _, hx⟩ := bind_ok hx
      split_ifs at hx
      · obtain ⟨_, _, hx⟩ := bind_ok hx
        cases hx
        exact hf
      · obtain ⟨rf₁, hm, hx⟩ := bind_ok hx
        cases hx
        obtain ⟨log, rfl, hp⟩ := Sourced.mergeEntries hf.log (not_lt.mp hb) (not_le.mp hl) ha hm
        have hm : Sourced G H { rf.followLeader args.term with log } :=
          ⟨hp, hf.snapshot, hf.pending⟩
        exact followCommit_sourced hm args.leaderCommit
    · rcases bind_error hx with hx | ⟨prev, _, hx⟩
      · exact (logAt_error hx).left ▸ hf.crash
      · split_ifs at hx
        · rcases bind_error hx with hx | ⟨_, _, hx⟩
          · exact buildFailedReply_error hx ▸ hf.crash
          · cases hx
        · rcases bind_error hx with hx | ⟨_, _, hx⟩
          · exact mergeEntries_error hx ▸ hf.crash
          · cases hx

theorem requestVote_sourced (h : rf.Sourced G H) {args : RequestVoteArgs n} :
    (∀ rf' reply, rf.requestVote args = .ok (rf', reply) → rf'.Sourced G H) ∧
    (∀ c, rf.requestVote args = .error c → c.Sourced G H) := by
  have ho : (rf.observe args.term).Sourced G H :=
    h.congr (rf.observe_log args.term) (.observe rf args.term)
  refine ⟨fun rf' reply hx => ?_, fun c hx => ?_⟩
  · refine h.congr ?_ (.requestVote hx)
    rcases (requestVote_ok hx).right with ⟨_, hg⟩ | ⟨_, ⟨_, rfl⟩ | ⟨_, rfl⟩⟩
    · rw [hg.result]
      exact rf.observe_log args.term
    · rfl
    · exact rf.observe_log args.term
  · exact (logAt_error (requestVote_error hx)).left ▸ ho.crash

theorem serve_sourced (h : rf.Sourced G H) {request : Request n C D} (hr : request.Sourced G H) :
    (∀ rf' reply, rf.serve request = .ok (rf', reply) → rf'.Sourced G H) ∧
    (∀ c, rf.serve request = .error c → c.Sourced G H) := by
  have lift {α β : Type} {x : Except (Crash n C D) (Raft n C D × α)} {f : α → β}
      (hx : (∀ rf' reply, x = .ok (rf', reply) → rf'.Sourced G H) ∧
        (∀ c, x = .error c → c.Sourced G H)) :
      (∀ rf' reply, (x >>= fun y => .ok (y.map id f)) = .ok (rf', reply) → rf'.Sourced G H) ∧
      (∀ c, (x >>= fun y => .ok (y.map id f)) = .error c → c.Sourced G H) := by
    refine ⟨fun rf' reply h => ?_, fun c h => ?_⟩
    · obtain ⟨y, hy, h⟩ := bind_ok h
      cases h
      exact hx.left y.fst y.snd hy
    · rcases bind_error h with h | ⟨_, _, h⟩
      · exact hx.right c h
      · cases h
  cases request
  case requestVote args     => exact lift (requestVote_sourced h)
  case appendEntries args   => exact lift (appendEntries_sourced h hr)
  case installSnapshot args =>
    refine lift ⟨fun rf' reply hx => h.installSnapshot hr hx, fun c hx => ?_⟩
    have ⟨_, hx', _⟩ := rf.installSnapshot_ok args
    cases hx'.symm.trans hx

theorem sendTo_sourced (h : rf.Sourced G H) {q : Fin n} {request} (hs : rf.sendTo q = .ok request) :
    request.Sourced G H := by
  simp only [sendTo] at hs
  split_ifs at hs with hb
  · obtain ⟨_, _, hs⟩ := bind_ok hs
    obtain ⟨entries, he, hs⟩ := bind_ok hs
    cases hs
    have hk : rf.absoluteIndexToLogIndex (rf.nextIndex q) =
        (rf.nextIndex q - rf.snapshotLastIndex : Nat) := by
      simp only [absoluteIndexToLogIndex]
      omega
    simp only [logFrom, hk] at he
    split_ifs at he
    cases he
    have hd := h.dropped (i := rf.nextIndex q - 1) (by omega)
    rwa [show rf.nextIndex q - 1 + 1 - rf.snapshotLastIndex = rf.nextIndex q -
      rf.snapshotLastIndex by omega]
      at hd
  · cases hs
    exact h.snapshot

theorem start_sourced (h : rf.Sourced G H) {command : C}
    (hg : rf.state = .leader → G rf.logLength command) :
    (∀ rf' sent out, rf.start command = .ok (rf', sent, out) →
      rf'.Sourced G H ∧ ∀ x ∈ sent, x.snd.Sourced G H) ∧
    (∀ c, rf.start command = .error c → c.Sourced G H) := by
  by_cases hl : rf.state = .leader
  case neg =>
    have hx : rf.start command = .ok (rf, [], rf.commitIndex, rf.currentTerm, false) := by
      simp [start, hl]
    rw [hx]
    refine ⟨?_, (by simp)⟩
    rintro _ _ _ ⟨⟩
    exact ⟨h, (by simp)⟩
  case pos =>
    have he := h.extended (hg hl)
    rw [start_leader hl]
    refine ⟨fun rf' sent out hx => ?_, fun c hx => ?_⟩
    · obtain ⟨_, hs, hx⟩ := bind_ok hx
      cases hx
      exact ⟨he, fun x hm => sendTo_sourced he (startSendEntries_ok hs hm).right⟩
    · rcases bind_error hx with hx | ⟨_, _, hx⟩
      · obtain ⟨hr, hs, _⟩ := startSendEntries_error hx
        exact ⟨hr ▸ he, fun x hm => sendTo_sourced he (hs x.fst x.snd hm).right⟩
      · cases hx

theorem Answered.sourced (h : rf.Sourced G H) {term : Nat} (ha : rf.Answered term rf') :
    rf'.Sourced G H := by
  refine h.congr ?_ (.answered ha)
  rcases ha with ⟨_, rfl⟩ | ⟨_, _, _, rfl⟩ <;> rfl

theorem sendRequestVote_sourced (h : rf.Sourced G H) (q : Fin n) (term : Nat)
    (reply : RequestVoteReply) :
    (rf.sendRequestVote q term reply).Sourced G H := by
  refine h.congr ?_ (.sendRequestVote rf q term reply)
  rcases rf.sendRequestVote_cases q term reply with ⟨_, hx⟩ | hx | ⟨_, _, _, hx | ⟨_, hx⟩⟩ <;>
    rw [hx] <;> rfl

theorem updateCommitIndex_error {c} (h : rf.updateCommitIndex = .error c) : c = { rf } := by
  rcases bind_error h with h | ⟨_, _, h⟩
  · exact (logAt_error h).left
  · cases h

theorem sendEntries_error (h : rf.Sourced G H) {q : Fin n} {args : AppendEntriesArgs n C} {reply c}
    (hx : rf.sendEntries q args reply = .error c) : c.Sourced G H := by
  simp only [sendEntries] at hx
  split_ifs at hx
  exact updateCommitIndex_error hx ▸ ⟨⟨h.log, h.snapshot, h.pending⟩, (by simp)⟩

theorem sendInstallSnapshot_error (h : rf.Sourced G H) {q : Fin n} {args : InstallSnapshotArgs n D}
    {reply c} (hx : rf.sendInstallSnapshot q args reply = .error c) : c.Sourced G H := by
  simp only [sendInstallSnapshot] at hx
  split_ifs at hx
  exact updateCommitIndex_error hx ▸ ⟨⟨h.log, h.snapshot, h.pending⟩, (by simp)⟩

theorem returned_sourced (h : rf.Sourced G H) {q : Fin n} {request reply r}
    (hx : rf.returned q request reply = some r) :
    (∀ rf', r = .ok rf' → rf'.Sourced G H) ∧ (∀ c, r = .error c → c.Sourced G H) := by
  cases request <;> cases reply <;> simp only [returned, Option.some.injEq, reduceCtorEq] at hx
  case requestVote.requestVote args reply =>
    subst hx
    exact ⟨fun _ hx => by cases hx; exact sendRequestVote_sourced h q args.term reply, (by simp)⟩
  case appendEntries.appendEntries args reply =>
    subst hx
    exact ⟨fun _ hx => ((rf.sendEntries_ends q args reply).ok hx).sourced h,
      fun _ => sendEntries_error h⟩
  case installSnapshot.installSnapshot args reply =>
    subst hx
    exact ⟨fun _ hx => ((rf.sendInstallSnapshot_ends q args reply).ok hx).sourced h,
      fun _ => sendInstallSnapshot_error h⟩

end Raft

-- The message carries a command or a snapshot of the given origin.
def ApplyMsg.Sourced (G : Nat → C → Prop) (H : Nat → D → Prop) : ApplyMsg C D → Prop
  | command c i       => ∃ d, c = some d ∧ G i d
  | snapshot data _ i => ∃ d, data = some d ∧ H i d

-- The persister is described by what `Make` reads from it.
structure Node.Sourced (G : Nat → C → Prop) (H : Nat → D → Prop) (nd : Node n C D) : Prop where
  rf        : nd.rf.Sourced G H
  persister : ∀ me, (Raft.make me nd.persister).Sourced G H
  offered   : ∀ msg, nd.applier = .offering msg → msg.Sourced G H
  applied   : ∀ msg ∈ nd.applyCh, msg.Sourced G H

structure Cluster.Sourced (G : Nat → C → Prop) (H : Nat → D → Prop) (s : Cluster n C D) : Prop where
  node     : ∀ p, (s.node p).Sourced G H
  requests : ∀ call, .request call ∈ s.network → call.request.Sourced G H

theorem ApplyMsg.Sourced.mono {G G' : Nat → C → Prop} {H H' : Nat → D → Prop} {msg : ApplyMsg C D}
    (h : msg.Sourced G H) (hG : ∀ i c, G i c → G' i c) (hH : ∀ i d, H i d → H' i d) :
    msg.Sourced G' H' := by
  cases msg <;> obtain ⟨d, hd, h⟩ := h
  case command  => exact ⟨d, hd, hG _ d h⟩
  case snapshot => exact ⟨d, hd, hH _ d h⟩

namespace Node.Sourced

variable {G G' : Nat → C → Prop} {H H' : Nat → D → Prop} {nd : Node n C D}

theorem mono (h : nd.Sourced G H) (hG : ∀ i c, G i c → G' i c) (hH : ∀ i d, H i d → H' i d) :
    nd.Sourced G' H' where
  rf             := h.rf.mono hG hH
  persister me   := (h.persister me).mono hG hH
  offered msg ha := (h.offered msg ha).mono hG hH
  applied msg hm := (h.applied msg hm).mono hG hH

theorem finish (h : nd.Sourced G H) {rf : Raft n C D} (hr : rf.Sourced G H) :
    (nd.finish rf).Sourced G H where
  rf        := hr
  persister := hr.persist
  offered   := h.offered
  applied   := h.applied

theorem restart {persister : Persister n C D} (h : ∀ me, (Raft.make me persister).Sourced G H) :
    (nd.restart persister).Sourced G H where
  rf        := h nd.rf.me
  persister := h
  offered   := nofun
  applied   := nofun

theorem tick (h : nd.Sourced G H) {i : Nat} (hs : nd.Streams i) {rf applier}
    (ht : nd.rf.applyTicker nd.applier = some (.ok (rf, applier))) :
    { nd with rf, applier }.Sourced G H := by
  have ⟨ho, ht⟩ := Raft.applyTicker_ok ht
  have ⟨_, hcompact⟩ := hs.settle ho
  have hset : (nd.rf.settle nd.applier).Sourced G H := by
    obtain ⟨b, hb⟩ := nd.rf.settle_eq nd.applier
    rw [hb]
    refine ⟨h.rf.log, h.rf.snapshot, fun hf => ?_⟩
    have ⟨_, hp⟩ :=
      Raft.settle_pending (hb ▸ hf : (nd.rf.settle nd.applier).isSnapshotApplied = false)
    exact h.rf.pending hp
  cases ht
  case sleep       => exact ⟨hset, h.persister, nofun, h.applied⟩
  case snapshot hp =>
    refine ⟨⟨hset.log, hset.snapshot, hset.pending⟩, h.persister, ?_, h.applied⟩
    rintro _ ⟨⟩
    exact hset.snapshot.resolve_left fun h => hset.pending hp h.left
  case command entry hp hc _ he =>
    refine ⟨⟨hset.log, hset.snapshot, hset.pending⟩, h.persister, ?_, h.applied⟩
    rintro _ ⟨⟩
    -- The head of the log is never applied, since it is not behind the snapshot.
    have hb := (hcompact hp).left
    rw [Nat.sub_add_comm hb, ←List.getElem?_tail] at he
    have ⟨c, hc, hg⟩ := hset.log _ entry he
    rw [Nat.add_right_comm, Nat.add_sub_cancel' hb] at hg
    exact ⟨c, hc, hg⟩

theorem receive (h : nd.Sourced G H) {msg : ApplyMsg C D} (ha : nd.applier = .offering msg) :
    { nd with applier := .sent msg, applyCh := nd.applyCh ++ [msg] }.Sourced G H where
  rf        := h.rf
  persister := h.persister
  offered   := (by simp)
  applied   := List.forall_mem_append.mpr ⟨h.applied, by simpa using h.offered msg ha⟩

end Node.Sourced

namespace Cluster

variable {G : Nat → C → Prop} {H : Nat → D → Prop} {s s' : Cluster n C D} {p : Fin n}

namespace Sourced

theorem init : (Cluster.init n C D).Sourced G H where
  node _   := ⟨⟨.nil, .inl ⟨rfl, rfl⟩, nofun⟩, fun _ => ⟨.nil, .inl ⟨rfl, rfl⟩, nofun⟩, nofun,
    nofun⟩
  requests := nofun

theorem mono {G' : Nat → C → Prop} {H' : Nat → D → Prop} (h : s.Sourced G H)
    (hG : ∀ i c, G i c → G' i c) (hH : ∀ i d, H i d → H' i d) : s.Sourced G' H' where
  node p           := (h.node p).mono hG hH
  requests call hm := (h.requests call hm).mono hG hH

theorem update (h : s.Sourced G H) {nd : Node n C D} (hn : nd.Sourced G H)
    {msgs : List (Message n C D)} (hm : ∀ call, .request call ∈ msgs → call.request.Sourced G H) :
    (s.update p nd msgs).Sourced G H where
  node q           := by
    by_cases hq : q = p
    case pos => simpa [Cluster.update, hq] using hn
    case neg => simpa [Cluster.update, hq] using h.node q
  requests call hc := by
    rcases List.mem_append.mp hc with hc | hc
    · exact h.requests call hc
    · exact hm call hc

theorem calls {requests : List (Fin n × Request n C D)} (hr : ∀ x ∈ requests, x.snd.Sourced G H) :
    ∀ call, .request call ∈ s.calls p requests → call.request.Sourced G H := by
  intro call hc
  obtain ⟨x, hx, he⟩ := List.mem_map.mp hc
  cases he
  exact hr x hx

theorem crash (h : s.Sourced G H) {c : Crash n C D} (hc : c.Sourced G H) :
    (s.crash p c).Sourced G H :=
  h.update (.restart hc.left.persist) (calls hc.right)

theorem start (h : s.Sourced G H) {command : C}
    (hg : (s.node p).rf.state = .leader → G (s.node p).rf.logLength command) :
    (s.start p command).Sourced G H := by
  obtain ⟨hok, herr⟩ := Raft.start_sourced (h.node p).rf hg
  rw [Cluster.start]
  split
  case h_1 rf requests _ hx =>
    obtain ⟨hr, hs⟩ := hok _ _ _ hx
    exact h.update ((h.node p).finish hr) (calls hs)
  case h_2 c hx => exact h.crash (herr c hx)

theorem startElection (h : s.Sourced G H) : (s.startElection p).Sourced G H := by
  have hc : (s.node p).rf.candidacy.Sourced G H := (h.node p).rf.congr rfl ⟨rfl, rfl, rfl, rfl, rfl⟩
  rw [Cluster.startElection]
  split
  case h_1 rf requests hx =>
    obtain ⟨rfl, e, _, hr⟩ := Raft.startElection_ok hx
    refine h.update ((h.node p).finish hc) (calls fun x hx => ?_)
    rw [hr x.fst x.snd hx]
    trivial
  case h_2 c hx =>
    obtain ⟨_, _, hl⟩ := Raft.startElection_error hx
    exact h.crash ((Raft.logAt_error hl).left ▸ hc.crash)

theorem heartbeat (h : s.Sourced G H) (hs : s.heartbeat p = some s') : s'.Sourced G H := by
  rw [Cluster.heartbeat] at hs
  split_ifs at hs
  split at hs <;> cases hs
  case h_1 requests hx =>
    exact h.update (h.node p)
      (calls fun x hm => Raft.sendTo_sourced (h.node p).rf (Raft.startSendEntries_ok hx hm).right)
  case h_2 c hx =>
    obtain ⟨_, hs, _⟩ := Raft.startSendEntries_error hx
    exact h.update (.restart (h.node p).persister)
      (calls fun x hm => Raft.sendTo_sourced (h.node p).rf (hs x.fst x.snd hm).right)

theorem snapshot (h : s.Sourced G H) {data : D} (hH : ∀ i, (s.node p).received = some i → H i data)
    (hs : s.snapshot p data = some s') : s'.Sourced G H := by
  obtain ⟨i, hi, rfl⟩ := Option.map_eq_some_iff.mp hs
  split
  case h_1 rf hx =>
    exact h.update ((h.node p).finish ((h.node p).rf.makeSnapshot (hH i hi) hx)) nofun
  case h_2 c hx  => exact h.crash (Raft.makeSnapshot_error hx ▸ (h.node p).rf.crash)

theorem applyTicker (h : s.Sourced G H) {i : Nat} (hi : (s.node p).Streams i)
    (hs : s.applyTicker p = some s') : s'.Sourced G H := by
  obtain ⟨r, hr, rfl⟩ := Option.map_eq_some_iff.mp hs
  cases r
  case ok x    => exact h.update ((h.node p).tick hi hr) nofun
  case error c => exact h.update (.restart (h.node p).persister) nofun

theorem receive (h : s.Sourced G H) (hs : s.receive p = some s') : s'.Sourced G H := by
  rw [Cluster.receive] at hs
  split at hs <;> cases hs
  case h_1 msg ha => exact h.update ((h.node p).receive ha) (by simp)

theorem serve (h : s.Sourced G H) {call : Call n C D} (hm : .request call ∈ s.network) :
    (s.serve call).Sourced G H := by
  have ⟨hok, herr⟩ := Raft.serve_sourced (h.node call.callee).rf (h.requests call hm)
  rw [Cluster.serve]
  split
  case h_1 rf reply hx => exact h.update ((h.node call.callee).finish (hok rf reply hx)) (by simp)
  case h_2 c hx        => exact h.crash (herr c hx)

theorem returned (h : s.Sourced G H) {call : Call n C D} {reply}
    (hs : s.returned call reply = some s') :
    s'.Sourced G H := by
  rw [Cluster.returned] at hs
  split_ifs at hs
  obtain ⟨r, hr, rfl⟩ := Option.map_eq_some_iff.mp hs
  obtain ⟨hok, herr⟩ := Raft.returned_sourced (h.node call.caller).rf hr
  cases r
  case ok rf   => exact h.update ((h.node call.caller).finish (hok rf rfl)) (by simp)
  case error c => exact h.crash (herr c rfl)

theorem failed (h : s.Sourced G H) {call : Call n C D} (hs : s.failed call = some s') :
    s'.Sourced G H := by
  rw [Cluster.failed] at hs
  split_ifs at hs
  split at hs <;> cases hs
  case h_1 => exact h
  case h_2 => exact h.update ((h.node call.caller).finish (h.node call.caller).rf) (by simp)

variable [DecidableEq C] [DecidableEq D]

theorem next (h : s.Sourced G H) (hi : ∀ p, ∃ i, (s.node p).Streams i) {a : Event n C D}
    (hG : ∀ p command, a = .start p command → (s.node p).rf.state = .leader →
      G (s.node p).rf.logLength command)
    (hH : ∀ p data, a = .snapshot p data → ∀ i, (s.node p).received = some i → H i data)
    (hs : s.next a = some s') : s'.Sourced G H := by
  cases a <;> simp only [Cluster.next] at hs
  case start p command  => cases hs; exact h.start (hG p command rfl)
  case startElection    => cases hs; exact h.startElection
  case heartbeat        => exact h.heartbeat hs
  case snapshot p data  => exact h.snapshot (hH p data rfl) hs
  case applyTicker p    =>
    obtain ⟨i, hi⟩ := hi p
    exact h.applyTicker hi hs
  case receive          => exact h.receive hs
  case restart p        => cases hs; exact h.update (.restart (h.node p).persister) (by simp)
  case serve            =>
    split_ifs at hs with hm
    cases hs
    exact h.serve hm
  case returned         =>
    split_ifs at hs
    exact h.returned hs
  case failed           =>
    split_ifs at hs
    exact h.failed hs

end Sourced
end Cluster

theorem Cluster.streams_next [DecidableEq C] [DecidableEq D] {s s' : Cluster n C D}
    {a : Event n C D} (h : ∀ p, ∃ i, (s.node p).Streams i) (hs : s.next a = some s') (p : Fin n) :
    ∃ i, (s'.node p).Streams i := by
  rcases Cluster.next_proceeds hs p with hc | ⟨_, hb, _⟩
  · exact (h p).imp fun _ => hc.streams
  · rw [hb]
    exact ⟨_, .boot⟩

namespace Execution

variable [DecidableEq C] [DecidableEq D] (e : Execution n C D)

-- `Start` was called with the command on a leader, where it returns `index`.
def Submitted (i index : Nat) (command : C) : Prop :=
  ∃ j < i, ∃ p, e.label j = some (.start p command) ∧ ((e.state j).node p).rf.state = .leader ∧
    ((e.state j).node p).rf.logLength = index

-- `Snapshot` was called with the data by a service that had received the command at `index` last.
def Compacted (i index : Nat) (data : D) : Prop :=
  ∃ j < i, ∃ p, e.label j = some (.snapshot p data) ∧ ((e.state j).node p).received = some index

theorem sourced (i : Nat) :
    (∀ p, ∃ k, ((e.state i).node p).Streams k) ∧
    (e.state i).Sourced (e.Submitted i) (e.Compacted i) := by
  induction i
  case zero =>
    rw [e.start]
    exact ⟨fun _ => ⟨_, .boot⟩, .init⟩
  case succ i hi =>
    obtain ⟨hs, h⟩ := hi
    have h : (e.state i).Sourced (e.Submitted (i + 1)) (e.Compacted (i + 1)) :=
      h.mono (fun _ _ ⟨j, hj, hx⟩ => ⟨j, by omega, hx⟩) (fun _ _ ⟨j, hj, hx⟩ => ⟨j, by omega, hx⟩)
    rcases e.step_cases i with hx | ⟨a, ha, hx⟩
    · rw [hx]
      exact ⟨hs, h⟩
    · refine ⟨Cluster.streams_next hs hx, h.next hs ?_ ?_ hx⟩
      · rintro p command rfl hl
        exact ⟨i, by omega, p, ha, hl, rfl⟩
      · rintro p data rfl k hk
        exact ⟨i, by omega, p, ha, hk⟩

theorem apply_integrity (i : Nat) (p : Fin n) :
    (∀ c index, .command c index ∈ ((e.state i).node p).applyCh →
      ∃ command, c = some command ∧ e.Submitted i index command) ∧
    (∀ d term index, .snapshot d term index ∈ ((e.state i).node p).applyCh →
      ∃ data, d = some data ∧ e.Compacted i index data) :=
  have ⟨_, h⟩ := e.sourced i
  ⟨fun _ _ hm => (h.node p).applied _ hm, fun _ _ _ hm => (h.node p).applied _ hm⟩

end Execution
