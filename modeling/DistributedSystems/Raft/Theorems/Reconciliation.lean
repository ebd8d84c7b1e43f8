import DistributedSystems.Raft.Theorems.CompactedLog
import DistributedSystems.Raft.Theorems.Quorum

-- How a leader finds out where its log and the log of a peer part.

open TermLog

variable {n : Nat} {C D : Type}

def Reply.success : Reply → Bool
  | .appendEntries reply => reply.success
  | _                    => false

namespace Raft

-- The leader sends what `StartSendEntries` has for the follower, the follower's handler answers,
-- and the leader processes the reply.
def exchange (leader follower : Raft n C D) :
    Except (Crash n C D) (Raft n C D × Raft n C D × Reply) := do
  let request ← leader.sendTo follower.me
  let (follower', reply) ← follower.serve request
  let leader ← (leader.returned follower.me request reply).getD (.ok leader)
  return (leader, follower', reply)

-- One of the next exchanges is a successful `AppendEntries`, and none before it panics.
def reconciles : Nat → Raft n C D → Raft n C D → Bool
  | 0,     _,      _        => false
  | k + 1, leader, follower =>
    match leader.exchange follower with
    | .ok (leader, follower, reply) => reply.success || reconciles k leader follower
    | .error _                      => false

-- Handlers on compacted logs

variable {rf : Raft n C D} {F : List (LogEntry C)}

theorem firstWithTerm_cases (log : List (LogEntry C)) (t i first : Nat) :
    (firstWithTerm log t i first = first ∧ ∀ y ≤ i, log[y]?.map (·.term) ≠ some t) ∨
    (firstWithTerm log t i first ≤ i ∧
      log[firstWithTerm log t i first]?.map (·.term) = some t ∧
      ∀ y < firstWithTerm log t i first, log[y]?.map (·.term) ≠ some t) := by
  induction i generalizing first <;> simp only [firstWithTerm]
  case zero =>
    split_ifs with h
    case pos => exact .inr ⟨le_rfl, h, fun _ hy => absurd hy (Nat.not_lt_zero _)⟩
    case neg => exact .inl ⟨rfl, fun y hy => Nat.le_zero.mp hy ▸ h⟩
  case succ i hi =>
    split_ifs with h
    case pos =>
      cases hi (i + 1)
      case inl hx =>
        rw [hx.left]
        exact .inr ⟨le_rfl, h, fun y hy => hx.right y (Nat.le_of_lt_succ hy)⟩
      case inr hx => exact .inr ⟨Nat.le_succ_of_le hx.left, hx.right⟩
    case neg =>
      cases hi first
      case inr hx => exact .inr ⟨Nat.le_succ_of_le hx.left, hx.right⟩
      case inl hx =>
        refine .inl ⟨hx.left, fun y hy => ?_⟩
        cases Nat.le_succ_iff.mp hy
        case inl hy => exact hx.right y hy
        case inr hy => exact hy ▸ h

-- The hint of a request that is refused because of the entry at `x`: the first entry of its term,
-- or the snapshot if that has the same term.
def Points (rf : Raft n C D) (F : List (LogEntry C)) (x hint : Nat) : Prop :=
  (F[x]?.map (·.term) = some rf.snapshotLastTerm ∧ hint = max rf.snapshotLastIndex 1) ∨
  (∃ t, t ≠ rf.snapshotLastTerm ∧ F[x]?.map (·.term) = some t ∧
    rf.snapshotLastIndex < hint ∧ hint ≤ x ∧ F[hint]?.map (·.term) = some t ∧
    ∀ y, rf.snapshotLastIndex ≤ y → y < hint → F[y]?.map (·.term) ≠ some t)

namespace Represents

theorem buildFailedReply (h : rf.Represents F) {x : Nat} (hs : rf.snapshotLastIndex ≤ x)
    (hx : x < F.length) (reply : AppendEntriesReply) :
    ∃ reply', rf.buildFailedReply (x - rf.snapshotLastIndex : Nat) reply = .ok reply' ∧
      reply'.term = reply.term ∧ reply'.success = false ∧
      rf.Points F x reply'.failedFirstIndex := by
  have hi : x - rf.snapshotLastIndex < rf.log.length := by rw [h.length]; omega
  have hterm := h.getElem?_term hs
  rw [List.getElem?_eq_getElem hi] at hterm
  have he : rf.logAt (x - rf.snapshotLastIndex : Nat) = .ok rf.log[x - rf.snapshotLastIndex] := by
    simp [Raft.logAt, List.getElem?_eq_getElem hi]
  simp only [Raft.buildFailedReply, he]
  refine ⟨_, rfl, rfl, rfl, ?_⟩
  simp only [Int.toNat_natCast]
  generalize hk : x - rf.snapshotLastIndex = k at *
  split_ifs with ht
  case pos => exact .inl ⟨hterm.symm.trans (congrArg some ht), rfl⟩
  case neg =>
    obtain ⟨_, hn⟩ | ⟨hle, hfirst, hbefore⟩ := firstWithTerm_cases rf.log rf.log[k].term k k
    case inl => exact absurd (by rw [List.getElem?_eq_getElem hi]; rfl) (hn k le_rfl)
    case inr =>
      generalize firstWithTerm rf.log rf.log[k].term k k = first at *
      have hpos : first ≠ 0 := by
        rintro rfl
        have hhead : rf.log[0]?.map (·.term) = some rf.snapshotLastTerm := by rw [h.log]; rfl
        exact ht <| Option.some.inj <| hfirst.symm.trans hhead
      rw [Nat.max_eq_left (by omega)]
      refine .inr ⟨_, ht, hterm.symm, by omega, by omega, ?_, fun y h₁ h₂ => ?_⟩
      · rw [←h.getElem?_term (by omega), Nat.add_sub_cancel]
        exact hfirst
      · rw [←h.getElem?_term h₁]
        exact hbefore _ (by omega)

theorem updateCommitIndex (h : rf.Represents F) (hm : ∀ p, rf.matchIndex p < F.length)
    (hs : rf.snapshotLastIndex ≤ median rf.matchIndex) :
    ∃ commitIndex, rf.updateCommitIndex = .ok { rf with commitIndex } := by
  have hlt := median_lt (Nat.zero_lt_of_lt rf.me.isLt) hm
  have ⟨e, he, _⟩ := h.logAt hs hlt
  simp only [Raft.updateCommitIndex, he]
  by_cases ht : e.term = rf.currentTerm
  case pos => exact ⟨median rf.matchIndex, congrArg Except.ok (if_pos ht)⟩
  case neg => exact ⟨rf.commitIndex, congrArg Except.ok (if_neg ht)⟩

-- What a follower with the log `F` does with a request of its term.

variable {args : AppendEntriesArgs n C} (h : rf.Represents F) (ht : rf.currentTerm = args.term)

theorem followLeader_eq (ht : rf.currentTerm = args.term) :
    rf.followLeader args.term = { rf with state := .follower } := by
  simp only [Raft.followLeader]
  rw [if_neg (Nat.not_lt.mpr ht.ge)]

include h ht

theorem accept {T : List (LogEntry C)} (hM : Matching F T) (hf : args.Fits T)
    (hs : rf.snapshotLastIndex ≤ args.prevLogIndex)
    (hp : F[args.prevLogIndex]?.map (·.term) = some args.prevLogTerm) :
    ∃ rf', rf.appendEntries args = .ok (rf', { term := rf.currentTerm, success := true }) := by
  have ⟨rf', reply, hx, ha⟩ := h.appendEntries hM hf ht.le
  cases ha
  case accept => exact ⟨_, hx⟩
  case behind hb _ _ _ => exact absurd hs (Nat.not_le.mpr hb)
  case refuse hn _ _ _ _ =>
    have ⟨d, hd, hdt⟩ := Option.map_eq_some_iff.mp hp
    have ⟨e, he, het⟩ := Option.map_eq_some_iff.mp hf.prev
    exact absurd (hM hd he (hdt.trans het.symm) ▸ List.take_prefix _ _) hn

theorem behind (hb : args.prevLogIndex < rf.snapshotLastIndex) :
    ∃ reply, rf.appendEntries args = .ok ({ rf with state := .follower }, reply) ∧
      reply.term = rf.currentTerm ∧ reply.success = false ∧
      reply.failedFirstIndex = rf.snapshotLastIndex := by
  have hl : ¬{ rf with state := .follower }.logLength ≤ args.prevLogIndex := by
    have := h.base_lt
    have := h.logLength
    simp only [Raft.logLength] at *
    omega
  simp only [Raft.appendEntries, followLeader_eq ht, if_neg (Nat.not_lt.mpr ht.le), if_neg hl,
    if_pos hb]
  exact ⟨_, rfl, rfl, rfl, rfl⟩

theorem refuse (hs : rf.snapshotLastIndex ≤ args.prevLogIndex)
    (hp : F[args.prevLogIndex]?.map (·.term) ≠ some args.prevLogTerm) :
    ∃ reply x, rf.appendEntries args = .ok ({ rf with state := .follower }, reply) ∧
      reply.term = rf.currentTerm ∧ reply.success = false ∧
      (x = args.prevLogIndex ∨ (x + 1 = F.length ∧ x < args.prevLogIndex)) ∧ x < F.length ∧
      rf.Points F x reply.failedFirstIndex := by
  obtain ⟨g, hgx⟩ : ∃ g, g = { rf with state := .follower } := ⟨_, rfl⟩
  have hg : g.Represents F := h.congr (by rw [hgx]) (by rw [hgx]) (by rw [hgx])
  have hb := hg.base_lt
  have hgs : rf.snapshotLastIndex = g.snapshotLastIndex := by rw [hgx]
  have hpoints : g.Points F = rf.Points F := by rw [hgx]; rfl
  rw [Raft.appendEntries, followLeader_eq ht, ←hgx, if_neg (Nat.not_lt.mpr ht.le)]
  simp only [hg.logLength]
  by_cases hl : F.length ≤ args.prevLogIndex
  case pos =>
    obtain ⟨reply, hr, hrt, hrs, hx⟩ :=
      hg.buildFailedReply (x := F.length - 1) (by omega) (by omega) { term := rf.currentTerm }
    refine ⟨reply, F.length - 1, ?_, hrt, hrs, .inr (by omega), by omega, hpoints ▸ hx⟩
    have hlen : (g.log.length : Int) - 1 = (F.length - 1 - g.snapshotLastIndex : Nat) := by
      rw [hg.length]
      omega
    rw [if_pos hl, hlen, hr]
    rfl
  case neg =>
    obtain ⟨prev, hpr, hprt, _⟩ := hg.logAt (hgs ▸ hs) (Nat.lt_of_not_le hl)
    have hne : prev.term ≠ args.prevLogTerm := by
      rw [hprt]
      simpa [List.getElem?_eq_getElem (Nat.lt_of_not_le hl)] using hp
    obtain ⟨reply, hr, hrt, hrs, hx⟩ :=
      hg.buildFailedReply (hgs ▸ hs) (Nat.lt_of_not_le hl) { term := rf.currentTerm }
    refine ⟨reply, _, ?_, hrt, hrs, .inl rfl, Nat.lt_of_not_le hl, hpoints ▸ hx⟩
    have hreal : g.absoluteIndexToLogIndex args.prevLogIndex
        = (args.prevLogIndex - g.snapshotLastIndex : Nat) := by
      simp only [absoluteIndexToLogIndex]
      omega
    rw [if_neg hl, if_neg (Nat.not_lt.mpr (hgs ▸ hs)), hpr]
    simp only [bind, Except.bind, if_pos hne]
    rw [hreal, hr]
    rfl

end Represents

-- A leader with the log `A` and a follower of its term with the log `B`.
structure Reconciling (leader follower : Raft n C D) (A B : List (LogEntry C)) : Prop where
  state       : leader.state = .leader
  term        : follower.currentTerm = leader.currentTerm
  leaderLog   : leader.Represents A
  followerLog : follower.Represents B
  matching    : Matching B A
  -- What the follower has compacted is committed, so the leader has it as well.
  committed   : B.take (follower.snapshotLastIndex + 1) <+: A
  nextIndex   : 1 ≤ leader.nextIndex follower.me ∧ leader.nextIndex follower.me ≤ leader.logLength
  -- Nothing is known to be replicated that the leader does not have, and the majority has at least
  -- what the leader has compacted.
  matchIndex  : ∀ p, leader.matchIndex p < leader.logLength
  median      : leader.snapshotLastIndex ≤ Raft.median leader.matchIndex

variable {leader follower leader' follower' : Raft n C D} {A B : List (LogEntry C)} {reply : Reply}
  {i k : Nat}

theorem reconciles_of_exchange (hx : leader.exchange follower = .ok (leader', follower', reply))
    (h : reply.success = true ∨ reconciles k leader' follower' = true) :
    reconciles (k + 1) leader follower = true := by
  simp only [reconciles, hx]
  exact Bool.or_eq_true_iff.mpr h

theorem exchange_append {args : AppendEntriesArgs n C} {reply : AppendEntriesReply}
    (hs : leader.sendTo follower.me = .ok (.appendEntries args))
    (hf : follower.appendEntries args = .ok (follower', reply))
    (hl : leader.sendEntries follower.me args reply = .ok leader') :
    leader.exchange follower = .ok (leader', follower', .appendEntries reply) := by
  simp only [exchange, serve, returned, hs, hf, hl, bind, Except.bind, pure, Except.pure, Prod.map,
    id, Option.getD]

-- What the leader knows of a peer changes.
def track (leader : Raft n C D) (q : Fin n) (next last : Nat) : Raft n C D :=
  { leader with
    nextIndex  := Function.update leader.nextIndex q next
    matchIndex := Function.update leader.matchIndex q last }

@[simp]
theorem track_nextIndex (leader : Raft n C D) (q : Fin n) (next last : Nat) :
    (leader.track q next last).nextIndex q = next :=
  Function.update_self ..

theorem track_matchIndex (leader : Raft n C D) (q : Fin n) (next last : Nat) :
    (leader.track q next last).matchIndex = Function.update leader.matchIndex q last :=
  rfl

theorem sendEntries_of_eq {q : Fin n} {args : AppendEntriesArgs n C} {reply : AppendEntriesReply}
    (hs : leader.state = .leader) (ht : args.term = leader.currentTerm)
    (hn : args.prevLogIndex + 1 = leader.nextIndex q) (hr : reply.term ≤ leader.currentTerm) :
    leader.sendEntries q args reply =
      if reply.success then
        (leader.track q (args.prevLogIndex + args.entries.length + 1)
          (args.prevLogIndex + args.entries.length)).updateCommitIndex
      else .ok (leader.track q reply.failedFirstIndex (leader.matchIndex q)) := by
  have hc : ¬(leader.state ≠ .leader ∨ leader.currentTerm ≠ args.term ∨
      args.prevLogIndex + 1 ≠ leader.nextIndex q) := by simp [hs, ht, hn]
  rw [sendEntries, if_neg (Nat.not_lt.mpr hr), if_neg hc]
  cases reply.success
  case true  => rfl
  case false =>
    have hm : leader.track q reply.failedFirstIndex (leader.matchIndex q)
        = { leader with
          nextIndex := Function.update leader.nextIndex q reply.failedFirstIndex } := by
      simp only [track, Function.update_eq_self]
    exact congrArg Except.ok hm.symm

theorem exchange_installSnapshot {args : InstallSnapshotArgs n D} {reply : InstallSnapshotReply}
    (hs : leader.sendTo follower.me = .ok (.installSnapshot args))
    (hf : follower.installSnapshot args = .ok (follower', reply))
    (hl : leader.sendInstallSnapshot follower.me args reply = .ok leader') :
    leader.exchange follower = .ok (leader', follower', .installSnapshot reply) := by
  simp only [exchange, serve, returned, hs, hf, hl, bind, Except.bind, pure, Except.pure, Prod.map,
    id, Option.getD]

theorem sendInstallSnapshot_of_eq {q : Fin n} {args : InstallSnapshotArgs n D}
    {reply : InstallSnapshotReply} (hs : leader.state = .leader)
    (ht : args.term = leader.currentTerm) (hi : args.lastIncludedIndex = leader.snapshotLastIndex)
    (hr : reply.term ≤ leader.currentTerm) :
    leader.sendInstallSnapshot q args reply =
      (leader.track q (max (leader.snapshotLastIndex + 1) (leader.nextIndex q))
        (max leader.snapshotLastIndex (leader.matchIndex q))).updateCommitIndex := by
  have hc : ¬(leader.state ≠ .leader ∨ leader.currentTerm ≠ args.term ∨
      args.lastIncludedIndex ≠ leader.snapshotLastIndex) := by simp [hs, ht, hi]
  rw [sendInstallSnapshot, if_neg (Nat.not_lt.mpr hr), if_neg hc, hi]
  rfl

-- The request of an exchange is refused, and the next one starts at the given index.
def Retreats (leader follower : Raft n C D) (A B : List (LogEntry C)) (hint : Nat) : Prop :=
  ∃ leader' follower' reply, leader.exchange follower = .ok (leader', follower', reply) ∧
    reply.success = false ∧ Reconciling leader' follower' A B ∧
    leader'.nextIndex follower'.me = hint ∧
    leader'.snapshotLastIndex = leader.snapshotLastIndex ∧
    follower'.snapshotLastIndex = follower.snapshotLastIndex ∧
    follower'.snapshotLastTerm = follower.snapshotLastTerm ∧ follower'.log = follower.log

namespace Reconciling

variable (h : Reconciling leader follower A B)

include h

theorem nextIndex_le : leader.nextIndex follower.me ≤ A.length :=
  h.leaderLog.logLength ▸ h.nextIndex.right

-- The logs agree up to the end of the follower's snapshot.
theorem agree_of_le {j : Nat} (hj : j ≤ follower.snapshotLastIndex) : B[j]? = A[j]? := by
  have hb := h.followerLog.base_lt
  have hp := List.prefix_iff_getElem?.mp h.committed j (by simp; omega)
  rw [hp, List.getElem_take, List.getElem?_eq_getElem]

theorem agree_of_agree {j x : Nat} (hjx : j ≤ x) (hx : x < A.length)
    (ha : B[x]?.map (·.term) = A[x]?.map (·.term)) : B[j]?.map (·.term) = A[j]?.map (·.term) := by
  rw [List.getElem?_eq_getElem hx] at ha
  have ⟨d, hd, hdt⟩ := Option.map_eq_some_iff.mp ha
  have hm := h.matching hd (List.getElem?_eq_getElem hx) hdt
  have hj : j < x + 1 := Nat.lt_succ_of_le hjx
  rw [←List.getElem?_take_of_lt (l := B) hj, hm, List.getElem?_take_of_lt hj]

theorem track (next last : Nat) (hn : 1 ≤ next ∧ next ≤ leader.logLength)
    (hl : leader.matchIndex follower.me ≤ last ∧ last < leader.logLength) :
    Reconciling (leader.track follower.me next last) follower A B := by
  have hm p : leader.matchIndex p ≤ (leader.track follower.me next last).matchIndex p ∧
      (leader.track follower.me next last).matchIndex p < leader.logLength := by
    by_cases hp : p = follower.me
    case pos =>
      rw [hp, track_matchIndex, Function.update_self]
      exact hl
    case neg =>
      rw [track_matchIndex, Function.update_of_ne hp]
      exact ⟨le_rfl, h.matchIndex p⟩
  exact { h with
    leaderLog  := h.leaderLog.congr rfl rfl rfl
    nextIndex  := by rw [track_nextIndex]; exact hn
    matchIndex := fun p => (hm p).right
    median     := h.median.trans <| median_mono (Nat.zero_lt_of_lt leader.me.isLt) fun p =>
      (hm p).left }

theorem follow : Reconciling leader { follower with state := .follower } A B :=
  { h with followerLog := h.followerLog.congr rfl rfl rfl }

theorem updateCommitIndex : ∃ leader', leader.updateCommitIndex = .ok leader' ∧
    leader'.nextIndex = leader.nextIndex ∧ leader'.snapshotLastIndex = leader.snapshotLastIndex ∧
    Reconciling leader' follower A B := by
  have ⟨commitIndex, hc⟩ :=
    h.leaderLog.updateCommitIndex (fun p => h.leaderLog.logLength ▸ h.matchIndex p) h.median
  exact ⟨_, hc, rfl, rfl, { h with leaderLog := h.leaderLog.congr rfl rfl rfl }⟩

section Append

variable (hi : leader.snapshotLastIndex < leader.nextIndex follower.me)

include hi

theorem sends : ∃ args, leader.sendTo follower.me = .ok (.appendEntries args) ∧
    args.term = leader.currentTerm ∧ args.prevLogIndex + 1 = leader.nextIndex follower.me ∧
    args.prevLogIndex + args.entries.length + 1 = A.length ∧ args.Fits A := by
  have hle := h.nextIndex_le
  have ⟨_, _, hs⟩ := h.leaderLog.sendTo hi hle
  have ⟨hf, he, ht, hn, _⟩ := h.leaderLog.sent hs
  refine ⟨_, hs, ht, hn, ?_, hf⟩
  rw [he, List.length_drop]
  omega

-- The logs agree at the index before the entries that are sent.
theorem accept (hs : follower.snapshotLastIndex < leader.nextIndex follower.me)
    (ha : B[leader.nextIndex follower.me - 1]?.map (·.term)
      = A[leader.nextIndex follower.me - 1]?.map (·.term)) :
    ∃ leader' follower' reply, leader.exchange follower = .ok (leader', follower', reply) ∧
      reply.success = true := by
  have ⟨args, hsend, hterm, hnext, hlast, hfits⟩ := h.sends hi
  rw [←hnext, Nat.add_sub_cancel] at ha
  have ⟨follower', hf⟩ := h.followerLog.accept (h.term.trans hterm.symm) h.matching hfits (by omega)
    (ha.trans hfits.prev)
  have hlen := h.leaderLog.logLength
  have hmatch := h.matchIndex follower.me
  have htrack := h.track (args.prevLogIndex + args.entries.length + 1)
    (args.prevLogIndex + args.entries.length) (by omega) (by omega)
  have ⟨leader', hu, _⟩ := htrack.updateCommitIndex
  refine ⟨leader', follower', _, exchange_append hsend hf ?_, rfl⟩
  rw [sendEntries_of_eq h.state hterm hnext h.term.le]
  exact hu

end Append

-- The leader goes back to where the follower's hint points.
theorem retreat {args : AppendEntriesArgs n C} {reply : AppendEntriesReply}
    (hsend : leader.sendTo follower.me = .ok (.appendEntries args))
    (hterm : args.term = leader.currentTerm)
    (hnext : args.prevLogIndex + 1 = leader.nextIndex follower.me)
    (hf : follower.appendEntries args = .ok ({ follower with state := .follower }, reply))
    (ht : reply.term = follower.currentTerm) (hs : reply.success = false)
    (hr : 1 ≤ reply.failedFirstIndex ∧ reply.failedFirstIndex ≤ leader.logLength) :
    Retreats leader follower A B reply.failedFirstIndex := by
  refine ⟨_, _, _, exchange_append hsend hf ?_, hs,
    (h.track _ _ hr ⟨le_rfl, h.matchIndex _⟩).follow, track_nextIndex .., rfl, rfl, rfl, rfl⟩
  rw [sendEntries_of_eq h.state hterm hnext (ht.trans h.term).le, hs]
  rfl

theorem base_lt : follower.snapshotLastIndex < A.length := by
  have hb := h.followerLog.base_lt
  have hl := h.committed.length_le
  rw [List.length_take] at hl
  omega

-- The request starts inside of the follower's snapshot.
theorem behind (hi : leader.snapshotLastIndex < leader.nextIndex follower.me)
    (hs : leader.nextIndex follower.me ≤ follower.snapshotLastIndex) :
    Retreats leader follower A B follower.snapshotLastIndex := by
  have ⟨args, hsend, hterm, hnext, _, _⟩ := h.sends hi
  have ⟨reply, hf, ht, hr, hx⟩ := h.followerLog.behind (h.term.trans hterm.symm) (by omega)
  have hlen := h.leaderLog.logLength
  have hb := h.base_lt
  exact hx ▸ h.retreat hsend hterm hnext hf ht hr (by omega)

theorem refuse (hi : leader.snapshotLastIndex < leader.nextIndex follower.me)
    (hs : follower.snapshotLastIndex < leader.nextIndex follower.me)
    (hne : B[leader.nextIndex follower.me - 1]?.map (·.term)
      ≠ A[leader.nextIndex follower.me - 1]?.map (·.term)) :
    ∃ x hint, (x + 1 = leader.nextIndex follower.me ∨
        (x + 1 = B.length ∧ x + 1 < leader.nextIndex follower.me)) ∧
      follower.Points B x hint ∧ Retreats leader follower A B hint := by
  have ⟨args, hsend, hterm, hnext, _, hfits⟩ := h.sends hi
  rw [←hnext, Nat.add_sub_cancel] at hne
  have ⟨reply, x, hf, ht, hr, hx, hxl, hp⟩ :=
    h.followerLog.refuse (h.term.trans hterm.symm) (by omega) (hfits.prev ▸ hne)
  have hlen := h.leaderLog.logLength
  have hle := h.nextIndex_le
  have hb := h.base_lt
  refine ⟨x, _, by omega, hp, h.retreat hsend hterm hnext hf ht hr ?_⟩
  obtain ⟨_, hp⟩ | ⟨_, _, _, h₁, h₂, _⟩ := hp <;> omega

-- The leader has compacted what the follower would need next.
theorem install (hi : leader.nextIndex follower.me ≤ leader.snapshotLastIndex) :
    ∃ leader' follower' reply B', leader.exchange follower = .ok (leader', follower', reply) ∧
      reply.success = false ∧ Reconciling leader' follower' A B' ∧
      leader'.nextIndex follower'.me = leader.snapshotLastIndex + 1 ∧
      leader'.snapshotLastIndex = leader.snapshotLastIndex ∧
      (follower.snapshotLastIndex ≤ leader.snapshotLastIndex →
        follower'.snapshotLastIndex = leader.snapshotLastIndex ∧
        B'[leader.snapshotLastIndex]?.map (·.term) = A[leader.snapshotLastIndex]?.map (·.term)) ∧
      (leader.snapshotLastIndex < follower.snapshotLastIndex → follower' = follower ∧ B' = B) := by
  have hlen := h.leaderLog.logLength
  have hb := h.leaderLog.base_lt
  have hmatch := h.matchIndex follower.me
  have hsend : leader.sendTo follower.me = .ok (.installSnapshot _) := if_neg (Nat.not_lt.mpr hi)
  have ⟨leader', hu, hn, hs, hr⟩ := (h.track
    (max (leader.snapshotLastIndex + 1) (leader.nextIndex follower.me))
    (max leader.snapshotLastIndex (leader.matchIndex follower.me)) (by omega)
      (by omega)).updateCommitIndex
  replace hn : leader'.nextIndex follower.me = leader.snapshotLastIndex + 1 := by
    rw [hn, track_nextIndex]
    omega
  have ⟨follower', hf, hcases⟩ := follower.installSnapshot_ok {
    term              := leader.currentTerm
    leaderId          := leader.me
    lastIncludedIndex := leader.snapshotLastIndex
    lastIncludedTerm  := leader.snapshotLastTerm
    data              := leader.snapshot }
  have hx := exchange_installSnapshot hsend hf <|
    (sendInstallSnapshot_of_eq h.state rfl rfl h.term.le).trans hu
  cases hcases
  case inl hold =>
    have ⟨he, hle⟩ := hold
    replace hle := hle.resolve_left (Nat.not_lt.mpr h.term.le)
    subst he
    exact ⟨_, _, _, B, hx, rfl, hr, hn, hs,
      fun hge => ⟨Nat.le_antisymm hge hle, by rw [h.agree_of_le hle]⟩, fun _ => ⟨rfl, rfl⟩⟩
  case inr hnew =>
    have ⟨_, hlt, he⟩ := hnew
    have hrep : follower'.Represents (merge B (A.take (leader.snapshotLastIndex + 1))) :=
      h.followerLog.compactedLog h.matching hlt h.leaderLog.head (by rw [he]) (by rw [he])
        (by rw [he])
    have hp : A.take (leader.snapshotLastIndex + 1)
        = (merge B (A.take (leader.snapshotLastIndex + 1))).take
          (leader.snapshotLastIndex + 1) := by
      have := List.prefix_iff_eq_take.mp <| prefix_merge B (A.take (leader.snapshotLastIndex + 1))
      rwa [List.length_take, Nat.min_eq_left hb] at this
    have hme : follower'.me = follower.me := by rw [he]
    have hbase : follower'.snapshotLastIndex = leader.snapshotLastIndex := by rw [he]
    refine ⟨_, _, _, merge B (A.take (leader.snapshotLastIndex + 1)), hx, rfl, ?_, hme ▸ hn, hs,
      fun _ => ⟨hbase, ?_⟩, fun hgt => absurd hlt (Nat.not_lt.mpr hgt.le)⟩
    · exact { hr with
        term        := .trans (by rw [he]) hr.term
        followerLog := hrep
        matching    := h.matching.merge_take _
        committed   := by rw [hbase, ←hp]; exact List.take_prefix _ _
        nextIndex   := hme ▸ hr.nextIndex }
    · rw [←List.getElem?_take_of_lt (Nat.lt_succ_self _), ←hp,
        List.getElem?_take_of_lt (Nat.lt_succ_self _)]

end Reconciling

-- The terms in a log

def terms (log : List (LogEntry C)) : Finset Nat :=
  (log.map (·.term)).toFinset

theorem mem_terms {log : List (LogEntry C)} {t : Nat} :
    t ∈ terms log ↔ ∃ j : Nat, log[j]?.map (·.term) = some t := by
  simp only [terms, List.mem_toFinset, List.mem_iff_getElem?, List.getElem?_map]

theorem terms_take_subset {log : List (LogEntry C)} {i j : Nat} (h : i ≤ j) :
    terms (log.take i) ⊆ terms (log.take j) := by
  intro t ht
  have ⟨e, he, het⟩ := List.mem_map.mp (List.mem_toFinset.mp ht)
  exact List.mem_toFinset.mpr <| List.mem_map.mpr ⟨e, (List.take_prefix_take_left h).subset he, het⟩

theorem term_le {log : List (LogEntry C)} (hs : log.Pairwise (·.term ≤ ·.term)) {i j t u : Nat}
    (hij : i ≤ j) (hi : log[i]?.map (·.term) = some t) (hj : log[j]?.map (·.term) = some u) :
    t ≤ u := by
  have ⟨d, hd, hdt⟩ := Option.map_eq_some_iff.mp hi
  have ⟨e, he, het⟩ := Option.map_eq_some_iff.mp hj
  have ⟨hil, hid⟩ := List.getElem?_eq_some_iff.mp hd
  have ⟨hjl, hje⟩ := List.getElem?_eq_some_iff.mp he
  subst hdt het hid hje
  cases Nat.eq_or_lt_of_le hij
  case inl h => subst h; exact le_rfl
  case inr h => exact List.pairwise_iff_getElem.mp hs i j hil hjl h

-- A refused request costs the follower's log one of its terms.
theorem Points.card_lt {x hint : Nat} (h : rf.Represents F) (hp : rf.Points F x hint)
    (ht : F[x]?.map (·.term) ≠ some rf.snapshotLastTerm) (hx : x < i) :
    (terms (rf.log.take (hint - rf.snapshotLastIndex))).card
      < (terms (rf.log.take (i - rf.snapshotLastIndex))).card := by
  have ⟨t, _, _, h₁, h₂, hat, hbefore⟩ := hp.resolve_left fun hp => ht hp.left
  refine Finset.card_lt_card <| (Finset.ssubset_iff_of_subset (terms_take_subset (by omega))).mpr
    ⟨t, ?_, ?_⟩
  · refine mem_terms.mpr ⟨hint - rf.snapshotLastIndex, ?_⟩
    rw [List.getElem?_take_of_lt (by omega), h.getElem?_term h₁.le]
    exact hat
  · intro hm
    have ⟨j, hj⟩ := mem_terms.mp hm
    have hlt : j < hint - rf.snapshotLastIndex := by
      by_contra hge
      rw [List.getElem?_take, if_neg hge] at hj
      cases hj
    rw [List.getElem?_take_of_lt hlt] at hj
    have hy := h.getElem?_term (i := j + rf.snapshotLastIndex) (Nat.le_add_left _ _)
    rw [Nat.add_sub_cancel] at hy
    exact hbefore _ (Nat.le_add_left _ _) (by omega) (hy.symm.trans hj)

-- The follower has not compacted more than the leader, or its hints lead to an entry that both logs
-- have in common before they lead to its snapshot.
def Anchored (leader follower : Raft n C D) (A B : List (LogEntry C)) : Prop :=
  follower.snapshotLastIndex ≤ leader.snapshotLastIndex ∨
  ∃ j, follower.snapshotLastIndex ≤ j ∧ j < leader.nextIndex follower.me ∧
    B[j]?.map (·.term) = A[j]?.map (·.term) ∧
    (j + 1 = leader.nextIndex follower.me ∨
      ∃ e, B[j + 1]? = some e ∧ e.term ≠ follower.snapshotLastTerm)

namespace Reconciling

theorem reconciles_of_install (h : Reconciling leader follower A B)
    (hs : follower.snapshotLastIndex ≤ leader.snapshotLastIndex)
    (hi : leader.nextIndex follower.me ≤ leader.snapshotLastIndex) :
    reconciles (k + 2) leader follower = true := by
  have ⟨leader', follower', _, B', hx, _, h', hn, hb, hnew, _⟩ := h.install hi
  have ⟨hbase, ha⟩ := hnew hs
  have ⟨_, _, _, hx', hs'⟩ := h'.accept (by omega) (by omega) (by rwa [hn, Nat.add_sub_cancel])
  exact reconciles_of_exchange hx <| .inr <| reconciles_of_exchange hx' <| .inl hs'

-- The hint points to the snapshot, or to the first entry if there is none.
theorem reconciles_of_restart (h : Reconciling leader follower A B)
    (hs : follower.snapshotLastIndex ≤ leader.snapshotLastIndex)
    (hn : leader.nextIndex follower.me = max follower.snapshotLastIndex 1) :
    reconciles (k + 2) leader follower = true := by
  by_cases hi : leader.nextIndex follower.me ≤ leader.snapshotLastIndex
  case pos => exact h.reconciles_of_install hs hi
  case neg =>
    have ⟨_, _, _, hx, hr⟩ := h.accept (by omega) (by omega) (by rw [h.agree_of_le (by omega)])
    exact reconciles_of_exchange hx <| .inl hr

theorem terms_pos (h : Reconciling leader follower A B)
    (hs : follower.snapshotLastIndex < leader.nextIndex follower.me) :
    0 < (terms (follower.log.take
      (leader.nextIndex follower.me - follower.snapshotLastIndex))).card := by
  refine Finset.card_pos.mpr ⟨follower.snapshotLastTerm, mem_terms.mpr ⟨0, ?_⟩⟩
  rw [List.getElem?_take_of_lt (by omega), h.followerLog.log]
  rfl

theorem lt_of_anchored (ha : Anchored leader follower A B)
    (hi : leader.snapshotLastIndex < leader.nextIndex follower.me) :
    follower.snapshotLastIndex < leader.nextIndex follower.me := by
  obtain hs | ⟨j, h₁, h₂, _⟩ := ha <;> omega

section Refused

variable {x hint : Nat} (h : Reconciling leader follower A B) (ha : Anchored leader follower A B)
variable (hne : B[leader.nextIndex follower.me - 1]?.map (·.term)
  ≠ A[leader.nextIndex follower.me - 1]?.map (·.term))

include h ha hne

-- The entry that is refused has the term of the snapshot only if nothing else is to be hoped for.
theorem le_of_anchored (hsorted : B.Pairwise (·.term ≤ ·.term))
    (hx : x + 1 = leader.nextIndex follower.me ∨
      (x + 1 = B.length ∧ x + 1 < leader.nextIndex follower.me))
    (ht : B[x]?.map (·.term) = some follower.snapshotLastTerm) :
    follower.snapshotLastIndex ≤ leader.snapshotLastIndex := by
  obtain hs | ⟨j, hsj, hj, hag, hnext⟩ := ha
  case inl => exact hs
  case inr =>
    have hlast : j + 1 ≠ leader.nextIndex follower.me := by
      intro hlast
      rw [←hlast, Nat.add_sub_cancel] at hne
      exact hne hag
    have ⟨e, he, hte⟩ := hnext.resolve_left hlast
    have hjx : j + 1 ≤ x := by
      have hjl := (List.getElem?_eq_some_iff.mp he).choose
      clear hnext
      omega
    -- The terms from the snapshot to the refused entry do not decrease, so they are all the same.
    have h₁ := term_le hsorted (Nat.le_succ_of_le hsj) h.followerLog.head (congrArg _ he)
    have h₂ := term_le hsorted hjx (congrArg _ he) ht
    exact absurd (Nat.le_antisymm h₂ h₁) hte

theorem anchored_of_hint (hp : follower.Points B x hint)
    (ht : B[x]?.map (·.term) ≠ some follower.snapshotLastTerm)
    (hn : leader'.nextIndex follower'.me = hint)
    (hb : leader'.snapshotLastIndex = leader.snapshotLastIndex)
    (hfb : follower'.snapshotLastIndex = follower.snapshotLastIndex)
    (hft : follower'.snapshotLastTerm = follower.snapshotLastTerm) :
    Anchored leader' follower' A B := by
  rw [Anchored, hn, hb, hfb, hft]
  have ⟨t, _, _, h₁, h₂, _⟩ := hp.resolve_left fun hp => ht hp.left
  obtain hs | ⟨j, hsj, hj, hag, hlast⟩ := ha
  case inl => exact .inl hs
  case inr =>
    have hle := h.nextIndex_le
    by_cases hjh : j < hint
    case neg =>
      exact .inr ⟨hint - 1, by omega, by omega, h.agree_of_agree (by omega) (by omega) hag,
        .inl (by omega)⟩
    case pos =>
      refine .inr ⟨j, hsj, hjh, hag, .inr <| hlast.resolve_left fun hlast => hne ?_⟩
      rw [←hlast, Nat.add_sub_cancel]
      exact hag

end Refused

-- By induction on the number of terms that the follower has before the next index: a refused
-- request is followed by one that starts before all entries of the term it was refused for.
theorem reconciles_of_card_le (h : Reconciling leader follower A B)
    (hsorted : B.Pairwise (·.term ≤ ·.term)) (ha : Anchored leader follower A B)
    (hk : (terms
      (follower.log.take (leader.nextIndex follower.me - follower.snapshotLastIndex))).card ≤ k) :
    reconciles (k + 2) leader follower = true := by
  induction k using Nat.strong_induction_on generalizing leader follower
  case h k hind =>
  by_cases hi : leader.nextIndex follower.me ≤ leader.snapshotLastIndex
  case pos =>
    have hs : follower.snapshotLastIndex ≤ leader.snapshotLastIndex := by
      obtain hs | ⟨j, h₁, h₂, _⟩ := ha <;> omega
    exact h.reconciles_of_install hs hi
  case neg =>
    replace hi := Nat.lt_of_not_le hi
    have hs := lt_of_anchored ha hi
    by_cases hag : B[leader.nextIndex follower.me - 1]?.map (·.term)
      = A[leader.nextIndex follower.me - 1]?.map (·.term)
    case pos =>
      have ⟨_, _, _, hx, hr⟩ := h.accept hi hs hag
      exact reconciles_of_exchange hx <| .inl hr
    case neg =>
      have ⟨x, hint, hx, hp, leader', follower', _, hex, _, h', hn, hb, hfb, hft, hfl⟩ :=
        h.refuse hi hs hag
      have hpos := h.terms_pos hs
      obtain ⟨k, rfl⟩ : ∃ k', k = k' + 1 := ⟨k - 1, by omega⟩
      refine reconciles_of_exchange hex (.inr ?_)
      by_cases ht : B[x]?.map (·.term) = some follower.snapshotLastTerm
      case pos =>
        have hle := h.le_of_anchored ha hag hsorted hx ht
        obtain ⟨_, rfl⟩ | ⟨t, hne, htx, _⟩ := hp
        case inl => exact h'.reconciles_of_restart (by omega) (by rw [hn, hfb])
        case inr => exact absurd (Option.some.inj (htx.symm.trans ht)) hne
      case neg =>
        have hlt := hp.card_lt h.followerLog ht (i := leader.nextIndex follower.me) (by omega)
        exact hind k (Nat.lt_succ_self k) h' (h.anchored_of_hint ha hag hp ht hn hb hfb hft)
          (by rw [hfl, hfb, hn]; omega)

-- Each of the hints leads to another one, or into the snapshot for good.
theorem not_reconciles (h : Reconciling leader follower A B) (ha : ¬Anchored leader follower A B)
    (k : Nat) :
    reconciles k leader follower = false := by
  induction k generalizing leader follower
  case zero => rfl
  case succ k hind =>
    have ⟨hlt, hnone⟩ := not_or.mp ha
    replace hlt := Nat.lt_of_not_le hlt
    -- Where the next request starts, if it does not succeed.
    have retreat {hint : Nat} (hr : Retreats leader follower A B hint)
        (hh : ∀ j, follower.snapshotLastIndex ≤ j → j < hint →
          B[j]?.map (·.term) = A[j]?.map (·.term) →
          (j + 1 = hint ∨ ∃ e, B[j + 1]? = some e ∧ e.term ≠ follower.snapshotLastTerm) → False) :
        reconciles (k + 1) leader follower = false := by
      have ⟨leader', follower', _, hx, hs, h', hn, hb, hfb, hft, _⟩ := hr
      simp only [reconciles, hx, hs, Bool.false_or]
      refine hind h' fun ha' => ?_
      rw [Anchored, hn, hb, hfb, hft] at ha'
      obtain hle | ⟨j, h₁, h₂, h₃, h₄⟩ := ha'
      · omega
      · exact hh j h₁ h₂ h₃ h₄
    by_cases hi : leader.nextIndex follower.me ≤ leader.snapshotLastIndex
    case pos =>
      have ⟨leader', follower', _, B', hx, hs, h', hn, hb, _, hold⟩ := h.install hi
      obtain ⟨rfl, rfl⟩ := hold hlt
      simp only [reconciles, hx, hs, Bool.false_or]
      refine hind h' fun ha' => ?_
      obtain hle | ⟨j, h₁, h₂, _⟩ := ha' <;> omega
    case neg =>
      replace hi := Nat.lt_of_not_le hi
      by_cases hs : follower.snapshotLastIndex < leader.nextIndex follower.me
      case neg => exact retreat (h.behind hi (Nat.le_of_not_lt hs)) fun j h₁ h₂ _ _ => by omega
      case pos =>
        have hag : B[leader.nextIndex follower.me - 1]?.map (·.term)
            ≠ A[leader.nextIndex follower.me - 1]?.map (·.term) :=
          fun hag => hnone ⟨_, by omega, by omega, hag, .inl (by omega)⟩
        have ⟨x, hint, hx, hp, hr⟩ := h.refuse hi hs hag
        refine retreat hr fun j h₁ h₂ h₃ h₄ => ?_
        obtain ⟨_, rfl⟩ | ⟨t, ht, _, _, hle, hat, _⟩ := hp
        case inl => omega
        case inr =>
          have hjn : j < leader.nextIndex follower.me := by
            clear h₄
            omega
          refine hnone ⟨j, h₁, hjn, h₃, .inr ?_⟩
          cases h₄
          case inr h₄ => exact h₄
          case inl h₄ =>
            have ⟨e, he, het⟩ := Option.map_eq_some_iff.mp hat
            exact ⟨e, h₄ ▸ he, het ▸ ht⟩

end Reconciling

theorem reconciles_of_anchored (h : Reconciling leader follower A B)
    (hsorted : B.Pairwise (·.term ≤ ·.term)) (ha : Anchored leader follower A B) :
    reconciles ((follower.log.map (·.term)).toFinset.card + 3) leader follower = true := by
  refine h.reconciles_of_card_le hsorted ha (Nat.le_succ_of_le <| Finset.card_le_card ?_)
  have hsub : terms (follower.log.take (leader.nextIndex follower.me - follower.snapshotLastIndex))
      ⊆ terms (follower.log.take
        (max (leader.nextIndex follower.me - follower.snapshotLastIndex) follower.log.length)) :=
    terms_take_subset (Nat.le_max_left _ _)
  rwa [List.take_of_length_le (Nat.le_max_right _ _)] at hsub

-- The leader's log as it was elected, and a follower that has an entry of another term at its end.
def elect : Raft 3 Nat Unit :=
  { make 0 (⟨none, none⟩ : Persister 3 Nat Unit) with
    state       := .leader
    currentTerm := 3
    log         := [⟨0, none⟩, ⟨1, some 5⟩, ⟨3, some 6⟩]
    commitIndex := 1
    nextIndex   := fun _ => 3
    matchIndex  := ![2, 1, 1] }

def deviant : Raft 3 Nat Unit :=
  { make 1 (⟨none, none⟩ : Persister 3 Nat Unit) with
    currentTerm := 3
    log         := [⟨0, none⟩, ⟨1, some 5⟩, ⟨2, some 7⟩] }

theorem reconciles_of_anchored_deviant :
    Reconciling elect deviant elect.log deviant.log ∧ Anchored elect deviant elect.log deviant.log ∧
    reconciles 6 elect deviant = true := by
  have hm : Matching deviant.log elect.log := by
    rintro (_ | _ | _ | i) d e hd he ht
    case zero | succ.zero => rfl
    case succ.succ.zero   => cases hd; cases he; cases ht
    case succ.succ.succ   => cases hd
  have h : Reconciling elect deviant elect.log deviant.log := {
    state       := rfl
    term        := rfl
    leaderLog   := ⟨rfl, rfl⟩
    followerLog := ⟨rfl, rfl⟩
    matching    := hm
    committed   := by decide
    nextIndex   := by decide
    matchIndex  := by decide
    median      := by decide }
  exact ⟨h, .inl le_rfl, reconciles_of_anchored h (by decide) (.inl le_rfl)⟩

-- The follower has compacted all of its log, up to an entry that the leader has not compacted.
def compact : Raft 3 Nat Unit :=
  { make 1 (⟨none, none⟩ : Persister 3 Nat Unit) with
    currentTerm       := 1
    log               := [⟨1, none⟩]
    commitIndex       := 1
    lastApplied       := 1
    snapshotLastIndex := 1
    snapshotLastTerm  := 1
    snapshot          := some () }

def retentive : Raft 3 Nat Unit :=
  { make 0 (⟨none, none⟩ : Persister 3 Nat Unit) with
    state       := .leader
    currentTerm := 1
    log         := [⟨0, none⟩, ⟨1, some 5⟩, ⟨1, some 6⟩]
    commitIndex := 1
    nextIndex   := fun _ => 3
    matchIndex  := ![2, 1, 1] }

theorem reconciles_compact :
    ∃ A B : List (LogEntry Nat), Reconciling retentive compact A B ∧
      A.Pairwise (·.term ≤ ·.term) ∧ B.Pairwise (·.term ≤ ·.term) ∧
      compact.commitIndex < A.length ∧ ∀ k, reconciles k retentive compact = false := by
  have h : Reconciling retentive compact retentive.log (retentive.log.take 2) := {
    state       := rfl
    term        := rfl
    leaderLog   := ⟨rfl, rfl⟩
    followerLog := ⟨rfl, rfl⟩
    matching    := .initial (List.take_prefix _ _)
    committed   := by decide
    nextIndex   := by decide
    matchIndex  := by decide
    median      := by decide }
  refine ⟨_, _, h, by decide, by decide, by decide, h.not_reconciles ?_⟩
  rintro (hs | ⟨j, h₁, h₂, h₃, h₄⟩)
  case inl => exact absurd hs (by decide)
  case inr =>
    -- The only index that the logs have in common is the last one of the follower.
    have h₁ : 1 ≤ j := h₁
    have h₂ : j < 3 := h₂
    interval_cases j
    case «1» =>
      obtain h₄ | ⟨e, he, _⟩ := h₄
      · exact absurd h₄ (by decide)
      · cases he
    case «2» => exact absurd h₃ (by decide)

end Raft
