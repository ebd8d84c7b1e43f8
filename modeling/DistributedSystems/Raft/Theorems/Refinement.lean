import DistributedSystems.Raft.Theorems.ApplyStream
import DistributedSystems.Raft.Theorems.CompactedLog

-- The cluster refines the world of uncompacted logs: every step of a server is answered by moves of
-- the world, as long as no server installs the snapshot of a leader whose term it has not adopted.

open TermLog

variable {n : Nat} {C D : Type}

abbrev Logs (n : Nat) (C : Type) :=
  World (Fin n) (LogEntry C)

-- What a leader with the log `T` knows about its peers.
structure Raft.Leads (rf : Raft n C D) (w : Logs n C) (p : Fin n) (T : List (LogEntry C)) :
    Prop where
  log        : w.leaderLog rf.currentTerm = some T
  nextIndex  : ∀ q, 1 ≤ rf.nextIndex q ∧ rf.nextIndex q ≤ T.length
  matchIndex : ∀ q, rf.matchIndex q < T.length
  median     : rf.commitIndex ≤ Raft.median rf.matchIndex
  -- A peer that has an entry of the current term is never asked for an older one again.
  ahead      : ∀ q ≠ p, ∀ e, T[rf.matchIndex q]? = some e → e.term = rf.currentTerm →
    rf.matchIndex q < rf.nextIndex q
  held       : ∀ q ≠ p, ∀ e, T[rf.nextIndex q - 1]? = some e → e.term = rf.currentTerm →
    w.Acked q rf.currentTerm (rf.nextIndex q - 1)
  acked      : ∀ q, ∀ j ≤ rf.matchIndex q, j ≤ rf.commitIndex ∨ w.acked q rf.currentTerm j

structure Node.Refines (nd : Node n C D) (w : Logs n C) (p : Fin n) : Prop where
  term     : w.term p = nd.rf.currentTerm
  log      : nd.rf.Represents (w.log p)
  base     : nd.rf.snapshotLastIndex ≤ nd.rf.commitIndex
  commit   : nd.rf.commitIndex < (w.log p).length
  decided  : w.Decided (w.term p) ((w.log p).take (nd.rf.commitIndex + 1))
  applied  : nd.rf.lastApplied ≤ nd.rf.commitIndex
  commands : ∀ c i, .command c i ∈ nd.applyCh ∨ nd.applier = .offering (.command c i) →
    i ≤ nd.rf.commitIndex ∧ (w.log p)[i]?.map (·.command) = some c
  leader   : nd.rf.state = .leader → nd.rf.Leads w p (w.log p)

-- Messages

structure AppendEntriesArgs.Sound (args : AppendEntriesArgs n C) (w : Logs n C) (q : Fin n)
    (T : List (LogEntry C)) : Prop extends args.Fits T where
  log     : w.leaderLog args.term = some T
  -- The leader sends all of its log, so everything behind is from the current term.
  all     : ∀ i e, T[i]? = some e → args.prevLogIndex + args.entries.length < i → e.term = args.term
  commit  : args.leaderCommit ≤ args.prevLogIndex + args.entries.length
  decided : w.Decided args.term (T.take (args.leaderCommit + 1))
  held    : args.prevLogTerm = args.term → w.Acked q args.term args.prevLogIndex

structure InstallSnapshotArgs.Sound (args : InstallSnapshotArgs n D) (w : Logs n C)
    (T : List (LogEntry C)) : Prop where
  log     : w.leaderLog args.term = some T
  last    : T[args.lastIncludedIndex]?.map (·.term) = some args.lastIncludedTerm
  decided : w.Decided args.term (T.take (args.lastIncludedIndex + 1))

structure AppendEntriesReply.Hints (reply : AppendEntriesReply) (args : AppendEntriesArgs n C)
    (w : Logs n C) (q : Fin n) (T : List (LogEntry C)) : Prop where
  log   : w.leaderLog args.term = some T
  range : 1 ≤ reply.failedFirstIndex ∧ reply.failedFirstIndex ≤ T.length
  ahead : args.prevLogTerm = args.term → args.prevLogIndex < reply.failedFirstIndex
  held  : ∀ e, T[reply.failedFirstIndex - 1]? = some e → e.term = args.term →
    w.Acked q args.term (reply.failedFirstIndex - 1)

def Logs.Backs (w : Logs n C) (v : Fin n) (args : RequestVoteArgs n) : Prop :=
  w.leaderLog args.term ≠ none ∨ w.voted v args.term (args.lastLogTerm, args.lastLogIndex)

def Request.Sound (w : Logs n C) (c q : Fin n) : Request n C D → Prop
  | .requestVote args     => args.term ≠ 0 ∧ Logs.Backs w c args
  | .appendEntries args   => ∃ T, args.Sound w q T
  | .installSnapshot args => ∃ T, args.Sound w T

-- A reply from a later term only makes the caller step down.
def Reply.Sound (w : Logs n C) (q : Fin n) : Request n C D → Reply → Prop
  | .requestVote args,     .requestVote r     => r.voteGranted = true → Logs.Backs w q args
  | .appendEntries args,   .appendEntries r   => r.term ≤ args.term →
    (r.success = true → w.Acked q args.term (args.prevLogIndex + args.entries.length)) ∧
    (r.success = false → ∃ T, r.Hints args w q T)
  | .installSnapshot args, .installSnapshot r => r.term ≤ args.term →
    args.lastIncludedTerm = args.term → w.Acked q args.term args.lastIncludedIndex
  | _,                     _                  => True

def Message.Sound (w : Logs n C) : Message n C D → Prop
  | .request call => call.request.Sound w call.caller call.callee
  | .reply call r => r.Sound w call.callee call.request

-- The term of a request that only a leader sends.
def Request.leaderTerm : Request n C D → Option Nat
  | .requestVote _        => none
  | .appendEntries args   => args.term
  | .installSnapshot args => args.term

-- The index up to which a request declares the log to be committed.
def Request.committed : Request n C D → Option Nat
  | .requestVote _        => none
  | .appendEntries args   => args.leaderCommit
  | .installSnapshot args => args.lastIncludedIndex

def Cluster.Announced (s : Cluster n C D) (c : Nat) : Prop :=
  ∃ call i, .request call ∈ s.network ∧ call.request.committed = some i ∧ c ≤ i

theorem Raft.sendTo_cases {rf : Raft n C D} {q request} (h : rf.sendTo q = .ok request) :
    request.leaderTerm = some rf.currentTerm ∧
    ((∃ args, request = .appendEntries args ∧ request.committed = some rf.commitIndex) ∨
      (rf.nextIndex q ≤ rf.snapshotLastIndex ∧ request.committed = some rf.snapshotLastIndex)) := by
  simp only [sendTo] at h
  split at h
  case isTrue =>
    obtain ⟨_, _, h⟩ := bind_ok h
    obtain ⟨_, _, h⟩ := bind_ok h
    cases h
    exact ⟨rfl, .inl ⟨_, rfl, rfl⟩⟩
  case isFalse hc =>
    cases h
    exact ⟨rfl, .inr ⟨Nat.le_of_not_lt hc, rfl⟩⟩

structure Cluster.Refines (s : Cluster n C D) (w : Logs n C) : Prop where
  -- No two servers win an election.
  odd       : Odd n
  valid     : w.Valid
  elections : s.Elections
  streams   : ∀ p, ∃ i, (s.node p).Streams i
  node      : ∀ p, (s.node p).Refines w p
  elected   : ∀ t T, w.leaderLog t = some T → t ≠ 0 → ∃ q, s.Won t q ∧ (w.term q = t → w.log q = T)
  -- Within one incarnation nobody is elected twice in the same term.
  running   : ∀ p, s.Running p → s.Won (w.term p) p → w.leaderLog (w.term p) ≠ none →
    (s.node p).rf.state = .leader
  -- As long as its term has no leader, a candidate has the log that it asked for votes with.
  candidate : ∀ c q k args, .request ⟨c, q, k, .requestVote args⟩ ∈ s.network →
    w.term c = args.term → w.leaderLog args.term = none →
    last (w.log c) = (args.lastLogTerm, args.lastLogIndex)
  leads     : ∀ call t, .request call ∈ s.network → call.request.leaderTerm = some t →
    s.Won t call.caller ∧ call.callee ≠ call.caller
  sound     : ∀ m ∈ s.network, m.Sound w

-- Growing worlds

variable {w w' : Logs n C}

theorem Logs.Backs.mono {v : Fin n} {args : RequestVoteArgs n} (h : Logs.Backs w v args)
    (g : w.Grows w') : Logs.Backs w' v args := by
  cases h
  case inr h => exact .inr <| g.voted _ _ _ h
  case inl h => exact .inl <| h ∘ g.no_leader

theorem AppendEntriesArgs.Sound.mono {args : AppendEntriesArgs n C} {q : Fin n} {T}
    (h : args.Sound w q T) (g : w.Grows w') : ∃ T', args.Sound w' q T' := by
  have ⟨k, hk, hkt⟩ := g.leader _ _ h.log
  have hl := h.last_lt
  refine ⟨T ++ k, {
    prev := by rw [List.getElem?_append_left h.prev_lt]; exact h.prev
    entries := by
      rw [List.drop_append_of_le_length h.prev_lt]
      exact h.entries.trans (List.prefix_append _ _)
    log := hk
    all := fun i e he hi => ?all
    commit := h.commit
    decided := ?decided
    held := fun ht => g.ackedUpTo (h.held ht) }⟩
  case all =>
    by_cases hx : i < T.length
    case pos => exact h.all i e (List.getElem?_append_left hx ▸ he) hi
    case neg =>
      rw [List.getElem?_append_right (Nat.le_of_not_lt hx)] at he
      exact hkt e (List.mem_of_getElem? he)
  case decided =>
    have := h.commit
    rw [List.take_append_of_le_length (by omega)]
    exact g.decided h.decided le_rfl

theorem InstallSnapshotArgs.Sound.lt {args : InstallSnapshotArgs n D} {T} (h : args.Sound w T) :
    args.lastIncludedIndex < T.length :=
  have ⟨_, he, _⟩ := Option.map_eq_some_iff.mp h.last
  (List.getElem?_eq_some_iff.mp he).choose

theorem InstallSnapshotArgs.Sound.mono {args : InstallSnapshotArgs n D} {T} (h : args.Sound w T)
    (g : w.Grows w') : ∃ T', args.Sound w' T' := by
  have ⟨k, hk, _⟩ := g.leader _ _ h.log
  refine ⟨T ++ k, { log := hk, last := ?last, decided := ?decided }⟩
  case last => rw [List.getElem?_append_left h.lt]; exact h.last
  case decided =>
    rw [List.take_append_of_le_length h.lt]
    exact g.decided h.decided le_rfl

theorem AppendEntriesReply.Hints.mono {reply : AppendEntriesReply} {args : AppendEntriesArgs n C}
    {q : Fin n} {T} (h : reply.Hints args w q T) (g : w.Grows w') :
    ∃ T', reply.Hints args w' q T' := by
  have ⟨k, hk, _⟩ := g.leader _ _ h.log
  have ⟨h₁, h₂⟩ := h.range
  refine ⟨T ++ k, {
    log := hk, range := ⟨h₁, by simp; omega⟩, ahead := h.ahead, held := fun e he ht => ?_ }⟩
  rw [List.getElem?_append_left (by omega)] at he
  exact g.ackedUpTo (h.held e he ht)

theorem Request.Sound.mono {c q : Fin n} {request : Request n C D} (h : request.Sound w c q)
    (g : w.Grows w') : request.Sound w' c q := by
  cases request
  case requestVote     => exact ⟨h.left, h.right.mono g⟩
  case appendEntries   => have ⟨_, h⟩ := h; exact h.mono g
  case installSnapshot => have ⟨_, h⟩ := h; exact h.mono g

theorem Reply.Sound.mono {q : Fin n} {request : Request n C D} {reply : Reply}
    (h : reply.Sound w q request) (g : w.Grows w') : reply.Sound w' q request := by
  cases request <;> cases reply
  case requestVote.requestVote         => exact fun hg => (h hg).mono g
  case installSnapshot.installSnapshot => exact fun ht hx => g.ackedUpTo (h ht hx)
  case appendEntries.appendEntries =>
    intro ht
    have ⟨h₁, h₂⟩ := h ht
    exact ⟨fun hs => g.ackedUpTo (h₁ hs), fun hs => have ⟨_, h⟩ := h₂ hs; h.mono g⟩
  all_goals trivial

theorem Message.Sound.mono {m : Message n C D} (h : m.Sound w) (g : w.Grows w') : m.Sound w' := by
  cases m
  case request => exact Request.Sound.mono h g
  case reply   => exact Reply.Sound.mono h g

theorem Raft.Leads.mono {rf : Raft n C D} {p : Fin n} {T} (h : rf.Leads w p T) (g : w.Grows w')
    (hl : w'.leaderLog rf.currentTerm = some T) : rf.Leads w' p T :=
  { h with
    log := hl
    held q hq e he ht := g.ackedUpTo (h.held q hq e he ht)
    acked q j hj := (h.acked q j hj).imp_right (g.acked _ _ _) }

-- A server that neither moves nor sees its log being extended.
theorem Node.Refines.mono {nd : Node n C D} {p : Fin n} (h : nd.Refines w p) (g : w.Grows w')
    (hl : w'.log p = w.log p) (ht : w'.term p = w.term p)
    (hx : nd.rf.state = .leader → w'.leaderLog nd.rf.currentTerm = w.leaderLog nd.rf.currentTerm) :
    nd.Refines w' p where
  term        := ht.trans h.term
  log         := hl ▸ h.log
  base        := h.base
  commit      := hl ▸ h.commit
  decided     := by rw [hl, ht]; exact g.decided h.decided le_rfl
  applied     := h.applied
  commands    := hl ▸ h.commands
  leader hs   := by rw [hl]; exact (h.leader hs).mono g ((hx hs).trans (h.leader hs).log)

namespace Cluster

variable {s : Cluster n C D} {p q : Fin n} {t : Nat}

theorem Won.term_le (h : s.Won t q) (he : s.Elections) : t ≤ (s.node q).rf.currentTerm := by
  have ⟨Q, hQ, hv⟩ := h
  have hn := q.pos
  have ⟨v, hm⟩ : Q.Nonempty := Finset.card_pos.mp (by omega)
  have hs : s.Stood t q := by
    cases hv v hm
    case inl h => exact h.right
    case inr h =>
      have ⟨k, args, r, ht, _, hr⟩ := h
      exact ⟨v, k, args, ht, he.requested _ _ hr⟩
  cases he.backed q t q <| .inl ⟨rfl, hs⟩
  case inl h => exact h.le
  case inr h => exact h.left.le

-- What has to be shown for a step of `p` that the world answers by moves to `w'`.
structure Answer (s : Cluster n C D) (w : Logs n C) (p : Fin n) (nd : Node n C D)
    (msgs : List (Message n C D)) (w' : Logs n C) : Prop where
  moves     : World.Moves w w'
  others    : ∀ q ≠ p, w'.log q = w.log q ∧ w'.term q = w.term q
  -- The only leader log that changes is the one of `p`.
  leaderLog : ∀ t, w'.leaderLog t = w.leaderLog t ∨
    (t = nd.rf.currentTerm ∧ nd.rf.state = .leader)
  own       : w'.term p = w.term p → w.leaderLog (w.term p) = some (w.log p) →
    w'.leaderLog (w.term p) = some (w'.log p)
  idle      : w'.term p = w.term p → w'.leaderLog (w.term p) = none → w'.log p = w.log p
  node      : nd.Refines w' p
  restarts  : (s.node p).incarnation ≤ nd.incarnation
  stays     : nd.incarnation = (s.node p).incarnation → w'.term p = w.term p →
    (s.node p).rf.state = .leader → nd.rf.state = .leader
  commit    : nd.rf.commitIndex ≤ (s.node p).rf.commitIndex ∨ nd.rf.state = .leader ∨
    s.Announced nd.rf.commitIndex
  candidate : ∀ c q k args, .request ⟨c, q, k, .requestVote args⟩ ∈ msgs → c = p ∧
    w.term p < w'.term p ∧ last (w'.log p) = (args.lastLogTerm, args.lastLogIndex)
  leads     : ∀ call t, .request call ∈ msgs → call.request.leaderTerm = some t →
    call.caller = p ∧ call.callee ≠ p ∧ nd.rf.state = .leader ∧
      nd.rf.sendTo call.callee = .ok call.request
  sound     : ∀ m ∈ msgs, m.Sound w'

namespace Answer

variable {nd : Node n C D} {msgs : List (Message n C D)} (a : s.Answer w p nd msgs w')
  (h : s.Refines w) (he : (s.update p nd msgs).Elections)

include he in
theorem won_self (hl : nd.rf.state = .leader) : (s.update p nd msgs).Won nd.rf.currentTerm p := by
  have := he.leader p
  simp only [update_node_self] at this
  exact this hl

include a h he

-- The winner of a term with a leader log won it before the step.
theorem won {t : Nat} (ht : t ≠ 0) (hw : (s.update p nd msgs).Won t q)
    (hl : w'.leaderLog t ≠ none) :
    s.Won t q ∨ (q = p ∧ nd.rf.state = .leader) := by
  cases a.leaderLog t
  case inr hx => exact .inr ⟨he.won_unique h.odd hw (hx.left ▸ won_self he hx.right), hx.right⟩
  case inl hx =>
    have ⟨T, hT⟩ := Option.ne_none_iff_exists'.mp (hx ▸ hl)
    have ⟨q', hw', _⟩ := h.elected t T hT ht
    exact .inl <| he.won_unique h.odd hw (hw'.mono Ballot.network_subset) ▸ hw'

theorem node_refines (q : Fin n) : ((s.update p nd msgs).node q).Refines w' q := by
  by_cases hq : q = p
  case pos => subst hq; simpa using a.node
  case neg =>
    rw [update_node_ne hq]
    have ⟨hl, ht⟩ := a.others q hq
    refine (h.node q).mono a.moves.grows hl ht fun hx => (a.leaderLog _).resolve_right fun hc =>
      hq ?_
    have hw := he.leader q
    rw [update_node_ne hq] at hw
    exact he.won_unique h.odd (hw hx) (hc.left ▸ won_self he hc.right)

theorem elected {t : Nat} {T : List (LogEntry C)} (hT : w'.leaderLog t = some T) (ht : t ≠ 0) :
    ∃ q, (s.update p nd msgs).Won t q ∧ (w'.term q = t → w'.log q = T) := by
  cases a.leaderLog t
  case inr hx =>
    refine ⟨p, hx.left ▸ won_self he hx.right, fun _ => ?_⟩
    have := (a.node.leader hx.right).log
    rw [←hx.left, hT] at this
    exact (Option.some.inj this).symm
  case inl hx =>
    have ⟨q, hw, hq⟩ := h.elected t T (hx ▸ hT) ht
    refine ⟨q, hw.mono Ballot.network_subset, fun hqt => ?_⟩
    by_cases hqp : q = p
    case neg =>
      have ⟨hl, ht⟩ := a.others q hqp
      exact hl ▸ hq (ht ▸ hqt)
    case pos =>
      -- The winner of an election has been in its term all along.
      subst hqp
      have hle := hw.term_le h.elections
      rw [←(h.node q).term] at hle
      have heq : w.term q = t := Nat.le_antisymm (hqt ▸ a.moves.grows.term q) hle
      have := a.own (hqt.trans heq.symm) (by rw [heq, hq heq, ←hx, hT])
      rw [heq, hT] at this
      exact (Option.some.inj this).symm

omit he in
theorem candidate_last {c q : Fin n} {k : Nat} {args : RequestVoteArgs n}
    (hm : .request ⟨c, q, k, .requestVote args⟩ ∈ (s.update p nd msgs).network)
    (ht : w'.term c = args.term) (hn : w'.leaderLog args.term = none) :
    last (w'.log c) = (args.lastLogTerm, args.lastLogIndex) := by
  have g := a.moves.grows
  cases mem_update_network.mp hm
  case inr hm =>
    have ⟨hc, _, hx⟩ := a.candidate c q k args hm
    exact hc ▸ hx
  case inl hm' =>
    have hx := h.candidate c q k args hm'
    by_cases hcp : c = p
    case neg =>
      have ⟨hl, hct⟩ := a.others c hcp
      exact hl ▸ hx (hct ▸ ht) (g.no_leader hn)
    case pos =>
      subst hcp
      have hb := h.elections.backed c args.term c <| .inl ⟨rfl, q, k, args, rfl, hm'⟩
      rw [Backed, ←(h.node c).term] at hb
      have heq : w.term c = args.term := by
        have := g.term c
        omega
      rw [a.idle (ht.trans heq.symm) (heq ▸ hn)]
      exact hx heq (g.no_leader hn)

theorem running_self (hr : (s.update p nd msgs).Running p)
    (hw : (s.update p nd msgs).Won (w'.term p) p) (hl : w'.leaderLog (w'.term p) ≠ none) :
    nd.rf.state = .leader := by
  have ⟨x, args, ht, hm⟩ := hr
  rw [update_node_self] at ht hm
  rw [←a.node.term] at ht
  cases mem_update_network.mp hm
  case inr hm =>
    have ⟨_, hlt, _⟩ := a.candidate p x _ args hm
    cases a.won h he (ht ▸ (a.sound _ hm).left) hw hl
    case inr hx => exact hx.right
    case inl hx =>
      have := hx.term_le h.elections
      rw [←(h.node p).term] at this
      omega
  case inl hm' =>
    -- The election is an old one, so neither the term nor the incarnation has changed.
    have hi := Nat.le_antisymm (h.elections.incarnation _ hm') a.restarts
    have hb := h.elections.backed p args.term p <| .inl ⟨rfl, x, _, args, rfl, hm'⟩
    rw [Backed, ←(h.node p).term] at hb
    have heq : w'.term p = w.term p := by
      have := a.moves.grows.term p
      omega
    cases a.won h he (ht ▸ (h.sound _ hm').left) hw hl
    case inr hx => exact hx.right
    case inl hx =>
      rw [heq] at hx hl ht
      cases a.leaderLog (w.term p)
      case inr hy => exact hy.right
      case inl hy =>
        refine a.stays hi heq (h.running p ⟨x, args, ht.trans (h.node p).term, ?_⟩ hx (hy ▸ hl))
        exact hi ▸ hm'

theorem running {q : Fin n} (hr : (s.update p nd msgs).Running q)
    (hw : (s.update p nd msgs).Won (w'.term q) q) (hl : w'.leaderLog (w'.term q) ≠ none) :
    ((s.update p nd msgs).node q).rf.state = .leader := by
  by_cases hqp : q = p
  case pos =>
    subst hqp
    rw [update_node_self]
    exact a.running_self h he hr hw hl
  case neg =>
    have ⟨x, args, ht, hm⟩ := hr
    have ⟨_, hqt⟩ := a.others q hqp
    rw [update_node_ne hqp] at ht hm ⊢
    rw [hqt] at hw hl
    have hm' := (mem_update_network.mp hm).resolve_right fun hm =>
      hqp (a.candidate q x _ args hm).left
    have ht' : w.term q ≠ 0 := (h.node q).term ▸ ht ▸ (h.sound _ hm').left
    refine h.running q ⟨x, args, ht, hm'⟩ ((a.won h he ht' hw hl).resolve_right (hqp ·.left)) ?_
    refine ((a.leaderLog _).resolve_right fun hc => hqp ?_) ▸ hl
    exact he.won_unique h.odd hw (hc.left ▸ won_self he hc.right)

theorem refines (hs : ∀ q, ∃ i, ((s.update p nd msgs).node q).Streams i) :
    (s.update p nd msgs).Refines w' := by
  have hnet : ∀ m ∈ s.network, m ∈ (s.update p nd msgs).network := Ballot.network_subset
  refine {
    odd                := h.odd
    valid              := a.moves.valid h.valid
    elections          := he
    streams            := hs
    node               := a.node_refines h he
    elected _ _        := a.elected h he
    running _          := a.running h he
    candidate _ _ _ _  := a.candidate_last h
    leads call t hm ht := ?leads
    sound m hm         := ?sound }
  case leads =>
    cases mem_update_network.mp hm
    case inl hm =>
      have ⟨hw, hc⟩ := h.leads call t hm ht
      exact ⟨hw.mono hnet, hc⟩
    case inr hm =>
      have ⟨h₁, h₂, h₃, h₄⟩ := a.leads call t hm ht
      cases (Raft.sendTo_cases h₄).left.symm.trans ht
      rw [h₁]
      exact ⟨won_self he h₃, h₂⟩
  case sound =>
    cases mem_update_network.mp hm
    case inl hm => exact (h.sound m hm).mono a.moves.grows
    case inr hm => exact a.sound m hm

end Answer
end Cluster
