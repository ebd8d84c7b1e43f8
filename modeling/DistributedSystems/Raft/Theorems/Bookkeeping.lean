import DistributedSystems.Raft.Theorems.Reconciliation
import DistributedSystems.Raft.Theorems.Reordering
import DistributedSystems.Raft.Theorems.Uncompacted

-- What a leader records about its peers, and what the servers record as committed.

open TermLog Server

variable {n : Nat} {C D : Type} {w : Logs n C}

namespace Raft

variable {rf rf' : Raft n C D} {args : AppendEntriesArgs n C} {reply : AppendEntriesReply}

theorem length_le_merge {log : List (LogEntry C)} {k : Nat} (hk : k ≤ log.length)
    (entries : List (LogEntry C)) : k + entries.length ≤ (merge log k entries).length := by
  have := length_le_overlay (log.drop k) entries
  rw [merge_eq_overlay hk, List.length_append, List.length_take]
  omega

theorem Continues.commitIndex_le (h : rf.Continues args)
    (hc : args.leaderCommit ≤ args.prevLogIndex + args.entries.length) :
    rf.commitIndex ≤ (rf.accepted args).commitIndex := by
  have := length_le_merge h.next_le args.entries
  have := h.left
  simp only [accepted_eq, raised]
  split_ifs <;> omega

theorem appendEntries_commitIndex_le (h : rf.appendEntries args = .ok (rf', reply))
    (hl : 0 < rf.log.length) (hc : args.leaderCommit ≤ args.prevLogIndex + args.entries.length) :
    rf.commitIndex ≤ rf'.commitIndex := by
  have ⟨_, _, _, hcommit⟩ := rf.followLeader_log args.term
  cases appendEntries_replies h hl
  case stale     => exact le_rfl
  case refuse    => exact hcommit.ge
  case accept hx => exact hcommit.ge.trans (hx.commitIndex_le hc)

theorem serve_success (h : rf.serve (.appendEntries args) = .ok (rf', .appendEntries reply))
    (hs : reply.success = true) (hl : 0 < rf.log.length) : rf'.currentTerm = args.term := by
  have ⟨_, hx, h⟩ := bind_ok h
  cases h
  have ⟨ht, _, hrf⟩ := appendEntries_success hx hs hl
  simp only [hrf, accepted_eq]
  exact followLeader_currentTerm ht

theorem updateCommitIndex_le (h : rf.updateCommitIndex = .ok rf')
    (hm : rf.commitIndex ≤ median rf.matchIndex) :
    rf.commitIndex ≤ rf'.commitIndex ∧ rf'.currentTerm = rf.currentTerm ∧
    rf'.matchIndex = rf.matchIndex := by
  have ⟨_, _, h⟩ := bind_ok h
  cases h
  split
  case isTrue  => exact ⟨hm, rfl, rfl⟩
  case isFalse => exact ⟨le_rfl, rfl, rfl⟩

-- How the books of a server change with an input.
inductive Records (rf : Raft n C D) : Input n C D → Raft n C D → Prop
  | same {input : Input n C D} {rf' : Raft n C D} :
    (rf'.commitIndex = rf.commitIndex) →
    (rf'.state = .leader →
      rf.state = .leader ∧ rf'.currentTerm = rf.currentTerm ∧ rf'.matchIndex = rf.matchIndex) →
    Records rf input rf'
  | win {q : Fin n} {args : RequestVoteArgs n} {reply : RequestVoteReply} :
    (rf.state ≠ .leader) → (rf.currentTerm = args.term) →
    Records rf (.returned q (.requestVote args) (.requestVote reply))
      (rf.receiveVote q).becomeLeader
  | extend {command : C} : (rf.state = .leader) → Records rf (.start command) (rf.extended command)
  | follow {args : AppendEntriesArgs n C} {rf' : Raft n C D} {reply : AppendEntriesReply} :
    (rf.appendEntries args = .ok (rf', reply)) → Records rf (.serve (.appendEntries args)) rf'
  | install {args : InstallSnapshotArgs n D} {rf' : Raft n C D} :
    Records rf (.serve (.installSnapshot args)) rf'
  | count {q : Fin n} {args : AppendEntriesArgs n C} {reply : AppendEntriesReply}
    {rf' : Raft n C D} :
    (rf.state = .leader) → (rf.currentTerm = args.term) → (args.prevLogIndex + 1 = rf.nextIndex q) →
    (reply.term ≤ args.term) → (reply.success = true) →
    ((rf.track q (args.prevLogIndex + args.entries.length + 1)
      (args.prevLogIndex + args.entries.length)).updateCommitIndex = .ok rf') →
    Records rf (.returned q (.appendEntries args) (.appendEntries reply)) rf'
  | ship {q : Fin n} {args : InstallSnapshotArgs n D} {reply : Reply} {rf' : Raft n C D} :
    Records rf (.returned q (.installSnapshot args) reply) rf'

namespace Records

variable {input : Input n C D}

theorem refl (rf : Raft n C D) (input : Input n C D) : rf.Records input rf :=
  .same rfl fun h => ⟨h, rfl, rfl⟩

theorem becomeFollower (rf : Raft n C D) (t : Nat) (input : Input n C D) :
    rf.Records input (rf.becomeFollower t) :=
  .same rfl nofun

theorem observe (rf : Raft n C D) (t : Nat) (votedFor : Option (Fin n)) (input : Input n C D) :
    rf.Records input { rf.observe t with votedFor } := by
  refine .same ?_ fun h => ?_
  · simp only [Raft.observe]
    split <;> rfl
  · have ho : rf.observe t = rf := observe_leader h
    rw [ho] at h ⊢
    exact ⟨h, rfl, rfl⟩

theorem start {command : C} {out} (h : rf.start command = .ok (rf', out)) :
    rf.Records (.start command) rf' := by
  by_cases hl : rf.state = .leader
  case neg =>
    cases (if_pos hl).symm.trans h
    exact .refl rf _
  case pos =>
    have ⟨_, _, h⟩ := bind_ok <| (start_leader hl command).symm.trans h
    cases h
    exact .extend hl

theorem startElection {out} (h : rf.startElection = .ok (rf', out)) : rf.Records input rf' := by
  rw [(startElection_ok h).left]
  exact .same rfl nofun

theorem requestVote {args : RequestVoteArgs n} {reply}
    (h : rf.requestVote args = .ok (rf', reply)) :
    rf.Records input rf' := by
  obtain hg | ⟨_, hr⟩ := (requestVote_ok h).right
  case inl =>
    rw [hg.right.result]
    exact .observe rf ..
  case inr =>
    cases hr
    case inl hr => exact hr.right ▸ .refl rf input
    case inr hr => exact hr.right ▸ .observe rf args.term _ input

theorem serve {request : Request n C D} {reply} (h : rf.serve request = .ok (rf', reply)) :
    rf.Records (.serve request) rf' := by
  cases request
  all_goals
    have ⟨_, hx, h⟩ := bind_ok h
    cases h
  case requestVote     => exact .requestVote hx
  case appendEntries   => exact .follow hx
  case installSnapshot => exact .install

theorem sendRequestVote (rf : Raft n C D) (q : Fin n) (args : RequestVoteArgs n)
    (reply : RequestVoteReply) :
    rf.Records (.returned q (.requestVote args) (.requestVote reply))
      (rf.sendRequestVote q args.term reply) := by
  obtain ⟨_, h⟩ | h | ⟨ht, _, hl, h⟩ := rf.sendRequestVote_cases q args.term reply
  case inl     => exact h ▸ .becomeFollower ..
  case inr.inl => rw [h]; exact .refl ..
  case inr.inr =>
    cases h
    case inl h => exact h ▸ .same rfl fun hs => absurd hs hl
    case inr h => exact h.right ▸ .win hl ht

theorem sendEntries {q : Fin n} (h : rf.sendEntries q args reply = .ok rf') :
    rf.Records (.returned q (.appendEntries args) (.appendEntries reply)) rf' := by
  simp only [Raft.sendEntries] at h
  split_ifs at h with ht hc hs
  case pos => cases h; exact .becomeFollower ..
  case pos => cases h; exact .refl ..
  case pos => cases h; exact .same rfl fun h => ⟨h, rfl, rfl⟩
  case neg =>
    simp only [not_or, ne_eq, Decidable.not_not] at hc
    obtain ⟨hl, hct, hnext⟩ := hc
    exact .count hl hct hnext (hct ▸ Nat.le_of_not_lt ht) (by simpa using hs) h

theorem returned {q : Fin n} {request : Request n C D} {reply : Reply}
    (h : rf.returned q request reply = some (.ok rf')) :
    rf.Records (.returned q request reply) rf' := by
  cases request <;> cases reply <;> simp only [Raft.returned, Option.some.injEq, reduceCtorEq] at h
  case requestVote.requestVote         => cases h; exact .sendRequestVote ..
  case appendEntries.appendEntries     => exact .sendEntries h
  case installSnapshot.installSnapshot => exact .ship

theorem makeSnapshot {index : Nat} {data : D} (h : rf.makeSnapshot index data = .ok rf') :
    rf.Records input rf' := by
  obtain ⟨_, h⟩ | ⟨_, _, _, h⟩ := makeSnapshot_ok h
  case inl => exact h ▸ .refl ..
  case inr => exact h ▸ .same rfl fun h => ⟨h, rfl, rfl⟩

theorem applyTicker {applier applier' : Applier C D}
    (h : rf.applyTicker applier = some (.ok (rf', applier'))) :
    rf.Records input rf' := by
  have ⟨_, ht⟩ := applyTicker_ok h
  have ⟨_, hb⟩ := rf.settle_eq applier
  rw [hb] at ht
  cases ht <;> exact .same rfl fun h => ⟨h, rfl, rfl⟩

end Records
end Raft

namespace Node

variable {nd nd' : Node n C D} {input : Input n C D}

-- The server is restarted, or goes on with its books.
def Records (nd : Node n C D) (input : Input n C D) (nd' : Node n C D) : Prop :=
  (nd.incarnation < nd'.incarnation ∧ nd'.rf.state ≠ .leader) ∨
  (nd'.incarnation = nd.incarnation ∧ nd.rf.Records input nd'.rf)

namespace Records

theorem refl (nd : Node n C D) (input : Input n C D) : nd.Records input nd :=
  .inr ⟨rfl, .refl ..⟩

theorem restart {persister : Persister n C D} : nd.Records input (nd.restart persister) :=
  .inl ⟨Nat.lt_succ_self _, fun h => nomatch boot_state.symm.trans h⟩

theorem conclude {r} (h : ∀ rf, r = .ok rf → nd.rf.Records input rf) :
    nd.Records input (nd.conclude r) := by
  cases r
  case error => exact .restart
  case ok rf => exact .inr ⟨rfl, h rf rfl⟩

theorem conclude_map {α : Type} {r : Except (Crash n C D) α} {f : α → Raft n C D}
    (h : ∀ a, r = .ok a → nd.rf.Records input (f a)) :
    nd.Records input (nd.conclude (r.map f)) := by
  cases r
  case error => exact .restart
  case ok a  => exact .inr ⟨rfl, h a rfl⟩

end Records

theorem next_records (hn : nd.next input = some nd') : nd.Records input nd' := by
  cases input <;> simp only [next, Option.some.injEq] at hn
  case start         => exact hn ▸ .conclude_map fun _ => .start
  case startElection => exact hn ▸ .conclude_map fun _ h => .startElection h
  case serve         => exact hn ▸ .conclude_map fun _ => .serve
  case snapshot      => exact hn ▸ .conclude fun _ => .makeSnapshot
  case restart       => exact hn ▸ .restart
  case heartbeat     =>
    split_ifs at hn <;> cases hn
    · exact .refl ..
    · exact .restart
  case applyTicker =>
    obtain ⟨r, hx, hn⟩ := Option.map_eq_some_iff.mp hn
    rw [←hn]
    cases r
    case error => exact .restart
    case ok    => exact .inr ⟨rfl, .applyTicker hx⟩
  case receive =>
    split at hn <;> cases hn
    exact .inr ⟨rfl, .refl ..⟩
  case returned =>
    obtain ⟨r, hx, hn⟩ := Option.map_eq_some_iff.mp hn
    exact hn ▸ .conclude fun _ h => .returned (h ▸ hx)
  case failed request =>
    cases request <;> cases hn <;> exact .inr ⟨rfl, .refl ..⟩

end Node

namespace Cluster

variable {s s' : Cluster n C D} {p q : Fin n} {t m : Nat}

-- The peer `q` has reported that it has the entries of the leader of term `t` up to index `m`.
def Confirmed (s : Cluster n C D) (q : Fin n) (t m : Nat) : Prop :=
  ∃ call args reply, .reply call (.appendEntries reply) ∈ s.network ∧ call.callee = q ∧
    call.request = .appendEntries args ∧ reply.term ≤ args.term ∧ reply.success = true ∧
    args.term = t ∧ args.prevLogIndex + args.entries.length = m

theorem Confirmed.mono (h : s.Confirmed q t m) (hn : ∀ m ∈ s.network, m ∈ s'.network) :
    s'.Confirmed q t m :=
  have ⟨call, args, reply, hm, h⟩ := h
  ⟨call, args, reply, hn _ hm, h⟩

-- What a step makes of the books of a server that it does not restart.
inductive Tallies (s : Cluster n C D) (p : Fin n) (rf : Raft n C D) : Prop
  | keep :
    ((s.node p).rf.commitIndex ≤ rf.commitIndex) →
    (rf.state = .leader →
      (s.node p).rf.state = .leader ∧ rf.currentTerm = (s.node p).rf.currentTerm ∧
      ∀ q, (s.node p).rf.matchIndex q ≤ rf.matchIndex q ∧
        (rf.matchIndex q = (s.node p).rf.matchIndex q ∨ q = p ∨
          s.Confirmed q rf.currentTerm (rf.matchIndex q))) →
    Tallies s p rf
  | win :
    ((s.node p).rf.state ≠ .leader) → (s.Running p) → (rf.currentTerm = (s.node p).rf.currentTerm) →
    (rf.commitIndex = (s.node p).rf.commitIndex) → (∀ q ≠ p, rf.matchIndex q = rf.commitIndex) →
    Tallies s p rf

theorem Tallies.refl (s : Cluster n C D) (p : Fin n) : s.Tallies p (s.node p).rf :=
  .keep le_rfl fun h => ⟨h, rfl, fun _ => ⟨le_rfl, .inl rfl⟩⟩

section

variable [DecidableEq C] [DecidableEq D] {a : Event n C D}

-- What a server is passed has been in the network.
theorem input_serve {request : Request n C D} (hi : s.input p a = some (.serve request))
    (hs : s.next a = some s') :
    ∃ call, .request call ∈ s.network ∧ call.callee = p ∧ call.request = request := by
  cases a
  case serve call =>
    simp only [input] at hi
    split_ifs at hi with hp
    cases hi
    simp only [next] at hs
    split_ifs at hs with hm
    exact ⟨call, hm, hp, rfl⟩
  all_goals simp [input] at hi

theorem input_returned {request : Request n C D} {reply : Reply}
    (hi : s.input p a = some (.returned q request reply)) (hs : s.next a = some s') :
    .reply ⟨p, q, (s.node p).incarnation, request⟩ reply ∈ s.network := by
  cases a
  case returned call _ =>
    simp only [input] at hi
    split_ifs at hi with hp
    cases hi
    simp only [next, returned] at hs
    split_ifs at hs with hm hk
    subst hp
    rw [←not_not.mp hk]
    exact hm
  all_goals simp [input] at hi

end

namespace Refines

variable {rf : Raft n C D} (h : s.Refines w)

include h

theorem extend_tallies (hl : (s.node p).rf.state = .leader) (command : C) :
    s.Tallies p ((s.node p).rf.extended command) := by
  have hlt := ((h.node p).leader hl).matchIndex p
  rw [←(h.node p).log.logLength] at hlt
  refine .keep le_rfl fun _ => ⟨hl, rfl, fun q => ?_⟩
  simp only [Raft.extended, h.elections.me]
  by_cases hq : q = p
  case pos =>
    subst hq
    rw [Function.update_self]
    exact ⟨hlt.le, .inr <| .inl rfl⟩
  case neg =>
    rw [Function.update_of_ne hq]
    exact ⟨le_rfl, .inl rfl⟩

theorem follow_tallies {call : Call n C D} {args reply} (hm : .request call ∈ s.network)
    (hr : call.request = .appendEntries args)
    (hx : (s.node p).rf.appendEntries args = .ok (rf, reply)) :
    s.Tallies p rf := by
  have hsound := h.sound _ hm
  simp only [Message.Sound, hr] at hsound
  obtain ⟨_, hS⟩ := hsound
  have hpos := (h.node p).log.log_pos
  have hfollower := (s.node p).rf.followLeader_state args.term
  refine .keep (Raft.appendEntries_commitIndex_le hx hpos hS.commit) fun hl => ?_
  cases Raft.appendEntries_replies hx hpos
  case stale  => exact ⟨hl, rfl, fun _ => ⟨le_rfl, .inl rfl⟩⟩
  case refuse => cases hfollower.symm.trans hl
  case accept =>
    rw [Raft.accepted_eq] at hl
    cases hfollower.symm.trans hl

theorem count_tallies {k args reply}
    (hm : .reply ⟨p, q, k, .appendEntries args⟩ (.appendEntries reply) ∈ s.network)
    (hl : (s.node p).rf.state = .leader) (ht : (s.node p).rf.currentTerm = args.term)
    (hnext : args.prevLogIndex + 1 = (s.node p).rf.nextIndex q) (hterm : reply.term ≤ args.term)
    (hsuccess : reply.success = true)
    (hx : ((s.node p).rf.track q (args.prevLogIndex + args.entries.length + 1)
      (args.prevLogIndex + args.entries.length)).updateCommitIndex = .ok rf) : s.Tallies p rf := by
  have L := (h.node p).leader hl
  have hreq := h.elections.requested _ _ hm
  have ⟨_, hq⟩ := h.leads _ args.term hreq rfl
  have ⟨T, hS⟩ := h.sound _ hreq
  cases (ht ▸ hS.log).symm.trans L.log
  have hmatch (v) : (s.node p).rf.matchIndex v
      ≤ Function.update (s.node p).rf.matchIndex q (args.prevLogIndex + args.entries.length) v := by
    by_cases hv : v = q
    case neg => rw [Function.update_of_ne hv]
    case pos =>
      subst hv
      rw [Function.update_self]
      exact L.matchIndex_le hq hS ht hnext
  have hpos : 0 < n := Nat.zero_lt_of_lt p.isLt
  have ⟨hc, hct, hmi⟩ :=
    Raft.updateCommitIndex_le hx (L.median.trans (Raft.median_mono hpos hmatch))
  rw [Raft.track_matchIndex] at hmi
  refine .keep hc fun _ => ⟨hl, hct, fun v => ⟨hmi ▸ hmatch v, ?_⟩⟩
  rw [hmi]
  by_cases hv : v = q
  case neg => exact .inl (Function.update_of_ne hv ..)
  case pos =>
    subst hv
    rw [Function.update_self]
    exact .inr <| .inr ⟨_, args, reply, hm, rfl, rfl, hterm, hsuccess, (hct.trans ht).symm, rfl⟩

theorem next_tallies [DecidableEq C] [DecidableEq D] {a : Event n C D} (hu : s.Uncompacted)
    (hs : s.next a = some s') (p : Fin n) :
    ((s.node p).incarnation < (s'.node p).incarnation ∧ (s'.node p).rf.state ≠ .leader) ∨
    ((s'.node p).incarnation = (s.node p).incarnation ∧ s.Tallies p (s'.node p).rf) := by
  have hpass := next_passes hs p
  cases hi : s.input p a <;> simp only [hi, Passes, Option.elim] at hpass
  case none => exact .inr ⟨hpass ▸ rfl, hpass ▸ .refl s p⟩
  case some input =>
    refine (Node.next_records hpass).imp_right <| .imp_right fun hr => ?_
    generalize (s'.node p).rf = rf at hr
    cases hr
    case same hc hl =>
      refine .keep hc.ge fun hx => ?_
      obtain ⟨h₁, h₂, h₃⟩ := hl hx
      exact ⟨h₁, h₂, fun q => h₃ ▸ ⟨le_rfl, .inl rfl⟩⟩
    case extend hl => exact h.extend_tallies hl _
    case follow hx =>
      obtain ⟨_, hm, _, hr⟩ := input_serve hi hs
      exact h.follow_tallies hm hr hx
    case count hl ht hnext hterm hsuccess hx =>
      exact h.count_tallies (input_returned hi hs) hl ht hnext hterm hsuccess hx
    case win hl ht =>
      have hm := h.elections.requested _ _ (input_returned hi hs)
      refine .win hl ⟨_, _, ht.symm, hm⟩ rfl rfl fun q hq => ?_
      rw [←h.elections.me p] at hq
      exact Function.update_of_ne hq _ fun _ => (s.node p).rf.commitIndex
    -- Nobody sends a snapshot.
    case install =>
      obtain ⟨call, hm, _, hr⟩ := input_serve hi hs
      exact absurd hr (hu.requests call _ hm)
    case ship =>
      have hm := h.elections.requested _ _ (input_returned hi hs)
      exact absurd rfl (hu.requests _ _ hm)

end Refines

end Cluster

namespace Cluster.Tallies

variable {s : Cluster n C D} {p : Fin n} {rf : Raft n C D} (h : s.Tallies p rf)

include h

theorem commitIndex_le : (s.node p).rf.commitIndex ≤ rf.commitIndex := by
  cases h
  case keep h _      => exact h
  case win _ _ _ h _ => exact h.ge

theorem matchIndex (hl : (s.node p).rf.state = .leader) (hl' : rf.state = .leader) (q : Fin n) :
    (s.node p).rf.matchIndex q ≤ rf.matchIndex q ∧
    (rf.matchIndex q = (s.node p).rf.matchIndex q ∨ q = p ∨
      s.Confirmed q rf.currentTerm (rf.matchIndex q)) := by
  cases h
  case keep h        => exact (h hl').right.right q
  case win h _ _ _ _ => exact absurd hl h

end Cluster.Tallies

namespace History

-- A server leads from moment `i` to moment `j`, and has the same term all the time.
def Reigns (h : History n C D) (p : Fin n) (i j : Nat) : Prop :=
  ∀ k, i ≤ k → k ≤ j → (h k p).rf.state = .leader ∧
    (h k p).rf.currentTerm = (h j p).rf.currentTerm

structure Bookkeeping (h : History n C D) : Prop where
  commitIndex : ∀ p i j, i ≤ j → (h j p).incarnation = (h i p).incarnation →
    (h i p).rf.commitIndex ≤ (h j p).rf.commitIndex
  matchIndex  : ∀ p i j, i ≤ j → (h i p).rf.state = .leader → (h j p).rf.state = .leader →
    (h j p).rf.currentTerm = (h i p).rf.currentTerm →
    ∀ q, (h i p).rf.matchIndex q ≤ (h j p).rf.matchIndex q
  -- From its election on, a leader has entries of a peer on record only if the peer has had them in
  -- this term.
  held        : ∀ p j, (h j p).rf.state = .leader →
    ∃ i < j, (h i p).rf.state ≠ .leader ∧ h.Reigns p (i + 1) j ∧
    ∀ q, (h (i + 1) p).rf.commitIndex < (h j p).rf.matchIndex q →
      (h j p).rf.matchIndex q < (h j p).rf.log.length ∧
      ∃ k ≤ j, (h k q).rf.currentTerm = (h j p).rf.currentTerm ∧
        ∀ x ≤ (h j p).rf.matchIndex q, (h k q).rf.log[x]? = (h j p).rf.log[x]?

end History

namespace Execution

variable [DecidableEq C] [DecidableEq D] {e : Execution n C D}

namespace NoSnapshots

variable (hs : e.NoSnapshots) (hn : Odd n) {i j : Nat} {p q : Fin n}

include hs hn

theorem tallies {w : Nat → Logs n C} (h : e.Shadowed w) (i : Nat) (p : Fin n) :
    (((e.state i).node p).incarnation < ((e.state (i + 1)).node p).incarnation ∧
      ((e.state (i + 1)).node p).rf.state ≠ .leader) ∨
    (((e.state (i + 1)).node p).incarnation = ((e.state i).node p).incarnation ∧
      (e.state i).Tallies p ((e.state (i + 1)).node p).rf) := by
  obtain hx | ⟨a, _, hx⟩ := e.step_cases i
  case inl => exact .inr ⟨by rw [hx], hx ▸ .refl ..⟩
  case inr => exact (h.refines i).next_tallies (hs.uncompacted hn i) hx p

theorem commitIndex_mono (hij : i ≤ j)
    (hk : ((e.state j).node p).incarnation = ((e.state i).node p).incarnation) :
    ((e.state i).node p).rf.commitIndex ≤ ((e.state j).node p).rf.commitIndex := by
  have ⟨w, h⟩ := (hs.guarded hn).shadowed hn
  induction hij
  case refl => exact le_rfl
  case step j hij hi =>
    obtain ⟨hlt, _⟩ | ⟨heq, ht⟩ := hs.tallies hn h j p
    case inl => exact absurd (hk ▸ hlt) (Nat.not_lt.mpr (e.incarnation_mono hij p))
    case inr => exact (hi (heq.symm.trans hk)).trans ht.commitIndex_le

-- Nobody is elected twice in the same term, not even after a restart.
theorem reigns (hij : i ≤ j) (hi : ((e.state i).node p).rf.state = .leader)
    (hj : ((e.state j).node p).rf.state = .leader)
    (ht : ((e.state j).node p).rf.currentTerm = ((e.state i).node p).rf.currentTerm) :
    e.history.Reigns p i j := by
  have ⟨w, h⟩ := (hs.guarded hn).shadowed hn
  have L := ((h.refines i).node p).leader hi
  induction hij
  case refl =>
    intro k h₁ h₂
    cases Nat.le_antisymm h₁ h₂
    exact ⟨hi, rfl⟩
  case step j hij hind =>
    have hback : ((e.state j).node p).rf.state = .leader ∧
        ((e.state (j + 1)).node p).rf.currentTerm = ((e.state j).node p).rf.currentTerm := by
      obtain ⟨_, hl⟩ | ⟨_, ha⟩ := hs.tallies hn h j p
      case inl => exact absurd hj hl
      case inr =>
        cases ha
        case keep ha =>
          have ⟨h₁, h₂, _⟩ := ha hj
          exact ⟨h₁, h₂⟩
        case win hl hr hx _ _ =>
          have R := h.refines j
          have hterm : (w j).term p = ((e.state i).node p).rf.currentTerm :=
            (R.node p).term.trans (hx.symm.trans ht)
          have hw := ((h.refines i).elections.leader p hi).mono (e.network_mono hij)
          have ⟨_, hlog, _⟩ := (h.grows hij).leader _ _ L.log
          refine absurd (R.running p hr ?_ ?_) hl <;> rw [hterm]
          · exact hw
          · exact Option.ne_none_iff_exists'.mpr ⟨_, hlog⟩
    have ⟨hl, heq⟩ := hback
    intro k h₁ h₂
    cases Nat.le_succ_iff.mp h₂
    case inr h₂ => cases h₂; exact ⟨hj, rfl⟩
    case inl h₂ =>
      have ⟨h₃, h₄⟩ := hind hl (heq.symm.trans ht) k h₁ h₂
      exact ⟨h₃, h₄.trans heq.symm⟩

end NoSnapshots
end Execution

namespace History.Reigns

variable [DecidableEq C] [DecidableEq D] {e : Execution n C D}
variable {w : Nat → Logs n C} (hs : e.NoSnapshots) (hn : Odd n) (h : e.Shadowed w) {i j k : Nat}
  {p q : Fin n}

theorem restrict (hr : e.history.Reigns p i j) (hk : i ≤ k) (hkj : k ≤ j) :
    e.history.Reigns p i k := by
  intro m h₁ h₂
  have ⟨hl, ht⟩ := hr m h₁ (h₂.trans hkj)
  exact ⟨hl, ht.trans (hr k hk hkj).right.symm⟩

include hs hn h

theorem step (hr : e.history.Reigns p i (j + 1)) (hij : i ≤ j) (q : Fin n) :
    ((e.state j).node p).rf.matchIndex q ≤ ((e.state (j + 1)).node p).rf.matchIndex q ∧
    (((e.state (j + 1)).node p).rf.matchIndex q = ((e.state j).node p).rf.matchIndex q ∨ q = p ∨
      (e.state j).Confirmed q ((e.state (j + 1)).node p).rf.currentTerm
        (((e.state (j + 1)).node p).rf.matchIndex q)) := by
  have hl := (hr j hij (Nat.le_succ j)).left
  have hl' := (hr (j + 1) (Nat.le_succ_of_le hij) le_rfl).left
  obtain ⟨_, hc⟩ | ⟨_, ht⟩ := hs.tallies hn h j p
  case inl => exact absurd hl' hc
  case inr => exact ht.matchIndex hl hl' q

theorem matchIndex_mono (hr : e.history.Reigns p i j) (hij : i ≤ j) (q : Fin n) :
    ((e.state i).node p).rf.matchIndex q ≤ ((e.state j).node p).rf.matchIndex q := by
  induction hij
  case refl => exact le_rfl
  case step j hij hi =>
    exact (hi (hr.restrict hij (Nat.le_succ j))).trans (hr.step hs hn h hij q).left

-- What a leader records about a peer is what it has started with or what the peer has confirmed.
theorem confirmed (hr : e.history.Reigns p i j) (hij : i ≤ j) {c : Nat}
    (hc : ((e.state i).node p).rf.matchIndex q = c) (hq : q ≠ p) :
    ((e.state j).node p).rf.matchIndex q = c ∨
    (e.state j).Confirmed q ((e.state j).node p).rf.currentTerm
      (((e.state j).node p).rf.matchIndex q) := by
  induction hij
  case refl => exact .inl hc
  case step j hij hi =>
    have hnet := e.network_mono (Nat.le_succ j)
    obtain hsame | hp | hconf := (hr.step hs hn h hij q).right
    case inr.inl => exact absurd hp hq
    case inr.inr => exact .inr (hconf.mono hnet)
    case inl =>
      refine (hi (hr.restrict hij (Nat.le_succ j))).imp (hsame.trans ·) fun hconf => ?_
      rw [(hr j hij (Nat.le_succ j)).right] at hconf
      rw [hsame]
      exact hconf.mono hnet

end History.Reigns

namespace Execution

variable [DecidableEq C] [DecidableEq D] {e : Execution n C D}

theorem NoSnapshots.elected (hs : e.NoSnapshots) (hn : Odd n) {w : Nat → Logs n C}
    (h : e.Shadowed w) {p : Fin n} {j : Nat} (hl : ((e.state j).node p).rf.state = .leader) :
    ∃ i < j, ((e.state i).node p).rf.state ≠ .leader ∧ e.history.Reigns p (i + 1) j ∧
      ∀ q ≠ p, ((e.state (i + 1)).node p).rf.matchIndex q =
        ((e.state (i + 1)).node p).rf.commitIndex := by
  have ⟨i, _, hij, hnot, hsince⟩ := System.Behavior.exists_since
    (P := fun k => ((e.state k).node p).rf.state = .leader ∧
      ((e.state k).node p).rf.currentTerm = ((e.state j).node p).rf.currentTerm)
    (Nat.zero_le j) (by rw [e.start]; exact fun hc => nomatch hc.left) ⟨hl, rfl⟩
  have ⟨hi, ht⟩ := hsince (i + 1) (Nat.lt_succ_self i) hij
  refine ⟨i, hij, ?_⟩
  obtain ⟨_, hx⟩ | ⟨_, ha⟩ := hs.tallies hn h i p
  case inl => exact absurd hi hx
  case inr =>
    cases ha
    case win hx _ _ _ hmatch => exact ⟨hx, hsince, hmatch⟩
    case keep hx =>
      have ⟨h₁, h₂, _⟩ := hx hi
      exact absurd ⟨h₁, h₂.symm.trans ht⟩ hnot

namespace Shadowed

variable {w : Nat → Logs n C} (h : e.Shadowed w) {j m t : Nat} {p q : Fin n}

include h

-- A peer has had the entries that it confirms.
theorem held (hc : (e.state j).Confirmed q t m) : ∃ k ≤ j, ((e.state k).node q).rf.currentTerm = t ∧
    ∃ T, (w k).leaderLog t = some T ∧ m < T.length ∧ T.take (m + 1) <+: (w k).log q := by
  obtain ⟨call, args, reply, hm, hq, hr, hle, hsuccess, ht, hlast⟩ := hc
  subst hq ht hlast
  -- The moment at which it has replied.
  obtain ⟨k, _, hk, hnot, hsince⟩ := System.Behavior.exists_since
    (P := fun k => .reply call (.appendEntries reply) ∈ (e.state k).network) (Nat.zero_le j)
    (by rw [e.start]; exact List.not_mem_nil) hm
  have hm' := hsince (k + 1) (Nat.lt_succ_self k) hk
  have R := h.refines (k + 1)
  have hterm : ((e.state (k + 1)).node call.callee).rf.currentTerm = args.term := by
    obtain hx | ⟨a, _, hx⟩ := e.step_cases k
    case inl => exact absurd (hx ▸ hm') hnot
    case inr =>
      have hserve := Cluster.next_reply hx hm' hnot
      rw [hr] at hserve
      exact Raft.serve_success hserve hsuccess ((h.refines k).node call.callee).log.log_pos
  have hsound := R.sound _ hm'
  simp only [Message.Sound, hr] at hsound
  obtain ⟨_, T, hT, hlt, hor⟩ := R.valid.ack_log _ _ _ ((hsound hle).left hsuccess _ le_rfl)
  refine ⟨k + 1, hk, hterm, T, hT, hlt, hor.resolve_right fun hx => ?_⟩
  obtain ⟨_, _, h₁, h₂, _⟩ := hx
  rw [(R.node call.callee).term, hterm] at h₂
  omega

theorem confirmed_eq (hl : ((e.state j).node p).rf.state = .leader)
    (hc : (e.state j).Confirmed q ((e.state j).node p).rf.currentTerm m) :
    ∃ k ≤ j, ((e.state k).node q).rf.currentTerm = ((e.state j).node p).rf.currentTerm ∧
      ∀ x ≤ m, ((w k).log q)[x]? = ((w j).log p)[x]? := by
  have ⟨k, hk, ht, T, hT, hlt, hp⟩ := h.held hc
  have L := ((h.refines j).node p).leader hl
  have ⟨r, hr, _⟩ := (h.grows hk).leader _ _ hT
  have hlog : (w j).log p = T ++ r := Option.some.inj (L.log.symm.trans hr)
  refine ⟨k, hk, ht, fun x hx => ?_⟩
  have hx' : x < (T.take (m + 1)).length := by rw [List.length_take]; omega
  rw [hlog, List.prefix_iff_getElem?.mp hp x hx', List.getElem?_append_left (by omega),
    List.getElem_take, List.getElem?_eq_getElem]

end Shadowed

theorem NoSnapshots.bookkeeping_history (hs : e.NoSnapshots) (hn : Odd n) :
    e.history.Bookkeeping := by
  obtain ⟨w, h⟩ := (hs.guarded hn).shadowed hn
  have base i p := (hs.uncompacted hn i).base p
  refine {
    commitIndex p i j hij hk := ?commit
    matchIndex p i j hij hi hj ht q := ?grow
    held p j hl := ?hold }
  case commit => exact hs.commitIndex_mono hn hij hk
  case grow   => exact (hs.reigns hn hij hi hj ht).matchIndex_mono hs hn h hij q
  case hold   =>
    have N := (h.refines j).node p
    obtain ⟨i, hij, hnot, hr, hc⟩ := hs.elected hn h hl
    refine ⟨i, hij, hnot, hr, fun q hlt => ⟨?_, ?_⟩⟩
    · have hlen := N.log.logLength
      rw [Raft.logLength, base, Nat.add_zero] at hlen
      exact hlen ▸ (N.leader hl).matchIndex q
    · by_cases hq : q = p
      case pos => exact ⟨j, le_rfl, hq ▸ rfl, hq ▸ fun _ _ => rfl⟩
      case neg =>
        have hx := (hr.confirmed hs hn h hij (hc q hq) hq).resolve_left hlt.ne'
        obtain ⟨k, hk, ht, heq⟩ := h.confirmed_eq hl hx
        exact ⟨k, hk, ht, fun x hx => ((h.refines k).node q).log.getElem?_congr N.log (base k q)
          (base j p) (heq x hx)⟩

end Execution
