import DistributedSystems.Raft.Server
import DistributedSystems.Raft.Theorems.Safety

open Server

variable {n : Nat} {C D : Type}

namespace Raft

variable {rf rf' : Raft n C D}

-- The entry at an absolute index.
def entry (rf : Raft n C D) (x : Nat) : Option (LogEntry C) :=
  if rf.snapshotLastIndex ≤ x then rf.log[x - rf.snapshotLastIndex]? else none

theorem entry_of_prefix {x : Nat} {e : LogEntry C}
    (hi : rf'.snapshotLastIndex = rf.snapshotLastIndex) (hl : rf.log <+: rf'.log)
    (h : rf.entry x = some e) : rf'.entry x = some e := by
  have ⟨_, hl⟩ := hl
  simp only [entry, hi, ←hl] at h ⊢
  split_ifs at h ⊢
  rw [List.getElem?_append_left (List.getElem?_eq_some_iff.mp h).choose, h]

-- The term never decreases, and a vote is never changed within its term.
def Votes (rf rf' : Raft n C D) : Prop :=
  (rf.currentTerm < rf'.currentTerm) ∨
  (rf'.currentTerm = rf.currentTerm ∧ (rf'.votedFor = rf.votedFor ∨ rf.votedFor = none))

theorem Keeps.votes (k : rf.Keeps rf') : rf.Votes rf' :=
  k.vote.imp_right <| .imp_right .inl

theorem Votes.trans {rf₁ rf₂ rf₃ : Raft n C D} (h₁ : rf₁.Votes rf₂) (h₂ : rf₂.Votes rf₃) :
    rf₁.Votes rf₃ := by
  rcases h₁ with h₁ | ⟨h₁, hv₁⟩ <;> rcases h₂ with h₂ | ⟨h₂, hv₂⟩
  case inl.inl => exact .inl (h₁.trans h₂)
  case inl.inr => exact .inl (h₂ ▸ h₁)
  case inr.inl => exact .inl (h₁ ▸ h₂)
  case inr.inr =>
    refine .inr ⟨h₂.trans h₁, ?_⟩
    cases hv₁
    case inr hv₁ => exact .inr hv₁
    case inl hv₁ => exact hv₁ ▸ hv₂

-- What a critical section does that has seen the term `t`. A leader loses at most the entries at
-- the `compacted` indices.
structure Abides (rf : Raft n C D) (t : Nat) (compacted : Nat → Prop) (rf' : Raft n C D) :
    Prop where
  me   : rf'.me = rf.me
  vote : rf.Votes rf'
  term : t ≤ rf'.currentTerm
  down : rf.currentTerm < t → rf'.state ≠ .leader ∧ rf'.state ≠ .candidate
  log  : rf.state = .leader → rf'.state = .leader →
    ∀ x e, ¬compacted x → rf.entry x = some e → rf'.entry x = some e

namespace Abides

variable {t : Nat} {compacted : Nat → Prop}

theorem refl (h : t ≤ rf.currentTerm) : rf.Abides t compacted rf where
  me          := rfl
  vote        := .inr ⟨rfl, .inl rfl⟩
  term        := h
  down hd     := absurd h (Nat.not_le.mpr hd)
  log _ _ _ _ := fun _ h => h

-- The log is left alone, or the server does not lead any more.
theorem of_keeps (k : rf.Keeps rf') (ht : t ≤ rf'.currentTerm)
    (hd : rf.currentTerm < t → rf'.state = .follower)
    (hl : rf'.state = .leader → rf'.log = rf.log ∧ rf'.snapshotLastIndex = rf.snapshotLastIndex) :
    rf.Abides t compacted rf' where
  me            := k.me
  vote          := k.votes
  term          := ht
  down hd'      := by simp [hd hd']
  log _ h _ _ _ := entry_of_prefix (hl h).right ((hl h).left ▸ List.prefix_rfl)

theorem becomeFollower (h : rf.currentTerm < t) : rf.Abides t compacted (rf.becomeFollower t) :=
  .of_keeps (.becomeFollower h) le_rfl (fun _ => rfl) nofun

end Abides

theorem persist_log (h : rf'.persist = rf.persist) :
    rf'.log = rf.log ∧ rf'.snapshotLastIndex = rf.snapshotLastIndex := by
  simp only [persist, Persister.mk.injEq, Option.some.injEq, RaftStateBytes.mk.injEq] at h
  exact ⟨h.left.right.right.left, h.left.right.right.right.left⟩

theorem make_volatile (me : Fin n) (persister : Persister n C D) :
    ((make me persister).commitIndex = (make me persister).snapshotLastIndex) ∧
    ((make me persister).lastApplied = (make me persister).snapshotLastIndex) := by
  cases persister with | mk raftstate _ => cases raftstate <;> exact ⟨rfl, rfl⟩

-- One lemma for each critical section

theorem start_abides (rf : Raft n C D) (command : C) (compacted : Nat → Prop) :
    Ends (rf.Abides 0 compacted) Prod.fst (rf.start command) := by
  have he : rf.Abides 0 compacted (rf.extended command) :=
    { (.refl (Nat.zero_le _) : rf.Abides 0 compacted rf) with
      log := fun _ _ _ _ _ => entry_of_prefix rfl (List.prefix_append ..) }
  by_cases hl : rf.state = .leader
  case neg =>
    simp only [start, ne_eq, hl, not_false_eq_true, if_true]
    exact .refl (Nat.zero_le _)
  case pos =>
    rw [start_leader hl]
    apply Ends.bind
    case hk => intro sent _; exact he
    case he =>
      intro c hc
      obtain ⟨hr, hs, _⟩ := startSendEntries_error hc
      exact ⟨hr ▸ he, fun q args h => sendTo_ne_requestVote (hs q _ h).right args rfl⟩

theorem startElection_abides (rf : Raft n C D) (compacted : Nat → Prop) :
    Ends (rf.Abides 0 compacted) Prod.fst rf.startElection := by
  have h : rf.Abides 0 compacted rf.candidacy := {
    me   := rfl
    vote := .inl (Nat.lt_succ_self _)
    term := Nat.zero_le _
    down := nofun
    log  := nofun }
  cases hx : rf.startElection
  case error c =>
    have ⟨_, hs, he⟩ := startElection_error hx
    exact ⟨(logAt_error he).left ▸ h, by simp [hs]⟩
  case ok r => exact ((startElection_ok hx).left ▸ h : rf.Abides 0 compacted r.fst)

theorem makeSnapshot_abides (rf : Raft n C D) (index : Nat) (data : D) :
    Ends (rf.Abides 0 (· ≤ index)) id (rf.makeSnapshot index data) := by
  have hk := rf.makeSnapshot_keeps index data
  cases hx : rf.makeSnapshot index data <;> rw [hx] at hk
  case error c =>
    rw [makeSnapshot_error hx]
    exact ⟨.refl (Nat.zero_le _), nofun⟩
  case ok rf' =>
    have hl x e (hx' : ¬x ≤ index) (he : rf.entry x = some e) : rf'.entry x = some e := by
      rcases makeSnapshot_ok hx with ⟨_, rfl⟩ | ⟨hi, _, _, rfl⟩
      · exact he
      · simp only [entry] at he ⊢
        split_ifs at he ⊢
        · have hd : x - index = (x - index - 1) + 1 := by omega
          rw [hd, List.getElem?_cons_succ, List.getElem?_drop, ←he]
          congr 1
          omega
        · omega
    exact {
      me       := hk.me
      vote     := hk.votes
      term     := Nat.zero_le _
      down     := nofun
      log _ _  := hl }

theorem observe_abides {t : Nat} (h : rf.currentTerm ≤ t) {compacted : Nat → Prop} :
    rf.Abides t compacted (rf.observe t) := by
  unfold observe
  split
  case isTrue h  => exact .becomeFollower h
  case isFalse h => exact .refl (by omega)

theorem requestVote_abides (rf : Raft n C D) (args : RequestVoteArgs n) (compacted : Nat → Prop) :
    Ends (rf.Abides args.term compacted) Prod.fst (rf.requestVote args) := by
  by_cases ht : args.term < rf.currentTerm
  case pos =>
    simp only [requestVote, ht, if_true]
    exact .refl ht.le
  case neg =>
    have h : rf.Abides args.term compacted (rf.observe args.term) := observe_abides (by omega)
    cases hx : rf.requestVote args
    case error c =>
      rw [(logAt_error (requestVote_error hx)).left]
      exact ⟨h, by simp⟩
    case ok r =>
      suffices hr : rf.Abides args.term compacted r.fst from hr
      rcases (requestVote_ok hx).right with ⟨_, hg⟩ | ⟨_, ⟨hr, _⟩ | ⟨_, hr⟩⟩
      · rw [hg.result]
        refine { h with vote := h.vote.imp_right fun hx => ⟨hx.left, ?_⟩ }
        cases hx.right
        case inr hv => exact .inr hv
        case inl hv => exact (hv ▸ hg.free).symm.imp_left Eq.symm
      · contradiction
      · exact hr ▸ h

theorem appendEntries_abides (rf : Raft n C D) (args : AppendEntriesArgs n C)
    (compacted : Nat → Prop) :
    Ends (rf.Abides args.term compacted) Prod.fst (rf.appendEntries args) := by
  refine (rf.appendEntries_ends args).imp fun rf' h => ?_
  rcases h with ⟨ht, rfl⟩ | ⟨log, commitIndex, rfl⟩
  case inl => exact .refl ht.le
  case inr =>
    have hk := Keeps.followLeader rf args.term
    have hf : (rf.followLeader args.term).state = .follower ∧
        args.term ≤ (rf.followLeader args.term).currentTerm := by
      simp only [followLeader]
      split
      case isTrue    => exact ⟨rfl, le_rfl⟩
      case isFalse h => exact ⟨rfl, not_lt.mp h⟩
    exact .of_keeps { hk with } hf.right (fun _ => hf.left) fun hl =>
      absurd (hf.left.symm.trans hl) (by decide)

theorem sendRequestVote_abides (rf : Raft n C D) (q : Fin n) (term : Nat) (reply : RequestVoteReply)
    {compacted : Nat → Prop} :
    rf.Abides reply.term compacted (rf.sendRequestVote q term reply) := by
  by_cases ht : rf.currentTerm < reply.term
  case pos =>
    simp only [sendRequestVote, ht, if_true]
    exact .becomeFollower ht
  case neg =>
    have h : rf.Abides reply.term compacted rf := .refl (by omega)
    rcases sendRequestVote_cases q term reply with ⟨hr, _⟩ | hr | ⟨_, _, hl, hr | ⟨_, hr⟩⟩
    · contradiction
    all_goals rw [hr]
    · exact h
    · exact { h with }
    · exact { h with down := fun h => absurd h ht, log := fun h => absurd h hl }

-- A reply of a later term makes the caller a follower before anything else is looked at.
theorem answered_abides {term : Nat} {r} (h : Ends (rf.Answered term) id r)
    (ht : rf.currentTerm < term → r = .ok (rf.becomeFollower term)) {compacted : Nat → Prop} :
    Ends (rf.Abides term compacted) id r := by
  by_cases hl : rf.currentTerm < term
  case pos =>
    rw [ht hl]
    exact .becomeFollower hl
  case neg =>
    refine h.imp fun rf' h => ?_
    rcases h with ⟨h, _⟩ | ⟨_, _, _, rfl⟩
    · contradiction
    · exact { (.refl (not_lt.mp hl) : rf.Abides term compacted rf) with }

end Raft

namespace Server.Input

-- The term of a request or a reply.
def term : Input n C D → Nat
  | serve (.requestVote args)                => args.term
  | serve (.appendEntries args)              => args.term
  | serve (.installSnapshot args)            => args.term
  | returned _ _ (.requestVote reply)        => reply.term
  | returned _ _ (.appendEntries reply)      => reply.term
  | returned _ _ (.installSnapshot reply)    => reply.term
  | _                                        => 0

-- The indices that the service has compacted.
def Compacts : Input n C D → Nat → Prop
  | snapshot index _ => (· ≤ index)
  | _                => fun _ => False

end Server.Input

namespace Node

variable {nd nd' : Node n C D} {input : Input n C D}

-- An `InstallSnapshot` of a later term, or one that changes the log of a leader.
def Ignores (nd : Node n C D) : Input n C D → Prop
  | .serve (.installSnapshot args) =>
    (nd.rf.currentTerm < args.term) ∨
    (nd.rf.state = .leader ∧ nd.rf.currentTerm = args.term ∧
      nd.rf.snapshotLastIndex < args.lastIncludedIndex)
  | _ => False

instance {nd : Node n C D} : (input : Input n C D) → Decidable (nd.Ignores input)
  | .serve (.installSnapshot args) =>
    inferInstanceAs <| Decidable <|
      (nd.rf.currentTerm < args.term) ∨
      (nd.rf.state = .leader ∧ nd.rf.currentTerm = args.term ∧
        nd.rf.snapshotLastIndex < args.lastIncludedIndex)
  | .serve (.requestVote _) | .serve (.appendEntries _) | .start _ | .startElection | .heartbeat
  | .snapshot .. | .applyTicker | .receive | .returned .. | .failed _ | .restart => isFalse id

theorem conclude_abides {t : Nat} {compacted : Nat → Prop} {r}
    (h : Raft.Ends (nd.rf.Abides t compacted) id r) :
    nd.rf.Abides t compacted (nd.conclude r).rf := by
  cases r
  case ok rf   => exact h
  case error c =>
    exact { h.left with
      me   := rfl
      down := fun _ => ⟨nofun, nofun⟩
      log  := nofun }

theorem serve_abides (request : Request n C D) (hi : ¬nd.Ignores (.serve request))
    (compacted : Nat → Prop) :
    Raft.Ends (nd.rf.Abides (Input.serve request).term compacted) Prod.fst
      (nd.rf.serve request) := by
  cases request
  case requestVote args =>
    have h := nd.rf.requestVote_abides args compacted
    exact .bind (fun _ => h.error) fun _ => h.ok
  case appendEntries args =>
    have h := nd.rf.appendEntries_abides args compacted
    exact .bind (fun _ => h.error) fun _ => h.ok
  case installSnapshot args =>
    have ⟨ht, hl⟩ := not_or.mp hi
    have h : nd.rf.Abides args.term compacted nd.rf := .refl (not_lt.mp ht)
    have ⟨rf, hx, hr⟩ := nd.rf.installSnapshot_ok args
    suffices hs : nd.rf.Abides args.term compacted rf by
      simp only [Raft.serve, hx]
      exact hs
    rcases hr with ⟨rfl, _⟩ | ⟨ht', hb, rfl⟩
    · exact h
    · refine { h with log := fun hs => ?_ }
      exact absurd ⟨hs, le_antisymm ht' (not_lt.mp ht), hb⟩ hl

theorem returned_abides {q : Fin n} {request : Request n C D} {reply : Reply} {r}
    (h : nd.rf.returned q request reply = some r) (compacted : Nat → Prop) :
    Raft.Ends
      (nd.rf.Abides (Input.returned q request reply : Input n C D).term compacted) id r := by
  cases request <;> cases reply <;>
    simp only [Raft.returned, Option.some.injEq, reduceCtorEq] at h <;> subst h
  case requestVote.requestVote args reply => exact nd.rf.sendRequestVote_abides ..
  case appendEntries.appendEntries args reply =>
    exact Raft.answered_abides (nd.rf.sendEntries_ends q args reply) fun h => if_pos h
  case installSnapshot.installSnapshot args reply =>
    exact Raft.answered_abides (nd.rf.sendInstallSnapshot_ends q args reply) fun h => if_pos h

theorem applyTicker_abides {r} (h : nd.rf.applyTicker nd.applier = some r)
    (compacted : Nat → Prop) :
    Raft.Ends (nd.rf.Abides 0 compacted) Prod.fst r := by
  have hk := Raft.applyTicker_keeps h
  have hp := Raft.applyTicker_persist h
  cases r
  case error c =>
    exact ⟨.of_keeps hk.left (Nat.zero_le _) nofun fun _ => Raft.persist_log hp.left, hk.right⟩
  case ok r    => exact .of_keeps hk (Nat.zero_le _) nofun fun _ => Raft.persist_log hp

theorem restart_abides (h : nd.Saved) {compacted : Nat → Prop} :
    nd.rf.Abides 0 compacted (nd.restart nd.persister).rf := by
  have ⟨ht, hv⟩ := Raft.persist_vote h
  exact {
    me   := boot_me
    vote := .inr ⟨ht, .inl hv⟩
    term := Nat.zero_le _
    down := nofun
    log  := fun _ hl => nomatch boot_state.symm.trans hl }

theorem saved_conclude {r} : (nd.conclude r).Saved := by
  cases r
  case ok    => exact saved_finish
  case error => exact saved_boot

-- Everything that has to survive a crash is saved when the mutex is unlocked.
theorem next_saved (h : nd.Saved) (hn : nd.next input = some nd') : nd'.Saved := by
  cases input <;> simp only [next, Option.some.injEq] at hn
  case start | startElection | snapshot | serve => exact hn ▸ saved_conclude
  case restart                                  => exact hn ▸ saved_boot
  case heartbeat =>
    split_ifs at hn <;> cases hn
    · exact h
    · exact saved_boot
  case applyTicker =>
    obtain ⟨r, hr, hn⟩ := Option.map_eq_some_iff.mp hn
    have hm := (applyTicker_abides hr fun _ => False)
    have hp := Raft.applyTicker_persist hr
    subst hn
    cases r
    case error => exact saved_boot
    case ok r  =>
      have hm : r.fst.me = nd.rf.me := hm.me
      have hp : r.fst.persist = nd.rf.persist := hp
      simpa only [Saved, hm, hp] using h
  case receive =>
    split at hn <;> cases hn
    exact h
  case returned =>
    obtain ⟨r, _, hn⟩ := Option.map_eq_some_iff.mp hn
    exact hn ▸ saved_conclude
  case failed request =>
    cases request <;> cases hn
    · exact h
    · exact saved_finish
    · exact saved_finish

theorem next_abides (h : nd.Saved) (hn : nd.next input = some nd') (hi : ¬nd.Ignores input) :
    nd.rf.Abides input.term input.Compacts nd'.rf := by
  cases input <;> simp only [next, Option.some.injEq] at hn
  case start command         => exact hn ▸ conclude_abides (.map (nd.rf.start_abides command _))
  case startElection         => exact hn ▸ conclude_abides (.map (nd.rf.startElection_abides _))
  case snapshot index data   => exact hn ▸ conclude_abides (nd.rf.makeSnapshot_abides index data)
  case serve request         => exact hn ▸ conclude_abides (.map (serve_abides request hi _))
  case restart               => exact hn ▸ restart_abides h
  case heartbeat =>
    split_ifs at hn <;> cases hn
    · exact .refl (Nat.zero_le _)
    · exact restart_abides h
  case applyTicker =>
    have ⟨r, hr, hn⟩ := Option.map_eq_some_iff.mp hn
    have ha := applyTicker_abides hr (Input.applyTicker : Input n C D).Compacts
    subst hn
    cases r
    case error => exact restart_abides h
    case ok    => exact ha
  case receive =>
    split at hn <;> cases hn
    exact .refl (Nat.zero_le _)
  case returned q request reply =>
    have ⟨r, hr, hn⟩ := Option.map_eq_some_iff.mp hn
    exact hn ▸ conclude_abides (returned_abides hr _)
  case failed request =>
    cases request <;> cases hn <;> exact .refl (Nat.zero_le _)

-- The vote does not depend on the snapshots.
theorem next_vote (h : nd.Saved) (hn : nd.next input = some nd') :
    nd'.rf.me = nd.rf.me ∧ nd.rf.Votes nd'.rf := by
  by_cases hi : nd.Ignores input
  case neg =>
    have ha := next_abides h hn hi
    exact ⟨ha.me, ha.vote⟩
  case pos =>
    match input with
    | .serve (.installSnapshot args) =>
      have ⟨rf, hx, _⟩ := nd.rf.installSnapshot_ok args
      have hk := Raft.installSnapshot_keeps hx
      simp only [next, Raft.serve, hx, Option.some.injEq] at hn
      subst hn
      exact ⟨hk.me, hk.votes⟩

end Node

namespace Server

section

variable {me : Fin n} (b : (server C D me).Behavior)

theorem saved (i : Nat) : (b.state i).rf.me = me ∧ (b.state i).Saved := by
  refine b.invariant (I := fun nd => nd.rf.me = me ∧ nd.Saved) ⟨Node.boot_me, Node.saved_boot⟩ ?_ i
  intro i input nd' _ hn h
  exact ⟨(Node.next_vote h.right hn).left.trans h.left, Node.next_saved h.right hn⟩

end

-- Starting a server again with what it has saved loses nothing.
theorem crash_recovery (me : Fin n) (b : (server C D me).Behavior) (i : Nat) :
    let rf := Raft.make me (b.state i).persister
    (rf.currentTerm = (b.state i).rf.currentTerm) ∧ (rf.votedFor = (b.state i).rf.votedFor) ∧
    (rf.log = (b.state i).rf.log) ∧ (rf.snapshotLastIndex = (b.state i).rf.snapshotLastIndex) ∧
    (rf.snapshotLastTerm = (b.state i).rf.snapshotLastTerm) ∧
    (rf.snapshot = (b.state i).rf.snapshot) ∧
    (rf.commitIndex = rf.snapshotLastIndex) ∧ (rf.lastApplied = rf.snapshotLastIndex) ∧
    (rf.state ≠ .leader) := by
  obtain ⟨hm, hs⟩ := saved b i
  rw [Node.Saved, hm] at hs
  simp only [Raft.persist, Persister.mk.injEq, Option.some.injEq, RaftStateBytes.mk.injEq] at hs
  obtain ⟨⟨ht, hv, hl, hi, hx⟩, hd⟩ := hs
  obtain ⟨hc, ha⟩ := Raft.make_volatile me (b.state i).persister
  exact ⟨ht, hv, hl, hi, hx, hd, hc, ha,
    fun h => absurd ((Node.boot_state (k := 0)).symm.trans h) (by decide)⟩

theorem votes {me : Fin n} (b : (server C D me).Behavior) {i j : Nat} (h : i ≤ j) :
    (b.state i).rf.Votes (b.state j).rf :=
  b.rel_of_le (r := fun nd nd' => nd.rf.Votes nd'.rf) (fun _ => .inr ⟨rfl, .inl rfl⟩)
    (fun _ _ _ => .trans) (fun i _ _ _ hn => (Node.next_vote (saved b i).right hn).right) h

-- While a server leads, only its own service takes entries out of its log.
theorem leader_log {me : Fin n} (b : (server C D me).Behavior) (hb : b.Avoids Node.Ignores)
    {i j : Nat} (hij : i ≤ j) (hl : ∀ k, i ≤ k → k ≤ j → (b.state k).rf.state = .leader) {x : Nat}
    {e : LogEntry C} (he : (b.state i).rf.entry x = some e) :
    ((b.state j).rf.entry x = some e) ∨
    (∃ k index data, i ≤ k ∧ k < j ∧ b.label k = some (.snapshot index data) ∧ x ≤ index) := by
  induction hij
  case refl => exact .inl he
  case step j hij hi =>
    rcases hi fun k hk hk' => hl k hk (Nat.le_succ_of_le hk') with hi | ⟨k, index, data, h₁, h₂, h₃⟩
    case inr => exact .inr ⟨k, index, data, h₁, Nat.lt_succ_of_lt h₂, h₃⟩
    case inl =>
      rcases b.step_cases j with hs | ⟨input, ha, hs⟩
      case inl => exact .inl (hs ▸ hi)
      case inr =>
        have ha' := Node.next_abides (saved b j).right hs (hb j input ha)
        by_cases hx : input.Compacts x
        case neg =>
          exact .inl <|
            ha'.log (hl j hij (Nat.le_succ j)) (hl (j + 1) (Nat.le_succ_of_le hij) le_rfl) x e hx hi
        case pos =>
          match input with
          | .snapshot index data => exact .inr ⟨j, index, data, hij, Nat.lt_succ_self j, ha, hx⟩

theorem term_discipline :
    (∀ (nd nd' : Node n C D) (request : Request n C D), ¬nd.Ignores (.serve request) →
      nd.next (.serve request) = some nd' →
      (Input.serve request).term ≤ nd'.rf.currentTerm ∧
      (nd.rf.currentTerm < (Input.serve request).term →
        nd'.rf.state ≠ .leader ∧ nd'.rf.state ≠ .candidate)) ∧
    (∀ (nd nd' : Node n C D) (q : Fin n) (request : Request n C D) (reply : Reply),
      nd.next (.returned q request reply) = some nd' →
      (Input.returned q request reply : Input n C D).term ≤ nd'.rf.currentTerm ∧
      (nd.rf.currentTerm < (Input.returned q request reply : Input n C D).term →
        nd'.rf.state ≠ .leader ∧ nd'.rf.state ≠ .candidate)) ∧
    (∀ (me : Fin n) (b : (server C D me).Behavior), b.Avoids Node.Ignores → ∀ i j, i ≤ j →
      ((b.state i).rf.currentTerm ≤ (b.state j).rf.currentTerm) ∧
      ((b.state i).rf.currentTerm = (b.state j).rf.currentTerm →
        (b.state j).rf.votedFor = (b.state i).rf.votedFor ∨ (b.state i).rf.votedFor = none) ∧
      ((∀ k, i ≤ k → k ≤ j → (b.state k).rf.state = .leader) →
        ∀ x e, (b.state i).rf.entry x = some e →
          ((b.state j).rf.entry x = some e) ∨
          (∃ k index data, i ≤ k ∧ k < j ∧ b.label k = some (.snapshot index data) ∧
            x ≤ index))) := by
  refine ⟨fun nd nd' request hi hn => ?served, fun nd nd' q request reply hn => ?returned,
    fun me b hb i j hij => ⟨?term, ?vote, fun hl x e => leader_log b hb hij hl⟩⟩
  case served =>
    have ha := Node.conclude_abides (.map (Node.serve_abides request hi fun _ => False))
    obtain rfl := Option.some.inj hn
    exact ⟨ha.term, ha.down⟩
  case returned =>
    have ⟨r, hr, hn⟩ := Option.map_eq_some_iff.mp hn
    have ha := Node.conclude_abides (Node.returned_abides hr fun _ => False)
    subst hn
    exact ⟨ha.term, ha.down⟩
  case term =>
    rcases votes b hij with h | ⟨h, _⟩
    · exact h.le
    · exact h.ge
  case vote =>
    intro ht
    rcases votes b hij with h | ⟨_, h⟩
    · omega
    · exact h

-- A server is elected and adds two commands to its log.
def leading : (server Nat Unit (0 : Fin 3)).Behavior :=
  .ofActions (server Nat Unit 0) [
    .startElection, .returned 1 (.requestVote ⟨1, 0, 0, 0⟩) (.requestVote ⟨0, true⟩), .start 10,
    .start 11]
    (by decide +kernel)

theorem term_discipline_leading :
    ((leading.state 3).rf.state = .leader) ∧ ((leading.state 4).rf.state = .leader) ∧
    ((leading.state 4).rf.entry 1 = some ⟨1, some 10⟩) ∧
    (∀ nd, (leading.state 4).next (.serve (.requestVote ⟨2, 1, 0, 0⟩)) = some nd →
      nd.rf.state ≠ .leader) := by
  have h₃ : (leading.state 3).rf.state = .leader := by decide +kernel
  have h₄ : (leading.state 4).rf.state = .leader := by decide +kernel
  have hl k (h : 3 ≤ k) (h' : k ≤ 4) : (leading.state k).rf.state = .leader := by
    obtain rfl | rfl : k = 3 ∨ k = 4 := by omega
    · exact h₃
    · exact h₄
  have ⟨hs, _, hr⟩ := term_discipline (n := 3) (C := Nat) (D := Unit)
  have hb : leading.Avoids Node.Ignores := System.Behavior.avoids_ofActions (by decide +kernel)
  have he : (leading.state 3).rf.entry 1 = some ⟨1, some 10⟩ := by decide +kernel
  refine ⟨h₃, h₄, ?_, fun nd hn => ((hs _ nd _ id hn).right (by decide +kernel)).left⟩
  rcases (hr 0 leading hb 3 4 (by decide)).right.right hl 1 _ he with h | ⟨k, index, data, h, h',
    hk, _⟩
  · exact h
  · obtain rfl : k = 3 := by omega
    cases hk

end Server

-- The servers of a cluster

namespace Cluster

variable {s s' : Cluster n C D} {p q : Fin n}

-- The server takes the step for the input, if it concerns the server.
def Passes (s : Cluster n C D) (p : Fin n) (s' : Cluster n C D) (input : Option (Input n C D)) :
    Prop :=
  input.elim (s'.node p = s.node p) ((s.node p).next · = some (s'.node p))

theorem passes_update {nd : Node n C D} {msgs : List (Message n C D)} {input : Input n C D}
    (h : (s.node q).next input = some nd) :
    s.Passes p (s.update q nd msgs) (if q = p then some input else none) := by
  split_ifs with hq
  case pos =>
    subst hq
    simpa [Passes] using h
  case neg => simp [Passes, Ne.symm hq]

theorem start_passes {command : C} :
    s.Passes p (s.start q command) (if q = p then some (.start command) else none) := by
  simp only [start]
  split <;> exact passes_update (by simp_all [Node.next, Except.map, Node.conclude])

theorem startElection_passes :
    s.Passes p (s.startElection q) (if q = p then some .startElection else none) := by
  simp only [startElection]
  split <;> exact passes_update (by simp_all [Node.next, Except.map, Node.conclude])

theorem heartbeat_passes (h : s.heartbeat q = some s') :
    s.Passes p s' (if q = p then some .heartbeat else none) := by
  simp only [heartbeat] at h
  split_ifs at h with hl
  split at h <;> cases h <;>
    exact passes_update (by simp_all [Node.next, Except.isOk, Except.toBool])

theorem snapshot_passes {data : D} (h : s.snapshot q data = some s') :
    s.Passes p s' (if q = p then (s.node p).received.map (.snapshot · data) else none) := by
  have ⟨index, hi, h⟩ := Option.map_eq_some_iff.mp h
  have hp : s.Passes p s' (if q = p then some (.snapshot index data) else none) := by
    subst h
    split <;> exact passes_update (by simp_all [Node.next, Node.conclude])
  split_ifs at hp ⊢ with hq
  case pos =>
    subst hq
    rw [hi]
    exact hp
  case neg => exact hp

theorem applyTicker_passes (h : s.applyTicker q = some s') :
    s.Passes p s' (if q = p then some .applyTicker else none) := by
  have ⟨r, hr, h⟩ := Option.map_eq_some_iff.mp h
  subst h
  split <;> exact passes_update (by simp_all [Node.next])

theorem receive_passes (h : s.receive q = some s') :
    s.Passes p s' (if q = p then some .receive else none) := by
  simp only [receive] at h
  split at h <;> cases h
  exact passes_update (by simp_all [Node.next])

theorem serve_passes {call : Call n C D} :
    s.Passes p (s.serve call) (if call.callee = p then some (.serve call.request) else none) := by
  simp only [serve]
  split <;> exact passes_update (by simp_all [Node.next, Except.map, Node.conclude])

theorem returned_passes {call : Call n C D} {reply : Reply} (h : s.returned call reply = some s') :
    s.Passes p s'
      (if call.caller = p then some (.returned call.callee call.request reply) else none) := by
  simp only [returned] at h
  split_ifs at h
  obtain ⟨r, hr, h⟩ := Option.map_eq_some_iff.mp h
  subst h
  split <;> exact passes_update (by simp_all [Node.next, Node.conclude])

theorem failed_passes {call : Call n C D} (h : s.failed call = some s') :
    s.Passes p s' (if call.caller = p then some (.failed call.request) else none) := by
  simp only [failed] at h
  split_ifs at h
  cases hr : call.request <;> simp only [hr, Option.some.injEq] at h <;> subst h
  case requestVote => split_ifs <;> rfl
  all_goals exact passes_update rfl

theorem next_passes [DecidableEq C] [DecidableEq D] {a : Event n C D} (h : s.next a = some s')
    (p : Fin n) :
    s.Passes p s' (s.input p a) := by
  cases a <;> simp only [next] at h
  case start           => cases h; exact start_passes
  case startElection   => cases h; exact startElection_passes
  case heartbeat       => exact heartbeat_passes h
  case snapshot        => exact snapshot_passes h
  case applyTicker     => exact applyTicker_passes h
  case receive         => exact receive_passes h
  case restart         => cases h; exact passes_update rfl
  all_goals split at h <;> try cases h
  case serve.isTrue    => exact serve_passes
  case returned.isTrue => exact returned_passes h
  case failed.isTrue   => exact failed_passes h

end Cluster

namespace Execution

variable [DecidableEq C] [DecidableEq D]

-- Each server of a cluster is a server in an environment.
def view (e : Execution n C D) (p : Fin n) : (server C D p).Behavior where
  state i := (e.state i).node p
  label i := (e.label i).bind ((e.state i).input p)
  start   := by rw [e.start]; rfl
  step i  := by
    have h := e.step i
    cases ha : e.label i <;> simp only [ha, Option.elim] at h
    case none   => simp [h]
    case some a => exact Cluster.next_passes h p

-- Server 0 leads in term 3 and installs a snapshot of the leader of term 4. It still leads, and its
-- second entry is gone.
theorem term_ignored :
    ∃ (b : (server Nat Unit (0 : Fin 3)).Behavior) (i : Nat) (args : InstallSnapshotArgs 3 Unit),
      (b.label i = some (.serve (.installSnapshot args))) ∧
      (∀ k, i ≤ k → k ≤ i + 1 → (b.state k).rf.state = .leader) ∧
      ((b.state (i + 1)).rf.currentTerm < args.term) ∧
      ((b.state i).rf.entry 2 = some ⟨1, some 11⟩) ∧ ((b.state (i + 1)).rf.entry 2 = none) := by
  have hl (k : Fin 2) : ((truncated.view 0).state (22 + k)).rf.state = .leader := by
    revert k
    decide +kernel
  refine ⟨truncated.view 0, 22, ⟨4, 2, 1, 4, some ()⟩, by rfl, fun k h h' => ?_, by decide +kernel,
    by decide +kernel, by decide +kernel⟩
  obtain ⟨k, rfl⟩ := Nat.exists_eq_add_of_le h
  exact hl ⟨k, by omega⟩

end Execution
