import DistributedSystems.Raft.Handlers

namespace Raft

variable {n : Nat} {C D : Type} {rf rf' : Raft n C D}

theorem bind_ok {ε α β : Type} {x : Except ε α} {f : α → Except ε β} {b : β}
    (h : x >>= f = .ok b) : ∃ a, x = .ok a ∧ f a = .ok b := by
  cases x
  case error => cases h
  case ok a  => exact ⟨a, rfl, h⟩

theorem bind_error {ε α β : Type} {x : Except ε α} {f : α → Except ε β} {e : ε}
    (h : x >>= f = .error e) : x = .error e ∨ ∃ a, x = .ok a ∧ f a = .error e := by
  cases x
  case error => cases h; exact .inl rfl
  case ok a  => exact .inr ⟨a, rfl, h⟩

-- Slices

theorem logAt_ok {i : Int} {e} (h : rf.logAt i = .ok e) : 0 ≤ i ∧ rf.log[i.toNat]? = some e := by
  unfold logAt at h
  split at h
  case isTrue => cases h
  case isFalse hi =>
    refine ⟨by omega, ?_⟩
    cases hg : rf.log[i.toNat]? <;> simp only [hg, Option.elim] at h <;> cases h
    rfl

theorem logAt_error {i : Int} {c} (h : rf.logAt i = .error c) :
    c = { rf } ∧ (i < 0 ∨ rf.log.length ≤ i.toNat) := by
  unfold logAt at h
  split at h
  case isTrue hi => cases h; exact ⟨rfl, .inl hi⟩
  case isFalse hi =>
    cases hg : rf.log[i.toNat]? <;> simp only [hg, Option.elim] at h <;> cases h
    exact ⟨rfl, .inr <| List.getElem?_eq_none_iff.mp hg⟩

theorem logFrom_error {i : Int} {c} (h : rf.logFrom i = .error c) :
    c = { rf } ∧ ¬(0 ≤ i ∧ i ≤ rf.log.length) := by
  unfold logFrom at h
  split at h <;> cases h
  case isFalse hi => exact ⟨rfl, hi⟩

theorem logTo_error {i : Int} {c} (h : rf.logTo i = .error c) :
    c = { rf } ∧ ¬(0 ≤ i ∧ i ≤ rf.log.length) := by
  unfold logTo at h
  split at h <;> cases h
  case isFalse hi => exact ⟨rfl, hi⟩

theorem logAt_of_getElem? {i : Nat} {e} (hi : rf.snapshotLastIndex ≤ i)
    (h : rf.log[i - rf.snapshotLastIndex]? = some e) :
    rf.logAt (rf.absoluteIndexToLogIndex i) = .ok e := by
  have hx : (rf.absoluteIndexToLogIndex i).toNat = i - rf.snapshotLastIndex := by
    simp only [absoluteIndexToLogIndex]; omega
  have hn : ¬rf.absoluteIndexToLogIndex i < 0 := by simp only [absoluteIndexToLogIndex]; omega
  simp only [logAt, hn, if_false, hx, h, Option.elim]

theorem logAt_getElem? {i : Nat} {e} (h : rf.logAt (rf.absoluteIndexToLogIndex i) = .ok e) :
    rf.snapshotLastIndex ≤ i ∧ rf.log[i - rf.snapshotLastIndex]? = some e := by
  have ⟨h₁, h₂⟩ := logAt_ok h
  simp only [absoluteIndexToLogIndex] at h₁ h₂
  exact ⟨by omega, by rw [←h₂]; congr 1; omega⟩

theorem absoluteIndexToLogIndex_succ (rf : Raft n C D) {i : Nat} (hi : rf.snapshotLastIndex ≤ i) :
    rf.absoluteIndexToLogIndex i + 1 = (i + 1 - rf.snapshotLastIndex : Nat) := by
  simp only [absoluteIndexToLogIndex]
  omega

theorem logFrom_of_le (rf : Raft n C D) {i : Int} {k : Nat} (hi : i = k) (hl : k ≤ rf.log.length) :
    rf.logFrom i = .ok (rf.log.drop k) := by
  subst hi
  exact if_pos ⟨Int.natCast_nonneg k, Int.ofNat_le.mpr hl⟩

theorem logTo_of_le (rf : Raft n C D) {i : Int} {k : Nat} (hi : i = k) (hl : k ≤ rf.log.length) :
    rf.logTo i = .ok (rf.log.take k) := by
  subst hi
  exact if_pos ⟨Int.natCast_nonneg k, Int.ofNat_le.mpr hl⟩

theorem trimLogFrom_ok {i term : Nat} (hi : rf.snapshotLastIndex ≤ i) (hl : i < rf.logLength) :
    rf.trimLogFrom i term = .ok { rf with
      log := ⟨term, none⟩ :: rf.log.drop (i + 1 - rf.snapshotLastIndex) } := by
  have h := rf.logFrom_of_le (rf.absoluteIndexToLogIndex_succ hi)
    (by simp only [logLength] at hl; omega)
  simp only [trimLogFrom, h]
  rfl

theorem makeSnapshot_of_logAt {i : Nat} {e} (hi : rf.snapshotLastIndex < i)
    (he : rf.logAt (rf.absoluteIndexToLogIndex i) = .ok e) (data : D) :
    rf.makeSnapshot i data = .ok { rf with
      log               := ⟨e.term, none⟩ :: rf.log.drop (i + 1 - rf.snapshotLastIndex)
      snapshotLastTerm  := e.term
      snapshot          := some data
      snapshotLastIndex := i } := by
  have hl : i < rf.logLength := by
    have hl := (List.getElem?_eq_some_iff.mp (logAt_getElem? he).right).choose
    simp only [logLength]
    omega
  simp only [makeSnapshot, not_le.mpr hi, if_false, he, bind, Except.bind]
  rw [trimLogFrom_ok (by exact hi.le) (by exact hl)]
  rfl

-- The state after a snapshot of the service.
theorem makeSnapshot_ok {i : Nat} {data : D} {rf'} (h : rf.makeSnapshot i data = .ok rf') :
    (i ≤ rf.snapshotLastIndex ∧ rf' = rf) ∨
    (rf.snapshotLastIndex < i ∧ ∃ e, rf.log[i - rf.snapshotLastIndex]? = some e ∧
      rf' = { rf with
        log               := ⟨e.term, none⟩ :: rf.log.drop (i + 1 - rf.snapshotLastIndex)
        snapshotLastTerm  := e.term
        snapshot          := some data
        snapshotLastIndex := i }) := by
  by_cases hi : i ≤ rf.snapshotLastIndex
  case pos =>
    cases (if_pos hi).symm.trans h
    exact .inl ⟨hi, rfl⟩
  case neg =>
    have ⟨e, he, _⟩ := bind_ok <| (if_neg hi).symm.trans h
    cases (makeSnapshot_of_logAt (not_le.mp hi) he data).symm.trans h
    exact .inr ⟨not_le.mp hi, e, (logAt_getElem? he).right, rfl⟩

theorem makeSnapshot_error {i : Nat} {data : D} {c} (h : rf.makeSnapshot i data = .error c) :
    c = { rf } := by
  by_cases hi : i ≤ rf.snapshotLastIndex
  case pos => cases (if_pos hi).symm.trans h
  case neg =>
    cases bind_error <| (if_neg hi).symm.trans h
    case inl he => exact (logAt_error he).left
    case inr he =>
      have ⟨e, he, _⟩ := he
      cases (makeSnapshot_of_logAt (not_le.mp hi) he data).symm.trans h

-- The log of a server that installs a snapshot which ends in index `i` and term `t`.
def compactedLog (rf : Raft n C D) (i t : Nat) : List (LogEntry C) :=
  if rf.log[i - rf.snapshotLastIndex]?.map (·.term) = some t
  then ⟨t, none⟩ :: rf.log.drop (i + 1 - rf.snapshotLastIndex)
  else [⟨t, none⟩]

theorem installLog_ok {args : InstallSnapshotArgs n D}
    (h : rf.snapshotLastIndex < args.lastIncludedIndex) :
    rf.installLog args = .ok { rf with
      log := rf.compactedLog args.lastIncludedIndex args.lastIncludedTerm } := by
  have hx : (rf.absoluteIndexToLogIndex args.lastIncludedIndex).toNat
      = args.lastIncludedIndex - rf.snapshotLastIndex := by
    simp only [absoluteIndexToLogIndex]; omega
  simp only [installLog, hx, compactedLog]
  by_cases ht : rf.log[args.lastIncludedIndex - rf.snapshotLastIndex]?.map (·.term)
    = some args.lastIncludedTerm
  case neg => simp [ht]
  case pos =>
    have ⟨e, he, _⟩ := Option.map_eq_some_iff.mp ht
    have hl := (List.getElem?_eq_some_iff.mp he).choose
    rw [if_pos ⟨by simp only [absoluteIndexToLogIndex]; omega, ht⟩, if_pos ht,
      trimLogFrom_ok h.le (by simp only [logLength]; omega)]

-- `InstallSnapshot` never panics.
theorem installSnapshot_ok (rf : Raft n C D) (args : InstallSnapshotArgs n D) :
    ∃ rf', rf.installSnapshot args = .ok (rf', { term := rf.currentTerm }) ∧
      ((rf' = rf ∧ (args.term < rf.currentTerm ∨ args.lastIncludedIndex ≤ rf.snapshotLastIndex)) ∨
      (rf.currentTerm ≤ args.term ∧ rf.snapshotLastIndex < args.lastIncludedIndex ∧
        rf' = { rf with
          log               := rf.compactedLog args.lastIncludedIndex args.lastIncludedTerm
          commitIndex       := max rf.commitIndex args.lastIncludedIndex
          snapshotLastIndex := args.lastIncludedIndex
          snapshotLastTerm  := args.lastIncludedTerm
          snapshot          := args.data
          isSnapshotApplied := false })) := by
  simp only [installSnapshot]
  split
  case isTrue h => exact ⟨_, rfl, .inl ⟨rfl, .inl h⟩⟩
  split
  case isTrue h => exact ⟨_, rfl, .inl ⟨rfl, .inr h⟩⟩
  case isFalse ht hi =>
    rw [installLog_ok (by omega)]
    exact ⟨_, rfl, .inr ⟨by omega, by omega, rfl⟩⟩

-- Steps that leave the election alone

-- What all handlers but those of the election have in common.
structure Keeps (rf rf' : Raft n C D) : Prop where
  me                : rf'.me = rf.me
  majorityThreshold : rf'.majorityThreshold = rf.majorityThreshold
  votesReceived     : rf'.votesReceived = rf.votesReceived
  vote              : rf.currentTerm < rf'.currentTerm ∨
    (rf'.currentTerm = rf.currentTerm ∧ rf'.votedFor = rf.votedFor)
  leader            : rf'.state = .leader → rf.state = .leader ∧ rf'.currentTerm = rf.currentTerm

namespace Keeps

theorem refl (rf : Raft n C D) : rf.Keeps rf where
  me                := rfl
  majorityThreshold := rfl
  votesReceived     := rfl
  vote              := .inr ⟨rfl, rfl⟩
  leader h          := ⟨h, rfl⟩

theorem becomeFollower {term : Nat} (h : rf.currentTerm < term) :
    rf.Keeps (rf.becomeFollower term) where
  me                := rfl
  majorityThreshold := rfl
  votesReceived     := rfl
  vote              := .inl h
  leader h          := by cases h

theorem followLeader (rf : Raft n C D) (term : Nat) : rf.Keeps (rf.followLeader term) := by
  simp only [Raft.followLeader]
  split
  case isTrue h  => exact { becomeFollower h with }
  case isFalse h => exact { refl rf with leader := nofun }

theorem trans {rf₁ rf₂ rf₃ : Raft n C D} (k₁ : rf₁.Keeps rf₂) (k₂ : rf₂.Keeps rf₃) :
    rf₁.Keeps rf₃ where
  me                := k₂.me.trans k₁.me
  majorityThreshold := k₂.majorityThreshold.trans k₁.majorityThreshold
  votesReceived     := k₂.votesReceived.trans k₁.votesReceived
  vote              := by
    cases k₁.vote <;> cases k₂.vote
    case inl.inl h₁ h₂ => exact .inl <| h₁.trans h₂
    case inl.inr h₁ h₂ => exact .inl <| h₂.left ▸ h₁
    case inr.inl h₁ h₂ => exact .inl <| h₁.left ▸ h₂
    case inr.inr h₁ h₂ => exact .inr ⟨h₂.left.trans h₁.left, h₂.right.trans h₁.right⟩
  leader h          :=
    have ⟨h₁, h₂⟩ := k₂.leader h
    have ⟨h₃, h₄⟩ := k₁.leader h₁
    ⟨h₃, h₂.trans h₄⟩

end Keeps

-- Both the result of a handler and the state at its panic, if it panics, satisfy `P`. No handler
-- panics after it has asked for votes.
def Ends {α : Type} (P : Raft n C D → Prop) (f : α → Raft n C D) : Except (Crash n C D) α → Prop
  | .ok a    => P (f a)
  | .error c => P c.rf ∧ ∀ q args, (q, .requestVote args) ∉ c.sent

theorem Ends.bind {α β : Type} {P : Raft n C D → Prop} {f : β → Raft n C D}
    {x : Except (Crash n C D) α} {k : α → Except (Crash n C D) β}
    (he : ∀ c, x = .error c → P c.rf ∧ ∀ q args, (q, .requestVote args) ∉ c.sent)
    (hk : ∀ a, x = .ok a → Ends P f (k a)) : Ends P f (x >>= k) := by
  cases x
  case error c => exact he c rfl
  case ok a    => exact hk a rfl

theorem Ends.ok {α : Type} {P : Raft n C D → Prop} {f : α → Raft n C D} {a}
    {x : Except (Crash n C D) α} (h : Ends P f x) (hx : x = .ok a) : P (f a) := by
  subst hx
  exact h

theorem Ends.error {α : Type} {P : Raft n C D → Prop} {f : α → Raft n C D} {c}
    {x : Except (Crash n C D) α} (h : Ends P f x) (hx : x = .error c) :
    P c.rf ∧ ∀ q args, (q, .requestVote args) ∉ c.sent := by
  subst hx
  exact h

theorem Ends.imp {α : Type} {P Q : Raft n C D → Prop} {f : α → Raft n C D}
    {x : Except (Crash n C D) α} (hi : ∀ r, P r → Q r) (h : Ends P f x) : Ends Q f x := by
  cases x
  case error c => exact h.imp_left (hi _)
  case ok a    => exact hi _ h

theorem Ends.map {α β : Type} {P : Raft n C D → Prop} {f : β → Raft n C D} {g : α → β}
    {x : Except (Crash n C D) α} (h : Ends P (f ∘ g) x) : Ends P f (x.map g) := by
  cases x <;> exact h

theorem trimLogFrom_ends (rf : Raft n C D) (index term : Nat) :
    Ends (∃ log, · = { rf with log }) id (rf.trimLogFrom index term) := by
  apply Ends.bind
  case he => intro c hc; rw [(logFrom_error hc).left]; exact ⟨⟨rf.log, rfl⟩, nofun⟩
  case hk => intro l _; exact ⟨_, rfl⟩

theorem updateCommitIndex_ends :
    Ends (∃ commitIndex, · = { rf with commitIndex }) id rf.updateCommitIndex := by
  apply Ends.bind
  case he => intro c hc; rw [(logAt_error hc).left]; exact ⟨⟨rf.commitIndex, rfl⟩, nofun⟩
  case hk =>
    intro e _
    simp only [Ends, pure, Except.pure, id]
    split
    · exact ⟨_, rfl⟩
    · exact ⟨rf.commitIndex, rfl⟩

theorem mergeEntries_ends (rf : Raft n C D) (logPointer : Nat) (entries : List (LogEntry C)) :
    Ends (∃ log, · = { rf with log }) id (rf.mergeEntries logPointer entries) := by
  induction entries generalizing logPointer <;> simp only [mergeEntries]
  case nil => exact ⟨rf.log, rfl⟩
  case cons e es hi =>
    split
    case isFalse => exact ⟨_, rfl⟩
    case isTrue =>
      apply Ends.bind
      case he => intro c hc; rw [(logAt_error hc).left]; exact ⟨⟨rf.log, rfl⟩, nofun⟩
      case hk =>
        intro old _
        split
        case isFalse => exact hi _
        case isTrue =>
          apply Ends.bind
          case he => intro c hc; rw [(logTo_error hc).left]; exact ⟨⟨rf.log, rfl⟩, nofun⟩
          case hk => intro l _; exact ⟨_, rfl⟩

theorem makeSnapshot_keeps (rf : Raft n C D) (index : Nat) (data : D) :
    Ends rf.Keeps id (rf.makeSnapshot index data) := by
  unfold makeSnapshot
  split
  case isTrue => exact .refl rf
  case isFalse =>
    apply Ends.bind
    case he => intro c hc; rw [(logAt_error hc).left]; exact ⟨.refl rf, nofun⟩
    case hk =>
      intro e _
      have h := trimLogFrom_ends { rf with snapshotLastTerm := e.term, snapshot := some data }
      apply Ends.bind
      case he =>
        intro c hc; have ⟨⟨_, h⟩, hs⟩ := (h ..).error hc; rw [h]; exact ⟨{ Keeps.refl rf with }, hs⟩
      case hk =>
        intro r hr; have ⟨_, h⟩ :=
          (h ..).ok hr; simp only [id] at h; subst h; exact { Keeps.refl rf with }

theorem buildFailedReply_error {i : Int} {reply c} (h : rf.buildFailedReply i reply = .error c) :
    c = { rf } := by
  cases bind_error h
  case inl h => exact (logAt_error h).left
  case inr h => have ⟨_, _, h⟩ := h; cases h

-- A request that is not refused for its term at most replaces the log and the commit index.
theorem appendEntries_ends (rf : Raft n C D) (args : AppendEntriesArgs n C) :
    Ends (fun rf' => (args.term < rf.currentTerm ∧ rf' = rf) ∨
      ∃ log commitIndex, rf' = { rf.followLeader args.term with log, commitIndex })
      Prod.fst (rf.appendEntries args) := by
  simp only [appendEntries]
  split
  case isTrue h => exact .inl ⟨h, rfl⟩
  case isFalse =>
    generalize rf.followLeader args.term = g
    have hg : (args.term < rf.currentTerm ∧ g = rf) ∨
        ∃ log commitIndex, g = { g with log, commitIndex } := .inr ⟨_, _, rfl⟩
    split
    case isTrue =>
      apply Ends.bind
      case he => intro c hc; rw [buildFailedReply_error hc]; exact ⟨hg, nofun⟩
      case hk => intro r _; exact hg
    case isFalse =>
      split
      case isTrue => exact hg
      case isFalse =>
        apply Ends.bind
        case he => intro c hc; rw [(logAt_error hc).left]; exact ⟨hg, nofun⟩
        case hk =>
          intro e _
          split
          case isTrue =>
            apply Ends.bind
            case he => intro c hc; rw [buildFailedReply_error hc]; exact ⟨hg, nofun⟩
            case hk => intro r _; exact hg
          case isFalse =>
            have hm := mergeEntries_ends g (args.prevLogIndex + 1) args.entries
            apply Ends.bind
            case he =>
              intro c hc
              have ⟨⟨_, h⟩, hs⟩ := hm.error hc
              exact ⟨.inr ⟨_, _, h⟩, hs⟩
            case hk =>
              intro r hr
              have ⟨_, h⟩ := hm.ok hr
              simp only [id] at h
              subst h
              simp only [Ends, pure, Except.pure, followCommit]
              split <;> exact .inr ⟨_, _, rfl⟩

theorem appendEntries_keeps (rf : Raft n C D) (args : AppendEntriesArgs n C) :
    Ends rf.Keeps Prod.fst (rf.appendEntries args) := by
  refine (rf.appendEntries_ends args).imp fun _ h => ?_
  cases h
  case inl h => exact h.right ▸ .refl rf
  case inr h =>
    have ⟨_, _, h⟩ := h
    exact h ▸ { Keeps.followLeader rf args.term with }

theorem installSnapshot_keeps {args : InstallSnapshotArgs n D} {reply}
    (h : rf.installSnapshot args = .ok (rf', reply)) : rf.Keeps rf' := by
  have ⟨_, hx, hr⟩ := rf.installSnapshot_ok args
  cases hx.symm.trans h
  cases hr
  case inl hr => exact hr.left ▸ .refl rf
  case inr hr => exact hr.right.right ▸ { Keeps.refl rf with }

-- What the caller does with a reply to `AppendEntries` or `InstallSnapshot`.
def Answered (rf : Raft n C D) (term : Nat) (rf' : Raft n C D) : Prop :=
  (rf.currentTerm < term ∧ rf' = rf.becomeFollower term) ∨
  (∃ nextIndex matchIndex commitIndex, rf' = { rf with nextIndex, matchIndex, commitIndex })

theorem Answered.refl (rf : Raft n C D) (term : Nat) : rf.Answered term rf :=
  .inr ⟨_, _, _, rfl⟩

theorem Answered.keeps {term : Nat} (h : rf.Answered term rf') : rf.Keeps rf' := by
  cases h
  case inl h => exact h.right ▸ .becomeFollower h.left
  case inr h =>
    have ⟨_, _, _, h⟩ := h
    exact h ▸ { Keeps.refl rf with }

theorem sendEntries_ends (rf : Raft n C D) (q : Fin n) (args : AppendEntriesArgs n C)
    (reply : AppendEntriesReply) :
    Ends (rf.Answered reply.term) id (rf.sendEntries q args reply) := by
  simp only [sendEntries]
  split
  case isTrue h => exact .inl ⟨h, rfl⟩
  split
  case isTrue => exact .refl rf _
  split
  case isTrue => exact .inr ⟨_, _, _, rfl⟩
  exact updateCommitIndex_ends.imp fun _ ⟨_, h⟩ => .inr ⟨_, _, _, h⟩

theorem sendInstallSnapshot_ends (rf : Raft n C D) (q : Fin n) (args : InstallSnapshotArgs n D)
    (reply : InstallSnapshotReply) :
    Ends (rf.Answered reply.term) id (rf.sendInstallSnapshot q args reply) := by
  simp only [sendInstallSnapshot]
  split
  case isTrue h => exact .inl ⟨h, rfl⟩
  split
  case isTrue => exact .refl rf _
  exact updateCommitIndex_ends.imp fun _ ⟨_, h⟩ => .inr ⟨_, _, _, h⟩

theorem sendTo_ne_requestVote {q request} (h : rf.sendTo q = .ok request) :
    ∀ args, request ≠ .requestVote args := by
  simp only [sendTo] at h
  split at h
  case isTrue =>
    have ⟨_, _, h⟩ := bind_ok h
    have ⟨_, _, h⟩ := bind_ok h
    cases h
    exact nofun
  case isFalse => cases h; exact nofun

-- Whether or not the loop panics, all that it sends comes from `sendTo`.
theorem startSendEntries_go_ends (rf : Raft n C D) (qs : List (Fin n))
    (sent : List (Fin n × Request n C D))
    (hs : ∀ q request, (q, request) ∈ sent → q ≠ rf.me ∧ rf.sendTo q = .ok request)
    (hq : ∀ q ∈ qs, q ≠ rf.me) :
    match startSendEntries.go rf qs sent with
    | .ok sent => ∀ q request, (q, request) ∈ sent → q ≠ rf.me ∧ rf.sendTo q = .ok request
    | .error c => c.rf = rf ∧
      (∀ q request, (q, request) ∈ c.sent → q ≠ rf.me ∧ rf.sendTo q = .ok request) ∧
      ∃ q c', q ≠ rf.me ∧ rf.sendTo q = .error c' := by
  induction qs generalizing sent <;> simp only [startSendEntries.go]
  case nil => exact hs
  case cons q qs hi =>
    cases hx : rf.sendTo q
    case error c => exact ⟨rfl, hs, q, c, hq q (List.mem_cons_self ..), hx⟩
    case ok r =>
      refine hi _ (fun q' r' h => ?_) fun q' h => hq q' (List.mem_cons_of_mem _ h)
      cases List.mem_append.mp h
      case inl h => exact hs q' r' h
      case inr h =>
        simp only [List.mem_singleton, Prod.mk.injEq] at h
        exact h.left ▸ h.right ▸ ⟨hq q (List.mem_cons_self ..), hx⟩

theorem startSendEntries_ok {sent} (h : rf.startSendEntries = .ok sent) {q request}
    (hm : (q, request) ∈ sent) : q ≠ rf.me ∧ rf.sendTo q = .ok request := by
  have hs := startSendEntries_go_ends rf ((List.finRange n).filter (· ≠ rf.me)) [] nofun (by simp)
  rw [startSendEntries] at h
  rw [h] at hs
  exact hs q request hm

theorem startSendEntries_error {c} (h : rf.startSendEntries = .error c) :
    c.rf = rf ∧ (∀ q request, (q, request) ∈ c.sent → q ≠ rf.me ∧ rf.sendTo q = .ok request) ∧
      ∃ q c', q ≠ rf.me ∧ rf.sendTo q = .error c' := by
  have hs := startSendEntries_go_ends rf ((List.finRange n).filter (· ≠ rf.me)) [] nofun (by simp)
  rw [startSendEntries] at h
  rw [h] at hs
  exact hs

-- The state of a leader that has added a command to its log.
def extended (rf : Raft n C D) (command : C) : Raft n C D :=
  { rf with
    log        := rf.log ++ [⟨rf.currentTerm, some command⟩]
    matchIndex := Function.update rf.matchIndex rf.me rf.logLength }

theorem start_leader (hl : rf.state = .leader) (command : C) :
    rf.start command = (rf.extended command).startSendEntries >>= fun sent =>
      .ok (rf.extended command, sent, rf.logLength, rf.currentTerm, true) := by
  have hlen : rf.log.length + 1 + rf.snapshotLastIndex - 1 = rf.logLength := by
    simp only [logLength]
    omega
  simp only [start, hl, ne_eq, not_true_eq_false, if_false]
  simp only [logLength, List.length_append, List.length_singleton]
  rw [hlen, ←hl]
  rfl

theorem start_ends (rf : Raft n C D) (command : C) :
    Ends (fun rf' => ∃ log matchIndex, rf' = { rf with log, matchIndex }) Prod.fst
      (rf.start command) := by
  simp only [start]
  split
  case isTrue => exact ⟨_, _, rfl⟩
  apply Ends.bind
  case he =>
    intro c hc
    have ⟨h, hs, _⟩ := startSendEntries_error hc
    exact ⟨⟨_, _, h⟩, fun q args h => sendTo_ne_requestVote (hs q _ h).right args rfl⟩
  case hk => intro sent _; exact ⟨_, _, rfl⟩

theorem start_keeps (rf : Raft n C D) (command : C) : Ends rf.Keeps Prod.fst (rf.start command) :=
  (rf.start_ends command).imp fun _ ⟨_, _, h⟩ => h ▸ { Keeps.refl rf with }

theorem start_ne_requestVote {command : C} {sent out} (h : rf.start command = .ok (rf', sent, out))
    {q request} (hm : (q, request) ∈ sent) : ∀ args, request ≠ .requestVote args := by
  simp only [start] at h
  split at h
  case isTrue => cases h; cases hm
  case isFalse =>
    have ⟨_, hx, h⟩ := bind_ok h
    cases h
    exact sendTo_ne_requestVote (startSendEntries_ok hx hm).right

theorem applyCommands_keeps : Ends rf.Keeps Prod.fst rf.applyCommands := by
  unfold applyCommands
  split
  case isFalse => exact .refl rf
  apply Ends.bind
  case he => intro c hc; rw [(logAt_error hc).left]; exact ⟨{ Keeps.refl rf with }, nofun⟩
  case hk => intro e _; exact { Keeps.refl rf with }

theorem applySnapshots_keeps : Ends rf.Keeps Prod.fst rf.applySnapshots := by
  unfold applySnapshots
  split
  case isTrue  => exact { Keeps.refl rf with }
  case isFalse => exact applyCommands_keeps

theorem applyTicker_keeps {applier : Applier C D} {r} (h : rf.applyTicker applier = some r) :
    Ends rf.Keeps Prod.fst r := by
  unfold applyTicker at h
  split at h <;> cases h
  case _ => exact applySnapshots_keeps
  case _ =>
    refine applySnapshots_keeps.imp fun _ h => Keeps.trans ?_ h
    split
    · exact { Keeps.refl rf with }
    · exact .refl rf
  case _ =>
    split
    · exact .refl rf
    · exact applyCommands_keeps

theorem applyCommands_persist : Ends (·.persist = rf.persist) Prod.fst rf.applyCommands := by
  unfold applyCommands
  split
  case isFalse => rfl
  apply Ends.bind
  case he => intro c hc; rw [(logAt_error hc).left]; exact ⟨rfl, nofun⟩
  case hk => intro e _; rfl

theorem applySnapshots_persist : Ends (·.persist = rf.persist) Prod.fst rf.applySnapshots := by
  unfold applySnapshots
  split
  case isTrue  => rfl
  case isFalse => exact applyCommands_persist

theorem applyTicker_persist {applier : Applier C D} {r} (h : rf.applyTicker applier = some r) :
    Ends (·.persist = rf.persist) Prod.fst r := by
  unfold applyTicker at h
  split at h <;> cases h
  case _ => exact applySnapshots_persist
  case _ =>
    refine applySnapshots_persist.imp fun _ h => h.trans ?_
    split <;> rfl
  case _ =>
    split
    · rfl
    · exact applyCommands_persist

-- The election

-- The state in which a vote is decided.
def observe (rf : Raft n C D) (term : Nat) : Raft n C D :=
  if rf.currentTerm < term then rf.becomeFollower term else rf

theorem Keeps.observe (rf : Raft n C D) (term : Nat) : rf.Keeps (rf.observe term) := by
  unfold Raft.observe
  split
  case isTrue h => exact .becomeFollower h
  case isFalse  => exact .refl rf

theorem observe_currentTerm {term : Nat} (h : rf.currentTerm ≤ term) :
    (rf.observe term).currentTerm = term := by
  unfold observe
  split
  case isTrue  => rfl
  case isFalse => omega

theorem observe_leader {term : Nat} (h : (rf.observe term).state = .leader) :
    rf.observe term = rf := by
  unfold observe at h ⊢
  split at h
  case isTrue     => cases h
  case isFalse hn => exact if_neg hn

theorem observe_self {term : Nat} (h : rf.currentTerm = term) : rf.observe term = rf :=
  if_neg (by omega)

structure Grants (rf : Raft n C D) (args : RequestVoteArgs n) (rf' : Raft n C D) : Prop where
  term   : rf.currentTerm ≤ args.term
  free   : (rf.observe args.term).votedFor = none ∨
    (rf.observe args.term).votedFor = some args.candidateId
  recent : ∃ e, rf.log.getLast? = some e ∧ rf.myLogOlder e.term args = false
  result : rf' = { rf.observe args.term with votedFor := some args.candidateId }

theorem observe_log (rf : Raft n C D) (term : Nat) : (rf.observe term).log = rf.log := by
  unfold observe
  split <;> rfl

theorem myLogOlder_observe (rf : Raft n C D) (term last : Nat) (args : RequestVoteArgs n) :
    (rf.observe term).myLogOlder last args = rf.myLogOlder last args := by
  unfold observe
  split <;> rfl

theorem logAt_last {e} (h : rf.logAt (rf.log.length - 1) = .ok e) : rf.log.getLast? = some e := by
  have ⟨_, h⟩ := logAt_ok h
  rw [List.getLast?_eq_getElem?, ←h]
  congr 1
  omega

theorem requestVote_ok {args : RequestVoteArgs n} {reply}
    (h : rf.requestVote args = .ok (rf', reply)) :
    reply.term = rf.currentTerm ∧
    ((reply.voteGranted = true ∧ rf.Grants args rf') ∨
      (reply.voteGranted = false ∧
        ((args.term < rf.currentTerm ∧ rf' = rf) ∨
          (rf.currentTerm ≤ args.term ∧ rf' = rf.observe args.term)))) := by
  simp only [requestVote] at h
  split at h
  case isTrue ht => cases h; exact ⟨rfl, .inr ⟨rfl, .inl ⟨ht, rfl⟩⟩⟩
  case isFalse ht =>
    rw [show (if rf.currentTerm < args.term then rf.becomeFollower args.term else rf)
      = rf.observe args.term from rfl] at h
    have ⟨e, he, h⟩ := bind_ok h
    split at h <;> cases h
    case isFalse => exact ⟨rfl, .inr ⟨rfl, .inr ⟨by omega, rfl⟩⟩⟩
    case isTrue hg =>
      refine ⟨rfl, .inl ⟨rfl, by omega, hg.left, ⟨e, ?_, ?_⟩, rfl⟩⟩
      · rw [←observe_log rf args.term]; exact logAt_last he
      · simpa only [myLogOlder_observe, Bool.not_eq_true'] using hg.right

theorem requestVote_error {args : RequestVoteArgs n} {c} (h : rf.requestVote args = .error c) :
    (rf.observe args.term).logAt ((rf.observe args.term).log.length - 1) = .error c := by
  simp only [requestVote] at h
  split at h
  case isTrue => cases h
  case isFalse ht =>
    rw [show (if rf.currentTerm < args.term then rf.becomeFollower args.term else rf)
      = rf.observe args.term from rfl] at h
    cases bind_error h
    case inl h => exact h
    case inr h =>
      have ⟨_, _, h⟩ := h
      split at h <;> cases h

-- A server that has just voted for itself.
def candidacy (rf : Raft n C D) : Raft n C D :=
  { rf with
    currentTerm   := rf.currentTerm + 1
    state         := .candidate
    votedFor      := rf.me
    votesReceived := Function.update (fun _ => false) rf.me true }

def candidacyArgs (rf : Raft n C D) (last : LogEntry C) : RequestVoteArgs n where
  term         := rf.currentTerm + 1
  candidateId  := rf.me
  lastLogIndex := rf.logLength - 1
  lastLogTerm  := last.term

theorem startElection_ok {sent} (h : rf.startElection = .ok (rf', sent)) :
    rf' = rf.candidacy ∧
    ∃ e, rf.candidacy.logAt (rf.log.length - 1) = .ok e ∧
      ∀ q request, (q, request) ∈ sent → request = .requestVote (rf.candidacyArgs e) := by
  simp only [startElection] at h
  have ⟨e, he, h⟩ := bind_ok h
  cases h
  refine ⟨rfl, e, he, fun q request hm => ?_⟩
  have ⟨_, _, hm⟩ := List.mem_map.mp hm
  cases hm
  rfl

theorem startElection_error {c} (h : rf.startElection = .error c) :
    c.rf.currentTerm = rf.currentTerm + 1 ∧ c.sent = [] ∧
    rf.candidacy.logAt (rf.log.length - 1) = .error c := by
  simp only [startElection] at h
  cases bind_error h
  case inl h =>
    refine ⟨?_, ?_, h⟩
    all_goals rw [(logAt_error h).left]
  case inr h => have ⟨_, _, h⟩ := h; cases h

-- The state after a vote has been counted.
def receiveVote (rf : Raft n C D) (q : Fin n) : Raft n C D :=
  { rf with votesReceived := Function.update rf.votesReceived q true }

theorem sendRequestVote_cases (q : Fin n) (term : Nat) (reply : RequestVoteReply) :
    (rf.currentTerm < reply.term ∧ rf.sendRequestVote q term reply = rf.becomeFollower reply.term) ∨
    (rf.sendRequestVote q term reply = rf) ∨
    (rf.currentTerm = term ∧ reply.voteGranted = true ∧ rf.state ≠ .leader ∧
      ((rf.sendRequestVote q term reply = rf.receiveVote q) ∨
      (rf.majorityThreshold ≤ (rf.receiveVote q).countVotes ∧
        rf.sendRequestVote q term reply = (rf.receiveVote q).becomeLeader))) := by
  simp only [sendRequestVote]
  split
  case isTrue h => exact .inl ⟨h, rfl⟩
  split
  case isTrue => exact .inr <| .inl rfl
  case isFalse hl =>
    have ⟨hl, ht⟩ := not_or.mp hl
    split
    case isFalse => exact .inr <| .inl rfl
    case isTrue hg =>
      refine .inr <| .inr ⟨(not_not.mp ht).symm, hg, hl, ?_⟩
      split
      case isTrue h => exact .inr ⟨h, rfl⟩
      case isFalse  => exact .inl rfl

end Raft
