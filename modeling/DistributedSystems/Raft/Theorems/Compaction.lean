import DistributedSystems.Raft.Theorems.Server

-- The log with and without a snapshot of the service.

variable {n : Nat} {C D : Type}

namespace Raft

-- Logs as lists

section Lists

variable {log : List (LogEntry C)} {d t k x : Nat}

-- The entry at position `d` becomes the first one and loses its command.
def trim (log : List (LogEntry C)) (d t : Nat) : List (LogEntry C) :=
  ⟨t, none⟩ :: log.drop (d + 1)

theorem trim_getElem? (h : d < x) : (trim log d t)[x - d]? = log[x]? := by
  obtain ⟨k, rfl⟩ := Nat.exists_eq_add_of_lt h
  rw [show d + k + 1 - d = k + 1 by omega, trim, List.getElem?_cons_succ, List.getElem?_drop]
  congr 1
  omega

theorem trim_getElem?_term (ht : log[d]?.map (·.term) = some t) (h : d ≤ x) :
    (trim log d t)[x - d]?.map (·.term) = log[x]?.map (·.term) := by
  cases Nat.eq_or_lt_of_le h
  case inl h => rw [←h, Nat.sub_self, ht]; rfl
  case inr h => rw [trim_getElem? h]

theorem lt_length_of_term (ht : log[d]?.map (·.term) = some t) : d < log.length := by
  have ⟨_, h, _⟩ := Option.map_eq_some_iff.mp ht
  exact (List.getElem?_eq_some_iff.mp h).choose

theorem trim_length (h : d < log.length) : (trim log d t).length = log.length - d := by
  simp only [trim, List.length_cons, List.length_drop]
  omega

theorem trim_take (h : d < k) : (trim log d t).take (k - d) = trim (log.take k) d t := by
  obtain ⟨i, rfl⟩ := Nat.exists_eq_add_of_lt h
  rw [show d + i + 1 - d = i + 1 by omega, trim, List.take_succ_cons, trim, List.drop_take]
  congr 2
  omega

theorem trim_append (h : d < log.length) (log' : List (LogEntry C)) :
    trim (log ++ log') d t = trim log d t ++ log' := by
  rw [trim, List.drop_append_of_le_length h]
  rfl

-- The log after the entries have been merged into it from position `k` on.
def merge (log : List (LogEntry C)) : Nat → List (LogEntry C) → List (LogEntry C)
  | _, []      => log
  | k, e :: es =>
    match log[k]? with
    | none     => log ++ e :: es
    | some old => if old.term ≠ e.term then log.take k ++ e :: es else merge log (k + 1) es

theorem merge_trim (hd : d < k) (hl : d < log.length) (entries : List (LogEntry C)) :
    merge (trim log d t) (k - d) entries = trim (merge log k entries) d t := by
  induction entries generalizing k <;> simp only [merge]
  case cons e es hi =>
    rw [trim_getElem? hd]
    cases he : log[k]? <;> simp only
    case none => rw [trim_append hl]
    case some old =>
      have hk := (List.getElem?_eq_some_iff.mp he).choose
      split_ifs
      case pos => rw [trim_take hd, ←trim_append (by simp; omega)]
      case neg => rw [show k - d + 1 = k + 1 - d by omega, hi (by omega)]

theorem merge_getElem? (hx : x < k) (hl : k ≤ log.length) (entries : List (LogEntry C)) :
    (merge log k entries)[x]? = log[x]? := by
  induction entries generalizing k <;> simp only [merge]
  case cons e es hi =>
    cases he : log[k]? <;> simp only
    case none => rw [List.getElem?_append_left (by omega)]
    case some old =>
      have hk := (List.getElem?_eq_some_iff.mp he).choose
      split_ifs
      case pos => rw [List.getElem?_append_left (by simp; omega), List.getElem?_take_of_lt hx]
      case neg => exact hi (by omega) hk

end Lists

variable {rf rf' : Raft n C D}

theorem mergeEntries_eq {i : Nat} (hi : rf.snapshotLastIndex ≤ i) (entries : List (LogEntry C)) :
    rf.mergeEntries i entries =
      .ok { rf with log := merge rf.log (i - rf.snapshotLastIndex) entries } := by
  induction entries generalizing i <;> simp only [mergeEntries, merge]
  case cons e es ih =>
    split
    case isTrue hl =>
      have hk : i - rf.snapshotLastIndex < rf.log.length := by simp only [logLength] at hl; omega
      have he := List.getElem?_eq_getElem hk
      rw [logAt_of_getElem? hi he, he]
      simp only [bind, Except.bind]
      split_ifs
      case pos =>
        have hx : rf.absoluteIndexToLogIndex i = (i - rf.snapshotLastIndex : Nat) := by
          simp only [absoluteIndexToLogIndex]
          omega
        rw [rf.logTo_of_le hx hk.le]
        rfl
      case neg =>
        rw [ih (by omega),
          show i + 1 - rf.snapshotLastIndex = i - rf.snapshotLastIndex + 1 by omega]
    case isFalse hl =>
      rw [List.getElem?_eq_none (by simp only [logLength] at hl; omega)]

theorem requestVote_eq {args : RequestVoteArgs n} {e : LogEntry C}
    (ht : ¬args.term < rf.currentTerm)
    (he : (rf.observe args.term).logAt ((rf.observe args.term).log.length - 1) = .ok e) :
    rf.requestVote args =
      if ((rf.observe args.term).votedFor = none ∨
        (rf.observe args.term).votedFor = some args.candidateId) ∧
          !(rf.observe args.term).myLogOlder e.term args
      then .ok ({ rf.observe args.term with votedFor := args.candidateId }, ⟨rf.currentTerm, true⟩)
      else .ok (rf.observe args.term, ⟨rf.currentTerm, false⟩) := by
  simp only [requestVote, ht, if_false]
  rw [show (if rf.currentTerm < args.term then rf.becomeFollower args.term else rf)
    = rf.observe args.term from rfl, he]
  rfl

-- The state after a snapshot at `index`, where the log has an entry of term `t`.
def trimmed (rf : Raft n C D) (index t : Nat) (data : Option D) : Raft n C D :=
  { rf with
    log               := trim rf.log (index - rf.snapshotLastIndex) t
    snapshotLastIndex := index
    snapshotLastTerm  := t
    snapshot          := data }

structure Trimmable (rf : Raft n C D) (index t : Nat) : Prop where
  base : rf.snapshotLastIndex ≤ index
  term : rf.log[index - rf.snapshotLastIndex]?.map (·.term) = some t
  next : rf.state = .leader → ∀ q, rf.nextIndex q ≤ rf.logLength

theorem makeSnapshot_trimmed {index : Nat} (hi : rf.snapshotLastIndex < index)
    (hl : index - rf.snapshotLastIndex < rf.log.length) (data : D) :
    rf.makeSnapshot index data =
      .ok (rf.trimmed index rf.log[index - rf.snapshotLastIndex].term (some data)) := by
  have he := logAt_of_getElem? hi.le (List.getElem?_eq_getElem hl)
  rw [makeSnapshot_of_logAt hi he, trimmed, trim, Nat.sub_add_comm hi.le]

theorem sendTo_of_le {q : Fin n} (h : rf.nextIndex q ≤ rf.logLength) :
    ∃ request, rf.sendTo q = .ok request := by
  simp only [sendTo]
  split
  case isFalse => exact ⟨_, rfl⟩
  case isTrue hb =>
    simp only [logLength] at h
    have hx : rf.absoluteIndexToLogIndex (rf.nextIndex q) =
        (rf.nextIndex q - rf.snapshotLastIndex : Nat) := by
      simp only [absoluteIndexToLogIndex]
      omega
    rw [rf.logFrom_of_le hx (by omega)]
    cases he : rf.logAt (rf.absoluteIndexToLogIndex (rf.nextIndex q) - 1)
    case ok e    => exact ⟨_, rfl⟩
    case error c =>
      have := (logAt_error he).right
      omega

theorem startSendEntries_of_le (h : ∀ q, rf.nextIndex q ≤ rf.logLength) :
    ∃ sent, rf.startSendEntries = .ok sent := by
  cases hs : rf.startSendEntries
  case ok sent => exact ⟨sent, rfl⟩
  case error c =>
    have ⟨_, _, q, _, _, he⟩ := startSendEntries_error hs
    have ⟨_, hr⟩ := sendTo_of_le (h q)
    cases he.symm.trans hr

namespace Trimmable

variable {index t : Nat}

theorem lt_length (h : rf.Trimmable index t) : index - rf.snapshotLastIndex < rf.log.length :=
  lt_length_of_term h.term

theorem logLength (h : rf.Trimmable index t) (data : Option D) :
    (rf.trimmed index t data).logLength = rf.logLength := by
  have := h.lt_length
  have := h.base
  simp only [Raft.logLength, trimmed, trim_length h.lt_length]
  omega

theorem getElem? (h : rf.Trimmable index t) (data : Option D) {x : Nat} (hx : index < x) :
    (rf.trimmed index t data).log[x - index]? = rf.log[x - rf.snapshotLastIndex]? := by
  have hb := h.base
  rw [←trim_getElem? (show index - rf.snapshotLastIndex < x - rf.snapshotLastIndex by omega),
    show x - rf.snapshotLastIndex - (index - rf.snapshotLastIndex) = x - index by omega]
  rfl

theorem getElem?_term (h : rf.Trimmable index t) (data : Option D) {x : Nat} (hx : index ≤ x) :
    (rf.trimmed index t data).log[x - index]?.map (·.term) =
      rf.log[x - rf.snapshotLastIndex]?.map (·.term) := by
  have hb := h.base
  rw [←trim_getElem?_term h.term
    (show index - rf.snapshotLastIndex ≤ x - rf.snapshotLastIndex by omega),
      show x - rf.snapshotLastIndex - (index - rf.snapshotLastIndex) = x - index by omega]
  rfl

-- Both logs have an entry of the same term.
theorem logAt (h : rf.Trimmable index t) (data : Option D) {x : Nat} (hx : index ≤ x)
    (hl : x < rf.logLength) :
    ∃ e e', rf.logAt (rf.absoluteIndexToLogIndex x) = .ok e ∧
      (rf.trimmed index t data).logAt
        ((rf.trimmed index t data).absoluteIndexToLogIndex x) = .ok e' ∧
      e'.term = e.term := by
  have hb := h.base
  have he : x - rf.snapshotLastIndex < rf.log.length := by simp only [Raft.logLength] at hl; omega
  have ht := h.getElem?_term data hx
  rw [List.getElem?_eq_getElem he] at ht
  obtain ⟨e', he', ht⟩ := Option.map_eq_some_iff.mp ht
  have hx : (rf.trimmed index t data).snapshotLastIndex ≤ x := hx
  exact ⟨_, e', logAt_of_getElem? (by omega) (List.getElem?_eq_getElem he),
    logAt_of_getElem? hx he', ht⟩

-- The last entries of both logs have the same index.
theorem last (h : rf.Trimmable index t) (data : Option D) :
    (rf.log.length - 1 : Int) = rf.absoluteIndexToLogIndex (rf.logLength - 1) ∧
    ((rf.trimmed index t data).log.length - 1 : Int) =
      (rf.trimmed index t data).absoluteIndexToLogIndex (rf.logLength - 1) ∧
    index ≤ rf.logLength - 1 ∧ rf.logLength - 1 < rf.logLength := by
  have hb := h.base
  have hl := h.lt_length
  simp only [absoluteIndexToLogIndex, Raft.logLength, trimmed, trim_length hl]
  omega

theorem logAt_last (h : rf.Trimmable index t) (data : Option D) :
    ∃ e e', rf.logAt (rf.log.length - 1) = .ok e ∧
      (rf.trimmed index t data).logAt ((rf.trimmed index t data).log.length - 1) = .ok e' ∧
      e'.term = e.term := by
  have ⟨hx, hx', hi, hl⟩ := h.last data
  rw [hx, hx']
  exact h.logAt data hi hl

-- Steps that do not touch the log

theorem trimmed_followLeader (rf : Raft n C D) (index t term : Nat) (data : Option D) :
    (rf.trimmed index t data).followLeader term = (rf.followLeader term).trimmed index t data := by
  by_cases h : rf.currentTerm < term
  · simp only [Raft.followLeader, h, if_true]
    exact if_pos h
  · simp only [Raft.followLeader, h, if_false]
    exact if_neg h

theorem trimmed_observe (rf : Raft n C D) (index t term : Nat) (data : Option D) :
    (rf.trimmed index t data).observe term = (rf.observe term).trimmed index t data := by
  by_cases h : rf.currentTerm < term
  · simp only [Raft.observe, h, if_true]
    exact if_pos h
  · simp only [Raft.observe, h, if_false]
    exact if_neg h

theorem followLeader (h : rf.Trimmable index t) (term : Nat) :
    (rf.followLeader term).Trimmable index t := by
  simp only [Raft.followLeader]
  split <;> exact { h with next := by rintro ⟨⟩ }

theorem observe (h : rf.Trimmable index t) (term : Nat) : (rf.observe term).Trimmable index t := by
  unfold Raft.observe
  split
  · exact { h with next := nofun }
  · exact h

-- The reply depends on the length of the log and the term of its last entry only.
theorem requestVote (h : rf.Trimmable index t) (args : RequestVoteArgs n) (data : Option D) :
    ∃ rf' reply, rf.requestVote args = .ok (rf', reply) ∧
      (rf.trimmed index t data).requestVote args = .ok (rf'.trimmed index t data, reply) ∧
      rf'.Trimmable index t := by
  by_cases ht : args.term < rf.currentTerm
  case pos => exact ⟨rf, _, if_pos ht, if_pos ht, h⟩
  case neg =>
    have ho := h.observe args.term
    have ⟨e, e', he, he', ht'⟩ := ho.logAt_last data
    have hm : ((rf.observe args.term).trimmed index t data).myLogOlder e'.term args =
        (rf.observe args.term).myLogOlder e.term args := by
      simp only [myLogOlder, ho.logLength data, ht']
    rw [←trimmed_observe] at he'
    have hr : ¬args.term < (rf.trimmed index t data).currentTerm := ht
    rw [requestVote_eq hr he', requestVote_eq ht he, trimmed_observe, hm]
    by_cases hc : ((rf.observe args.term).votedFor = none ∨
        (rf.observe args.term).votedFor = some args.candidateId) ∧
        !(rf.observe args.term).myLogOlder e.term args
    case pos =>
      rw [if_pos hc]
      exact ⟨_, _, rfl, if_pos hc, { ho with }⟩
    case neg =>
      rw [if_neg hc]
      exact ⟨_, _, rfl, if_neg hc, ho⟩

theorem buildFailedReply (h : rf.Trimmable index t) (i : Nat) (hi : index ≤ i)
    (hl : i < rf.logLength) (reply : AppendEntriesReply) (data : Option D) :
    ∃ r r', rf.buildFailedReply (rf.absoluteIndexToLogIndex i) reply = .ok r ∧
      (rf.trimmed index t data).buildFailedReply
        ((rf.trimmed index t data).absoluteIndexToLogIndex i) reply = .ok r' ∧
      r.term = reply.term ∧ r'.term = reply.term ∧ r.success = false ∧ r'.success = false := by
  have ⟨e, e', he, he', _⟩ := h.logAt data hi hl
  simp only [Raft.buildFailedReply, he, he']
  exact ⟨_, _, rfl, rfl, rfl, rfl, rfl, rfl⟩

theorem trimmed_merge (h : rf.Trimmable index t) {i : Nat} (hi : index < i)
    (entries : List (LogEntry C)) (data : Option D) :
    { rf.trimmed index t data with
      log := merge (rf.trimmed index t data).log (i - index) entries } =
    { rf with log := merge rf.log (i - rf.snapshotLastIndex) entries }.trimmed index t data := by
  have hb := h.base
  have hd : index - rf.snapshotLastIndex < i - rf.snapshotLastIndex := by omega
  simp only [trimmed, ←merge_trim hd h.lt_length]
  rw [show i - rf.snapshotLastIndex - (index - rf.snapshotLastIndex) = i - index by omega]

theorem followCommit (h : rf.Trimmable index t) (leaderCommit : Nat) (data : Option D) :
    (rf.trimmed index t data).followCommit leaderCommit =
      (rf.followCommit leaderCommit).trimmed index t data ∧
    (rf.followCommit leaderCommit).Trimmable index t := by
  by_cases hl : rf.commitIndex < leaderCommit
  case pos =>
    simp only [Raft.followCommit, hl, if_true, h.logLength data]
    exact ⟨if_pos hl, { h with }⟩
  case neg =>
    simp only [Raft.followCommit, hl, if_false]
    exact ⟨if_neg hl, h⟩

theorem merge (h : rf.Trimmable index t) {i : Nat} (hi : index < i) (hl : i ≤ rf.logLength)
    (hs : rf.state = .follower) (entries : List (LogEntry C)) :
    { rf with log := Raft.merge rf.log (i - rf.snapshotLastIndex) entries }.Trimmable index t where
  base    := h.base
  term    := by
    have hb := h.base
    rw [merge_getElem? (by simp only; omega) (by simp only [Raft.logLength] at hl; omega)]
    exact h.term
  next hc := nomatch hs.symm.trans hc

-- A follower compares the entries behind the snapshot only.
theorem appendEntries (h : rf.Trimmable index t) {args : AppendEntriesArgs n C}
    (hp : index ≤ args.prevLogIndex) (data : Option D) :
    ∃ rf' reply reply', rf.appendEntries args = .ok (rf', reply) ∧
      (rf.trimmed index t data).appendEntries args = .ok (rf'.trimmed index t data, reply') ∧
      reply'.term = reply.term ∧ reply'.success = reply.success ∧ rf'.Trimmable index t := by
  by_cases ht : args.term < rf.currentTerm
  case pos => exact ⟨rf, _, _, if_pos ht, if_pos ht, rfl, rfl, h⟩
  case neg =>
    have hg := h.followLeader args.term
    have hf : (rf.followLeader args.term).state = .follower := by
      simp only [Raft.followLeader]
      split <;> rfl
    have ht' : ¬args.term < (rf.trimmed index t data).currentTerm := ht
    simp only [Raft.appendEntries, ht, ht', if_false, trimmed_followLeader]
    generalize rf.followLeader args.term = g at hg hf
    have hb : ¬args.prevLogIndex < g.snapshotLastIndex := not_lt.mpr (hg.base.trans hp)
    have hb' : ¬args.prevLogIndex < (g.trimmed index t data).snapshotLastIndex := not_lt.mpr hp
    simp only [hg.logLength data, hb, hb', if_false]
    split_ifs with hl
    case pos =>
      obtain ⟨hx, hx', hi, hl⟩ := hg.last data
      obtain ⟨r, r', hr, hr', h₁, h₂, h₃, h₄⟩ :=
        hg.buildFailedReply _ hi hl ⟨rf.currentTerm, false, 0, 0⟩ data
      rw [hx, hx']
      simp only [show (rf.trimmed index t data).currentTerm = rf.currentTerm from rfl, hr, hr']
      exact ⟨g, r, r', rfl, rfl, h₂.trans h₁.symm, h₄.trans h₃.symm, hg⟩
    case neg =>
      obtain ⟨e, e', he, he', het⟩ := hg.logAt data hp (not_le.mp hl)
      simp only [he, he', bind, Except.bind, het]
      split_ifs
      case pos =>
        obtain ⟨r, r', hr, hr', h₁, h₂, h₃, h₄⟩ :=
          hg.buildFailedReply _ hp (not_le.mp hl) ⟨rf.currentTerm, false, 0, 0⟩ data
        simp only [show (rf.trimmed index t data).currentTerm = rf.currentTerm from rfl, hr, hr']
        exact ⟨g, r, r', rfl, rfl, h₂.trans h₁.symm, h₄.trans h₃.symm, hg⟩
      case neg =>
        have hi : index < args.prevLogIndex + 1 := Nat.lt_succ_of_le hp
        have hm := hg.merge hi (not_le.mp hl) hf args.entries
        obtain ⟨hc, hm⟩ := hm.followCommit args.leaderCommit data
        rw [mergeEntries_eq (by have := hg.base; omega), mergeEntries_eq (by exact hi.le)]
        simp only [pure, Except.pure]
        refine ⟨_, _, _, rfl, ?_, rfl, rfl, hm⟩
        rw [←hc, ←hg.trimmed_merge hi]
        rfl

theorem extended (h : rf.Trimmable index t) (command : C) :
    (rf.extended command).Trimmable index t where
  base      := h.base
  term      := by
    simp only [Raft.extended]
    rw [List.getElem?_append_left h.lt_length]
    exact h.term
  next hl q := by
    have := h.next hl q
    simp only [Raft.extended, Raft.logLength, List.length_append, List.length_singleton] at this ⊢
    omega

theorem trimmed_extended (h : rf.Trimmable index t) (command : C) (data : Option D) :
    (rf.trimmed index t data).extended command = (rf.extended command).trimmed index t data := by
  simp only [Raft.extended, h.logLength data]
  simp only [trimmed, trim_append h.lt_length]

-- The messages differ, but they can be built from both logs.
theorem start (h : rf.Trimmable index t) (command : C) (data : Option D) :
    ∃ rf' sent sent' out, rf.start command = .ok (rf', sent, out) ∧
      (rf.trimmed index t data).start command = .ok (rf'.trimmed index t data, sent', out) ∧
      rf'.Trimmable index t := by
  by_cases hl : rf.state = .leader
  case neg => exact ⟨rf, _, _, _, if_pos hl, if_pos hl, h⟩
  case pos =>
    have he := h.extended command
    have hl' : (rf.trimmed index t data).state = .leader := hl
    have ⟨sent, hs⟩ := startSendEntries_of_le (he.next hl)
    have ⟨sent', hs'⟩ :
        ∃ sent', ((rf.extended command).trimmed index t data).startSendEntries = .ok sent' :=
      startSendEntries_of_le fun q => (he.logLength data).symm ▸ he.next hl q
    rw [start_leader hl, start_leader hl', h.trimmed_extended command data, hs, hs',
      h.logLength data]
    exact ⟨_, sent, sent', _, rfl, rfl, he⟩

end Trimmable

-- The calls

inductive Query (n : Nat) (C : Type)
  | requestVote (args : RequestVoteArgs n)
  | appendEntries (args : AppendEntriesArgs n C)
  | start (command : C)

-- What a caller gets to know, apart from the hint where a leader should try again.
inductive Answer
  | requestVote (term : Nat) (voteGranted : Bool)
  | appendEntries (term : Nat) (success : Bool)
  | start (index term : Nat) (isLeader : Bool)
  deriving DecidableEq

def answer (rf : Raft n C D) : Query n C → Except (Crash n C D) (Raft n C D × Answer)
  | .requestVote args => do
    let (rf, reply) ← rf.requestVote args
    return (rf, .requestVote reply.term reply.voteGranted)
  | .appendEntries args => do
    let (rf, reply) ← rf.appendEntries args
    return (rf, .appendEntries reply.term reply.success)
  | .start command => do
    let (rf, _, index, term, isLeader) ← rf.start command
    return (rf, .start index term isLeader)

def answers (rf : Raft n C D) : List (Query n C) → Except (Crash n C D) (Raft n C D × List Answer)
  | [] => .ok (rf, [])
  | query :: queries => do
    let (rf, answer) ← rf.answer query
    let (rf, answers) ← rf.answers queries
    return (rf, answer :: answers)

-- The leader does not ask for anything before `index`.
def Query.After (index : Nat) : Query n C → Prop
  | .appendEntries args => index ≤ args.prevLogIndex
  | _                   => True

theorem Trimmable.answer {index t : Nat} (h : rf.Trimmable index t) {query : Query n C}
    (hq : query.After index) (data : Option D) :
    ∃ rf' a, rf.answer query = .ok (rf', a) ∧
      (rf.trimmed index t data).answer query = .ok (rf'.trimmed index t data, a) ∧
      rf'.Trimmable index t := by
  cases query <;> simp only [Raft.answer]
  case requestVote args =>
    have ⟨rf', reply, hr, hr', h⟩ := h.requestVote args data
    rw [hr, hr']
    exact ⟨rf', _, rfl, rfl, h⟩
  case appendEntries args =>
    have ⟨rf', reply, reply', hr, hr', ht, hs, h⟩ := h.appendEntries hq data
    rw [hr, hr']
    refine ⟨rf', _, rfl, ?_, h⟩
    simp only [bind, Except.bind, pure, Except.pure, ht, hs]
  case start command =>
    have ⟨rf', sent, sent', out, hr, hr', h⟩ := h.start command data
    rw [hr, hr']
    exact ⟨rf', _, rfl, rfl, h⟩

theorem Trimmable.answers {index t : Nat} (h : rf.Trimmable index t) {queries : List (Query n C)}
    (hq : ∀ query ∈ queries, query.After index) (data : Option D) :
    ∃ rf' as, rf.answers queries = .ok (rf', as) ∧
      (rf.trimmed index t data).answers queries = .ok (rf'.trimmed index t data, as) ∧
      rf'.Trimmable index t := by
  induction queries generalizing rf
  case nil => exact ⟨rf, [], rfl, rfl, h⟩
  case cons query queries hi =>
    have ⟨hq, hqs⟩ := List.forall_mem_cons.mp hq
    have ⟨rf₁, a, ha, ha', h⟩ := h.answer hq data
    have ⟨rf₂, as, hs, hs', h⟩ := hi h hqs
    refine ⟨rf₂, a :: as, ?_, ?_, h⟩
    · simp only [Raft.answers, ha, bind, Except.bind, hs]; rfl
    · simp only [Raft.answers, ha', bind, Except.bind, hs']; rfl

-- The log contains all that has been applied and all that a leader sends next.
structure Represented (rf : Raft n C D) : Prop where
  apply : rf.lastApplied < rf.logLength
  next  : rf.state = .leader → ∀ q, rf.nextIndex q ≤ rf.logLength

theorem IndexSafe.represented (h : rf.IndexSafe) : rf.Represented where
  apply     := by
    have hn : rf.log ≠ [] := fun hn => by simpa [hn] using h.head
    have := List.length_pos_iff.mpr hn
    have := h.apply
    have := h.commit
    simp only [logLength] at *
    omega
  next hl q := (h.next hl q).right

-- Nobody can tell whether the service has made a snapshot.
theorem compaction_invisible (h : rf.Represented) {index : Nat} (hi : rf.snapshotLastIndex < index)
    (hl : index ≤ rf.lastApplied) (data : D) {queries : List (Query n C)}
    (hq : ∀ query ∈ queries, query.After index) :
    ∃ rf₁ rf₂ rf₂' as, rf.makeSnapshot index data = .ok rf₁ ∧
      (rf.answers queries = .ok (rf₂, as)) ∧ (rf₁.answers queries = .ok (rf₂', as)) ∧
      (rf₂'.commitIndex = rf₂.commitIndex) ∧ (∀ x, index < x → rf₂'.entry x = rf₂.entry x) ∧
      (∃ t, (rf₂.entry index).map (·.term) = some t ∧
        (rf₂'.entry index).map (·.term) = some t) := by
  have hx : index - rf.snapshotLastIndex < rf.log.length := by
    have := h.apply
    simp only [logLength] at this
    omega
  let t := rf.log[index - rf.snapshotLastIndex].term
  have ht : rf.Trimmable index t := ⟨hi.le, by simp [List.getElem?_eq_getElem hx, t], h.next⟩
  obtain ⟨rf₂, as, ha, ha', ht'⟩ := ht.answers hq (some data)
  refine ⟨_, rf₂, _, as, makeSnapshot_trimmed hi hx data, ha, ha', rfl, fun x hx => ?_, t, ?_, ?_⟩
  · simp only [entry, show rf₂.snapshotLastIndex ≤ x by have := ht'.base; omega, if_true]
    rw [←ht'.getElem? (some data) hx]
    exact if_pos hx.le
  · simp only [entry, ht'.base, if_true]
    exact ht'.term
  · simp [entry, trimmed, trim]

-- The leader of a run compacts all of its log, adds another command and steps down.
theorem compaction_invisible_compacted :
    let rf := ((Execution.compacted.state 10).node 0).rf
    let queries : List (Query 3 Nat) := [.start 11, .requestVote ⟨2, 1, 5, 5⟩]
    ∃ rf₁ rf₂ rf₂' as, rf.makeSnapshot 1 () = .ok rf₁ ∧ rf.answers queries = .ok (rf₂, as) ∧
      rf₁.answers queries = .ok (rf₂', as) ∧ rf₂'.entry 2 = rf₂.entry 2 := by
  intro rf queries
  have h : rf.Represented := ⟨by decide +kernel, fun _ => by decide +kernel⟩
  have hq : ∀ query ∈ queries, query.After 1 := by simp [queries, Query.After]
  have ⟨rf₁, rf₂, rf₂', as, hs, ha, ha', _, he, _⟩ :=
    compaction_invisible h (show rf.snapshotLastIndex < 1 by decide +kernel)
      (by decide +kernel) () hq
  exact ⟨rf₁, rf₂, rf₂', as, hs, ha, ha', he 2 (by decide)⟩

end Raft
