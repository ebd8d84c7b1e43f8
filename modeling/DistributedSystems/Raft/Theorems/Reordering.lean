import DistributedSystems.Library.Overlay
import DistributedSystems.Raft.Theorems.Compaction

-- Requests that are delivered twice, or in another order than the leader has sent them.

open TermLog

variable {n : Nat} {C D : Type}

namespace Raft

variable {rf rf' : Raft n C D} {args : AppendEntriesArgs n C} {reply reply' : AppendEntriesReply}

theorem merge_eq_overlay {log : List (LogEntry C)} {k : Nat} (hk : k ≤ log.length)
    (entries : List (LogEntry C)) :
    merge log k entries = log.take k ++ overlay (log.drop k) entries := by
  induction entries generalizing k <;> simp only [merge]
  case nil => rw [overlay_nil, List.take_append_drop]
  case cons e es hi =>
    cases he : log[k]? <;> simp only
    case none =>
      have hl : log.length ≤ k := List.getElem?_eq_none_iff.mp he
      rw [List.take_of_length_le hl, List.drop_of_length_le hl, overlay]
    case some old =>
      obtain ⟨hlt, hx⟩ := List.getElem?_eq_some_iff.mp he
      rw [List.drop_eq_getElem_cons hlt, hx]
      by_cases ht : Termed.termOf old = Termed.termOf e
      case neg =>
        rw [overlay, if_neg ht]
        exact if_pos ht
      case pos =>
        rw [overlay, if_pos ht]
        refine (if_neg (not_not.mpr ht)).trans ?_
        rw [hi hlt, List.take_add_one, he, List.append_assoc]
        rfl

theorem merge_merge {log : List (LogEntry C)} {k : Nat} (hk : k ≤ log.length)
    (entries : List (LogEntry C)) :
    merge (merge log k entries) k entries = merge log k entries := by
  have hl : (log.take k).length = k := by simpa using hk
  have hk' : k ≤ (merge log k entries).length := by
    rw [merge_eq_overlay hk, List.length_append, hl]
    omega
  rw [merge_eq_overlay hk', merge_eq_overlay hk, List.take_left' hl, List.drop_left' hl,
    overlay_overlay (List.prefix_refl _)]

-- What `AppendEntries` does as soon as the server follows the leader.
def respond (rf : Raft n C D) (args : AppendEntriesArgs n C) (reply : AppendEntriesReply) :
    Except (Crash n C D) (Raft n C D × AppendEntriesReply) :=
  if rf.logLength ≤ args.prevLogIndex then do
    let reply ← rf.buildFailedReply (rf.log.length - 1) reply
    return (rf, reply)
  else if args.prevLogIndex < rf.snapshotLastIndex then
    .ok (rf, { reply with
      failedTerm := rf.snapshotLastTerm, failedFirstIndex := rf.snapshotLastIndex })
  else do
    let realIndex := rf.absoluteIndexToLogIndex args.prevLogIndex
    let prev ← rf.logAt realIndex
    if prev.term ≠ args.prevLogTerm then
      let reply ← rf.buildFailedReply realIndex reply
      return (rf, reply)
    else
      let rf ← rf.mergeEntries (args.prevLogIndex + 1) args.entries
      return (rf.followCommit args.leaderCommit, { reply with success := true })

theorem appendEntries_eq (ht : rf.currentTerm ≤ args.term) :
    rf.appendEntries args = (rf.followLeader args.term).respond args { term := rf.currentTerm } :=
  if_neg (Nat.not_lt.mpr ht)

-- The log with the entries of the request, and the commit index that follows from them.
def accepted (rf : Raft n C D) (args : AppendEntriesArgs n C) : Raft n C D :=
  { rf with
    log := merge rf.log (args.prevLogIndex + 1 - rf.snapshotLastIndex) args.entries
  }.followCommit args.leaderCommit

-- The server has an entry where the request continues its log, and of the right term.
def Continues (rf : Raft n C D) (args : AppendEntriesArgs n C) : Prop :=
  rf.snapshotLastIndex ≤ args.prevLogIndex ∧
  rf.log[args.prevLogIndex - rf.snapshotLastIndex]?.map (·.term) = some args.prevLogTerm

theorem Continues.lt (h : rf.Continues args) :
    args.prevLogIndex - rf.snapshotLastIndex < rf.log.length := by
  have ⟨_, he, _⟩ := Option.map_eq_some_iff.mp h.right
  exact (List.getElem?_eq_some_iff.mp he).choose

theorem respond_accepted (h : rf.Continues args) (reply : AppendEntriesReply) :
    rf.respond args reply = .ok (rf.accepted args, { reply with success := true }) := by
  have ⟨hs, ht⟩ := h
  have hlt := h.lt
  have ⟨prev, he, het⟩ := Option.map_eq_some_iff.mp ht
  have hl : ¬rf.logLength ≤ args.prevLogIndex := by
    simp only [logLength]
    omega
  rw [respond, if_neg hl, if_neg (Nat.not_lt.mpr hs)]
  simp only [logAt_of_getElem? hs he, bind, Except.bind, het, ne_eq, not_true, if_false]
  rw [mergeEntries_eq (by omega)]
  rfl

theorem buildFailedReply_eq {k : Nat} (hk : k < rf.log.length) :
    ∃ failedTerm failedFirstIndex, ∀ reply : AppendEntriesReply, reply.success = false →
      rf.buildFailedReply k reply = .ok { reply with failedTerm, failedFirstIndex } := by
  have he : rf.logAt k = .ok rf.log[k] := by simp [Raft.logAt, List.getElem?_eq_getElem hk]
  refine ⟨rf.log[k].term, max (if rf.log[k].term = rf.snapshotLastTerm then rf.snapshotLastIndex
    else firstWithTerm rf.log rf.log[k].term k k + rf.snapshotLastIndex) 1, fun reply hr => ?_⟩
  rw [buildFailedReply, he, hr]
  rfl

theorem respond_refused (h : ¬rf.Continues args) (hl : 0 < rf.log.length) :
    ∃ failedTerm failedFirstIndex, ∀ reply, reply.success = false →
      rf.respond args reply = .ok (rf, { reply with failedTerm, failedFirstIndex }) := by
  by_cases hlen : rf.logLength ≤ args.prevLogIndex
  case pos =>
    obtain ⟨t, i, hb⟩ := buildFailedReply_eq (Nat.sub_lt hl Nat.one_pos)
    refine ⟨t, i, fun reply hr => ?_⟩
    rw [Nat.cast_sub hl] at hb
    rw [respond, if_pos hlen]
    exact congrArg (· >>= _) (hb reply hr)
  case neg =>
    by_cases hs : args.prevLogIndex < rf.snapshotLastIndex
    case pos => exact ⟨_, _, fun reply _ => by rw [respond, if_neg hlen, if_pos hs]⟩
    case neg =>
      replace hs := Nat.le_of_not_lt hs
      have hlt : args.prevLogIndex - rf.snapshotLastIndex < rf.log.length := by
        simp only [logLength] at hlen
        omega
      have he := List.getElem?_eq_getElem hlt
      have hne : rf.log[args.prevLogIndex - rf.snapshotLastIndex].term ≠ args.prevLogTerm :=
        fun ht => h ⟨hs, by rw [he, ←ht]; rfl⟩
      obtain ⟨t, i, hb⟩ := buildFailedReply_eq hlt
      refine ⟨t, i, fun reply hr => ?_⟩
      rw [Nat.cast_sub hs] at hb
      rw [respond, if_neg hlen, if_neg (Nat.not_lt.mpr hs)]
      simp only [logAt_of_getElem? hs he, bind, Except.bind, if_pos hne]
      rw [absoluteIndexToLogIndex, hb reply hr]
      rfl

-- A server that follows the leader already.
theorem followLeader_of_eq {t : Nat} (hs : rf.state = .follower) (ht : rf.currentTerm = t) :
    rf.followLeader t = rf := by
  rw [followLeader, if_neg (Nat.not_lt.mpr ht.ge), ←hs]

-- The commit index of a server whose log ends at `last`.
def raised (commitIndex leaderCommit last : Nat) : Nat :=
  if commitIndex < leaderCommit then min leaderCommit last else commitIndex

theorem raised_raised (c i last : Nat) : raised (raised c i last) i last = raised c i last := by
  simp only [raised]
  split_ifs <;> omega

theorem accepted_eq (rf : Raft n C D) (args : AppendEntriesArgs n C) :
    let log := merge rf.log (args.prevLogIndex + 1 - rf.snapshotLastIndex) args.entries
    rf.accepted args = { rf with
      log, commitIndex :=
        raised rf.commitIndex args.leaderCommit (log.length + rf.snapshotLastIndex - 1) } := by
  simp only [accepted, followCommit, raised, logLength]
  split_ifs <;> rfl

namespace Continues

variable (h : rf.Continues args)

include h

theorem next_le : args.prevLogIndex + 1 - rf.snapshotLastIndex ≤ rf.log.length := by
  have := h.lt
  omega

-- What the request continues is still there when it is delivered again.
theorem accepted : (rf.accepted args).Continues args := by
  have ⟨hs, ht⟩ := h
  have hx : args.prevLogIndex - rf.snapshotLastIndex < args.prevLogIndex + 1 -
      rf.snapshotLastIndex := by omega
  rw [accepted_eq]
  refine ⟨hs, ?_⟩
  simp only [merge_getElem? hx h.next_le]
  exact ht

theorem accepted_accepted : (rf.accepted args).accepted args = rf.accepted args := by
  rw [accepted_eq, accepted_eq]
  simp only [merge_merge h.next_le, raised_raised]

end Continues

theorem appendEntries_twice (hl : 0 < rf.log.length) (args : AppendEntriesArgs n C) :
    ∃ rf' reply, rf.appendEntries args = .ok (rf', reply) ∧
      rf'.appendEntries args = .ok (rf', { reply with term := rf'.currentTerm }) := by
  by_cases ht : args.term < rf.currentTerm
  case pos => exact ⟨rf, _, if_pos ht, if_pos ht⟩
  case neg =>
    replace ht := Nat.le_of_not_lt ht
    have hs := rf.followLeader_state args.term
    have hc := followLeader_currentTerm ht
    -- The second time the server already follows the leader.
    have again {rf' : Raft n C D} (hs : rf'.state = .follower) (hc : rf'.currentTerm = args.term) :
        rf'.appendEntries args = rf'.respond args { term := rf'.currentTerm } := by
      rw [appendEntries_eq hc.le, followLeader_of_eq hs hc]
    rw [appendEntries_eq ht]
    by_cases hx : (rf.followLeader args.term).Continues args
    case pos =>
      refine ⟨_, _, respond_accepted hx _, ?_⟩
      rw [again (by rw [accepted_eq]; exact hs) (by rw [accepted_eq]; exact hc),
        respond_accepted hx.accepted, hx.accepted_accepted]
    case neg =>
      have ⟨t, i, hr⟩ := respond_refused hx (by rwa [(rf.followLeader_log args.term).left])
      refine ⟨_, _, hr _ rfl, ?_⟩
      rw [again hs hc]
      exact hr _ rfl

-- Two orders

-- The state of a server that follows the leader of a term with the given log.
def adopt (rf : Raft n C D) (term : Nat) (log : List (LogEntry C)) (leaderCommit : Nat) :
    Raft n C D :=
  { rf.followLeader term with
    log         := trim log rf.snapshotLastIndex rf.snapshotLastTerm
    commitIndex := max rf.commitIndex leaderCommit }

variable {G T : List (LogEntry C)}

theorem adopt_adopt {t : Nat} (ht : rf.currentTerm ≤ t) (log log' : List (LogEntry C))
    (c c' : Nat) :
    (rf.adopt t log c).adopt t log' c' = rf.adopt t log' (max c c') := by
  have ⟨_, hi, hst, _⟩ := rf.followLeader_log t
  have hf : (rf.adopt t log c).followLeader t = rf.adopt t log c :=
    followLeader_of_eq (rf.followLeader_state t) (followLeader_currentTerm ht)
  rw [adopt, hf]
  simp only [adopt, hi, hst, Nat.max_assoc]

-- How a server replies to `AppendEntries`.
inductive Replies (rf : Raft n C D) (args : AppendEntriesArgs n C) (success : Bool) :
    Raft n C D → Prop
  | stale  : (success = false) → (args.term < rf.currentTerm) → Replies rf args success rf
  | refuse :
    (success = false) → (rf.currentTerm ≤ args.term) →
    Replies rf args success (rf.followLeader args.term)
  | accept :
    (success = true) → (rf.currentTerm ≤ args.term) → ((rf.followLeader args.term).Continues args) →
    Replies rf args success ((rf.followLeader args.term).accepted args)

theorem appendEntries_replies (h : rf.appendEntries args = .ok (rf', reply))
    (hl : 0 < rf.log.length) :
    rf.Replies args reply.success rf' := by
  by_cases ht : args.term < rf.currentTerm
  case pos =>
    cases (if_pos ht).symm.trans h
    exact .stale rfl ht
  case neg =>
    replace ht := Nat.le_of_not_lt ht
    rw [appendEntries_eq ht] at h
    by_cases hx : (rf.followLeader args.term).Continues args
    case pos =>
      cases (respond_accepted hx _).symm.trans h
      exact .accept rfl ht hx
    case neg =>
      have ⟨_, _, hr⟩ := respond_refused hx (by rwa [(rf.followLeader_log args.term).left])
      cases (hr _ rfl).symm.trans h
      exact .refuse rfl ht

theorem appendEntries_success (h : rf.appendEntries args = .ok (rf', reply))
    (hs : reply.success = true) (hl : 0 < rf.log.length) :
    rf.currentTerm ≤ args.term ∧ (rf.followLeader args.term).Continues args ∧
    rf' = (rf.followLeader args.term).accepted args := by
  cases appendEntries_replies h hl
  case stale hx _     => cases hs.symm.trans hx
  case refuse hx _    => cases hs.symm.trans hx
  case accept _ ht hx => exact ⟨ht, hx, rfl⟩

namespace Represents

variable (h : rf.Represents G)

include h

theorem log_pos : 0 < rf.log.length := by
  rw [h.log]
  exact Nat.succ_pos _

theorem adopt {k : Nat} (ha : Aligned k G T) (hk : rf.snapshotLastIndex < k) (t c : Nat) :
    (rf.adopt t (overlay G T) c).Represents (overlay G T) := by
  have ⟨_, hi, hst, _⟩ := rf.followLeader_log t
  refine ⟨?_, ?_⟩ <;> simp only [Raft.adopt, hi, hst]
  · have hb := h.base_lt
    rw [ha.overlay_eq, List.getElem?_append_left (by simp; omega), List.getElem?_take_of_lt hk]
    exact h.head
  · rfl

theorem prev_term (hc : (rf.followLeader args.term).Continues args) :
    G[args.prevLogIndex]?.map (·.term) = some args.prevLogTerm := by
  have ⟨h₁, h₂, h₃, _⟩ := rf.followLeader_log args.term
  have ⟨hs, ht⟩ := hc
  rw [←(h.congr h₁ h₂ h₃).getElem?_term hs]
  exact ht

theorem deliver (hc : (rf.followLeader args.term).Continues args)
    (he : args.entries = T.drop (args.prevLogIndex + 1)) (hcommit : args.leaderCommit < T.length)
    (ha : Aligned (args.prevLogIndex + 1) G T) :
    (rf.followLeader args.term).accepted args =
      rf.adopt args.term (overlay G T) args.leaderCommit := by
  have ⟨h₁, h₂, h₃, h₄⟩ := rf.followLeader_log args.term
  have hs := hc.left
  have hlog : merge rf.log (args.prevLogIndex + 1 - rf.snapshotLastIndex) args.entries
      = trim (overlay G T) rf.snapshotLastIndex rf.snapshotLastTerm := by
    rw [h.log, ha.overlay_eq, ←merge_eq_overlay ha.le_length, ←he, ←merge_trim (by omega) h.base_lt]
    rfl
  have hlen : args.leaderCommit ≤
      (trim (overlay G T) rf.snapshotLastIndex rf.snapshotLastTerm).length
      + rf.snapshotLastIndex - 1 := by
    have := length_le_overlay G T
    rw [trim, List.length_cons, List.length_drop]
    omega
  have hr (c last : Nat) (hl : args.leaderCommit ≤ last) :
      raised c args.leaderCommit last = max c args.leaderCommit := by
    rw [raised]
    split_ifs <;> omega
  rw [accepted_eq]
  simp only [h₁, h₂, h₄, hlog, hr _ _ hlen, Raft.adopt]

end Represents

def Accepts (rf : Raft n C D) (args : AppendEntriesArgs n C) (rf' : Raft n C D) : Prop :=
  ∃ reply, rf.appendEntries args = .ok (rf', reply) ∧ reply.success = true

-- A request that `StartSendEntries` builds for `q` from the leader's log `T`.
structure Builds (leader : Raft n C D) (q : Fin n) (T : List (LogEntry C))
    (args : AppendEntriesArgs n C) :
    Prop where
  log    : leader.Represents T
  commit : leader.commitIndex < leader.logLength
  sent   : leader.sendTo q = .ok (.appendEntries args)

namespace Builds

variable {leader follower : Raft n C D} {q : Fin n} {U : List (LogEntry C)}
  (b : leader.Builds q T args)

include b

theorem leaderCommit_lt : args.leaderCommit < T.length := by
  have ⟨_, _, _, _, hc⟩ := b.log.sent b.sent
  rw [hc, ←b.log.logLength]
  exact b.commit

-- The leader's log has grown to `U` since the request was sent.
theorem aligned (hT : T <+: U) (hG : follower.Represents G)
    (hearlier : ∀ i d e, G[i]? = some d → U[i]? = some e → d.term = e.term → G.take i = U.take i)
    (hx : follower.Accepts args rf') : Aligned (args.prevLogIndex + 1) G T := by
  have ⟨hf, _⟩ := b.log.sent b.sent
  have ⟨_, hx, hs⟩ := hx
  have ⟨_, hc, _⟩ := appendEntries_success hx hs hG.log_pos
  have ⟨d, hd, hdt⟩ := Option.map_eq_some_iff.mp (hG.prev_term hc)
  have ⟨e, he, het⟩ := Option.map_eq_some_iff.mp hf.prev
  have hlt := hf.prev_lt
  have ⟨r, hr⟩ := hT
  have he' : U[args.prevLogIndex]? = some e := by rw [←hr, List.getElem?_append_left hlt, he]
  have htake := hearlier _ d e hd he' (hdt.trans het.symm)
  rw [←hr, List.take_append_of_le_length hlt.le] at htake
  exact .of_take htake hd he (hdt.trans het.symm)

theorem deliver (hG : follower.Represents G) (ha : Aligned (args.prevLogIndex + 1) G T)
    (hx : follower.Accepts args rf') :
    follower.currentTerm ≤ args.term ∧ follower.snapshotLastIndex < args.prevLogIndex + 1 ∧
    rf' = follower.adopt args.term (overlay G T) args.leaderCommit := by
  have ⟨_, he, _⟩ := b.log.sent b.sent
  have ⟨_, hx, hs⟩ := hx
  have ⟨ht, hc, hrf⟩ := appendEntries_success hx hs hG.log_pos
  have hle := hc.left
  rw [(follower.followLeader_log args.term).right.left] at hle
  exact ⟨ht, Nat.lt_succ_of_le hle, hrf.trans <| hG.deliver hc he b.leaderCommit_lt ha⟩

-- After both requests only the order of the two overlays is left to compare.
theorem deliver_deliver {leader' : Raft n C D} {T' : List (LogEntry C)}
    {args' : AppendEntriesArgs n C} {rf'' : Raft n C D} (b' : leader'.Builds q T' args')
    (ht : args'.term = args.term) (hT : T <+: U) (hT' : T' <+: U) (hG : follower.Represents G)
    (ha : Aligned (args.prevLogIndex + 1) G T) (ha' : Aligned (args'.prevLogIndex + 1) G T')
    (hx : follower.Accepts args rf') (hx' : rf'.Accepts args' rf'') :
    rf''.Represents (overlay (overlay G T) T') ∧ follower.snapshotLastIndex ≤ args.prevLogIndex ∧
    rf'' = follower.adopt args.term (overlay (overlay G T) T')
      (max args.leaderCommit args'.leaderCommit) := by
  have ⟨hle, hk, hrf⟩ := b.deliver hG ha hx
  subst hrf
  have hG' := hG.adopt ha hk args.term args.leaderCommit
  have hal := ha'.overlay hT' hT
  have ⟨_, hk', hrf⟩ := b'.deliver hG' hal hx'
  subst hrf
  refine ⟨hG'.adopt hal hk' _ _, Nat.le_of_lt_succ hk, ?_⟩
  rw [ht, adopt_adopt hle]

end Builds

theorem Represents.entry (h : rf.Represents G) {i : Nat} (hi : rf.snapshotLastIndex < i) :
    rf.entry i = G[i]? := by
  rw [Raft.entry, if_pos hi.le, h.getElem? hi]

theorem appendEntries_reordered {leader₁ leader₂ follower : Raft n C D} {q : Fin n}
    {T₁ T₂ G : List (LogEntry C)} {args₁ args₂ : AppendEntriesArgs n C}
    (b₁ : leader₁.Builds q T₁ args₁) (b₂ : leader₂.Builds q T₂ args₂)
    (hterm : leader₁.currentTerm = leader₂.currentTerm) (hT : T₁ <+: T₂)
    (hG : follower.Represents G)
    (hearlier : ∀ i d e, G[i]? = some d → T₂[i]? = some e → d.term = e.term →
      G.take i = T₂.take i) :
    (∀ args, args = args₁ ∨ args = args₂ →
      ∃ rf reply, follower.appendEntries args = .ok (rf, reply) ∧
      rf.appendEntries args = .ok (rf, { reply with term := rf.currentTerm })) ∧
    (∀ rf₁ rf₁₂ rf₂ rf₂₁, follower.Accepts args₁ rf₁ → rf₁.Accepts args₂ rf₁₂ →
      follower.Accepts args₂ rf₂ → rf₂.Accepts args₁ rf₂₁ →
      rf₁₂ = rf₂₁ ∧
      ((∀ (i : Nat) d e, G[i]? = some d → T₂[i]? = some e → d.term = e.term → d = e) →
        ∀ args, args = args₁ ∨ args = args₂ → ∀ (i : Nat) e, args.entries[i]? = some e →
          rf₁₂.entry (args.prevLogIndex + 1 + i) = some e)) := by
  refine ⟨fun args _ => appendEntries_twice hG.log_pos args,
    fun rf₁ rf₁₂ rf₂ rf₂₁ h₁ h₁₂ h₂ h₂₁ => ?_⟩
  have ⟨_, he₁, ht₁, _⟩ := b₁.log.sent b₁.sent
  have ⟨_, he₂, ht₂, _⟩ := b₂.log.sent b₂.sent
  have ht : args₂.term = args₁.term := ht₂.trans (hterm.symm.trans ht₁.symm)
  have hr := List.prefix_refl T₂
  have ha₁ := b₁.aligned hT hG hearlier h₁
  have ha₂ := b₂.aligned hr hG hearlier h₂
  have ⟨hG₁₂, hs₁, hrf₁₂⟩ := b₁.deliver_deliver b₂ ht hT hr hG ha₁ ha₂ h₁ h₁₂
  have ⟨_, hs₂, hrf₂₁⟩ := b₂.deliver_deliver b₁ ht.symm hr hT hG ha₂ ha₁ h₂ h₂₁
  rw [overlay_overlay_left hT] at hG₁₂ hrf₁₂
  rw [overlay_overlay hT, ht, Nat.max_comm] at hrf₂₁
  refine ⟨hrf₁₂.trans hrf₂₁.symm, fun hentry args ha i e he => ?_⟩
  have hsnap : rf₁₂.snapshotLastIndex = follower.snapshotLastIndex := by
    rw [hrf₁₂]
    exact (follower.followLeader_log args₁.term).right.left
  -- Each of the requests carries the end of a log that the common log starts with.
  have hcommon := prefix_overlay hentry
  have hcarried : follower.snapshotLastIndex ≤ args.prevLogIndex ∧
      ∃ T, T <+: overlay G T₂ ∧ args.entries = T.drop (args.prevLogIndex + 1) := by
    cases ha <;> subst args
    case inl => exact ⟨hs₁, T₁, hT.trans hcommon, he₁⟩
    case inr => exact ⟨hs₂, T₂, hcommon, he₂⟩
  have ⟨hs, T, ⟨_, hr⟩, hd⟩ := hcarried
  rw [hd, List.getElem?_drop] at he
  rw [hG₁₂.entry (by omega), ←hr,
    List.getElem?_append_left (List.getElem?_eq_some_iff.mp he).choose, he]

-- The leader of term 3 appends a second entry of its own after it has sent the first one. The
-- follower still has an entry of term 2 in the place of the first one.
def former : Raft 3 Nat Unit :=
  { make 0 (⟨none, none⟩ : Persister 3 Nat Unit) with
    state       := .leader
    currentTerm := 3
    log         := [⟨0, none⟩, ⟨1, some 5⟩, ⟨3, some 6⟩]
    nextIndex   := ![3, 1, 3] }

def latter : Raft 3 Nat Unit :=
  { former with
    log         := [⟨0, none⟩, ⟨1, some 5⟩, ⟨3, some 6⟩, ⟨3, some 8⟩]
    commitIndex := 2
    nextIndex   := ![4, 2, 3] }

def straggler : Raft 3 Nat Unit :=
  { make 1 (⟨none, none⟩ : Persister 3 Nat Unit) with
    currentTerm := 2
    log         := [⟨0, none⟩, ⟨1, some 5⟩, ⟨2, some 7⟩] }

theorem appendEntries_reordered_straggler :
    ∃ args₁ args₂ rf₁ rf₂ rf₁₂ rf₂₁, former.Builds 1 former.log args₁ ∧
    latter.Builds 1 latter.log args₂ ∧
      (straggler.Accepts args₁ rf₁ ∧ rf₁.Accepts args₂ rf₁₂) ∧
      (straggler.Accepts args₂ rf₂ ∧ rf₂.Accepts args₁ rf₂₁) ∧
      rf₁₂ = rf₂₁ ∧ ∀ (i : Nat) e, args₂.entries[i]? = some e →
      rf₁₂.entry (args₂.prevLogIndex + 1 + i) = some e := by
  have b₁ : former.Builds 1 former.log ⟨3, 0, 0, 0, 0, [⟨1, some 5⟩, ⟨3, some 6⟩]⟩ :=
    ⟨⟨rfl, rfl⟩, by decide, rfl⟩
  have b₂ : latter.Builds 1 latter.log ⟨3, 0, 2, 1, 1, [⟨3, some 6⟩, ⟨3, some 8⟩]⟩ :=
    ⟨⟨rfl, rfl⟩, by decide, rfl⟩
  have hG : straggler.Represents straggler.log := ⟨rfl, rfl⟩
  have hagree : ∀ i d e, straggler.log[i]? = some d → latter.log[i]? = some e → d.term = e.term →
      straggler.log.take i = latter.log.take i ∧ d = e := by
    rintro (_ | _ | _ | i) d e hd he ht
    case zero | succ.zero => cases hd; cases he; exact ⟨rfl, rfl⟩
    case succ.succ.zero   => cases hd; cases he; cases ht
    case succ.succ.succ   => cases hd
  have h := appendEntries_reordered b₁ b₂ rfl ⟨_, rfl⟩ hG fun i d e hd he ht =>
    (hagree i d e hd he ht).left
  have ⟨heq, hall⟩ := h.right _ _ _ _ ⟨_, rfl, rfl⟩ ⟨_, rfl, rfl⟩ ⟨_, rfl, rfl⟩ ⟨_, rfl, rfl⟩
  exact ⟨_, _, _, _, _, _, b₁, b₂, ⟨⟨_, rfl, rfl⟩, ⟨_, rfl, rfl⟩⟩, ⟨⟨_, rfl, rfl⟩, ⟨_, rfl, rfl⟩⟩,
    heq, hall (fun i d e hd he ht => (hagree i d e hd he ht).right) _ (.inr rfl)⟩

-- Two servers with different entries of one term at the same index. They agree on all entries
-- before it.
def original : Raft 3 Nat Unit :=
  { make 0 (⟨none, none⟩ : Persister 3 Nat Unit) with
    state       := .leader
    currentTerm := 1
    log         := [⟨0, none⟩, ⟨1, some 5⟩]
    nextIndex   := ![2, 1, 2] }

def prolonged : Raft 3 Nat Unit :=
  { original with
    log         := [⟨0, none⟩, ⟨1, some 5⟩, ⟨1, some 6⟩]
    nextIndex   := ![3, 1, 2] }

def imposter : Raft 3 Nat Unit :=
  { make 1 (⟨none, none⟩ : Persister 3 Nat Unit) with
    currentTerm := 1
    log         := [⟨0, none⟩, ⟨1, some 7⟩] }

theorem appendEntries_reordered_imposter :
    ∃ args₁ args₂ rf₁ rf₂ rf, original.Builds 1 original.log args₁ ∧
    prolonged.Builds 1 prolonged.log args₂ ∧
      original.currentTerm = prolonged.currentTerm ∧ original.log <+: prolonged.log ∧
      imposter.Represents imposter.log ∧
      (∀ i d e, imposter.log[i]? = some d → prolonged.log[i]? = some e → d.term = e.term →
        imposter.log.take i = prolonged.log.take i) ∧
      (imposter.Accepts args₁ rf₁ ∧ rf₁.Accepts args₂ rf) ∧
      (imposter.Accepts args₂ rf₂ ∧ rf₂.Accepts args₁ rf) ∧
      args₂.entries[0]? = some ⟨1, some 5⟩ ∧
      rf.entry (args₂.prevLogIndex + 1) = some ⟨1, some 7⟩ := by
  have hearlier : ∀ i d e, imposter.log[i]? = some d → prolonged.log[i]? = some e →
      d.term = e.term →
      imposter.log.take i = prolonged.log.take i := by
    rintro (_ | _ | i) d e hd he ht
    case zero | succ.zero => rfl
    case succ.succ        => cases hd
  exact ⟨⟨1, 0, 0, 0, 0, [⟨1, some 5⟩]⟩, ⟨1, 0, 0, 0, 0, [⟨1, some 5⟩, ⟨1, some 6⟩]⟩, _, _, _,
    ⟨⟨rfl, rfl⟩, by decide, rfl⟩, ⟨⟨rfl, rfl⟩, by decide, rfl⟩, rfl, ⟨_, rfl⟩, ⟨rfl, rfl⟩, hearlier,
    ⟨⟨_, rfl, rfl⟩, ⟨_, rfl, rfl⟩⟩, ⟨⟨_, rfl, rfl⟩, ⟨_, rfl, rfl⟩⟩, rfl, rfl⟩

end Raft
