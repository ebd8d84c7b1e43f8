import DistributedSystems.Library.TermLog
import DistributedSystems.Raft.Theorems.Handlers

-- The log of a server after any number of compactions, compared to the log as it would be without.

variable {n : Nat} {C D : Type}

instance : Termed (LogEntry C) where
  termOf := LogEntry.term

open TermLog

namespace Raft

variable {rf rf' : Raft n C D} {F T : List (LogEntry C)}

-- The entry at the index of the snapshot has lost its command, all entries before it are gone.
structure Represents (rf : Raft n C D) (F : List (LogEntry C)) : Prop where
  head : F[rf.snapshotLastIndex]?.map (·.term) = some rf.snapshotLastTerm
  log  : rf.log = ⟨rf.snapshotLastTerm, none⟩ :: F.drop (rf.snapshotLastIndex + 1)

namespace Represents

theorem base_lt (h : rf.Represents F) : rf.snapshotLastIndex < F.length := by
  have ⟨_, he, _⟩ := Option.map_eq_some_iff.mp h.head
  exact (List.getElem?_eq_some_iff.mp he).choose

theorem length (h : rf.Represents F) : rf.log.length = F.length - rf.snapshotLastIndex := by
  have := h.base_lt
  simp only [h.log, List.length_cons, List.length_drop]
  omega

theorem logLength (h : rf.Represents F) : rf.logLength = F.length := by
  have := h.base_lt
  simp only [Raft.logLength, h.length]
  omega

theorem getElem? (h : rf.Represents F) {i : Nat} (hi : rf.snapshotLastIndex < i) :
    rf.log[i - rf.snapshotLastIndex]? = F[i]? := by
  have ⟨k, hk⟩ : ∃ k, i - rf.snapshotLastIndex = k + 1 := ⟨i - rf.snapshotLastIndex - 1, by omega⟩
  rw [h.log, hk, List.getElem?_cons_succ, List.getElem?_drop]
  congr 1
  omega

theorem getElem?_term (h : rf.Represents F) {i : Nat} (hi : rf.snapshotLastIndex ≤ i) :
    rf.log[i - rf.snapshotLastIndex]?.map (·.term) = F[i]?.map (·.term) := by
  cases Nat.eq_or_lt_of_le hi
  case inr hi => rw [h.getElem? hi]
  case inl hi => rw [←hi, Nat.sub_self, h.head, h.log]; rfl

-- Two logs that have never been compacted agree where the logs that they stand for do.
theorem getElem?_congr {G : List (LogEntry C)} (h : rf.Represents F) (h' : rf'.Represents G)
    (hb : rf.snapshotLastIndex = 0) (hb' : rf'.snapshotLastIndex = 0) {i : Nat}
    (hi : F[i]? = G[i]?) :
    rf.log[i]? = rf'.log[i]? := by
  cases i
  case succ i =>
    have h₁ := h.getElem? (i := i + 1) (by omega)
    have h₂ := h'.getElem? (i := i + 1) (by omega)
    rw [hb] at h₁
    rw [hb'] at h₂
    exact h₁.trans (hi.trans h₂.symm)
  case zero =>
    have h₁ := h.head
    have h₂ := h'.head
    rw [hb, hi] at h₁
    rw [hb'] at h₂
    rw [h.log, h'.log, Option.some.inj (h₁.symm.trans h₂)]
    rfl

theorem map_term (h : rf.Represents F) (hb : rf.snapshotLastIndex = 0) :
    rf.log.map (·.term) = F.map (·.term) := by
  apply List.ext_getElem?
  intro i
  have := h.getElem?_term (i := i) (hb ▸ Nat.zero_le i)
  rw [hb] at this
  simpa using this

theorem logAt (h : rf.Represents F) {i : Nat} (hi : rf.snapshotLastIndex ≤ i) (hl : i < F.length) :
    ∃ e, rf.logAt (rf.absoluteIndexToLogIndex i) = .ok e ∧ e.term = F[i].term ∧
      (rf.snapshotLastIndex < i → e = F[i]) := by
  have hx := h.length
  have hg : i - rf.snapshotLastIndex < rf.log.length := by omega
  refine ⟨rf.log[i - rf.snapshotLastIndex], logAt_of_getElem? hi (List.getElem?_eq_getElem hg), ?_,
    fun hi => ?_⟩
  · have := h.getElem?_term hi
    simpa [List.getElem?_eq_getElem hg, List.getElem?_eq_getElem hl] using this
  · have := h.getElem? hi
    simpa [List.getElem?_eq_getElem hg, List.getElem?_eq_getElem hl] using this

theorem drop (h : rf.Represents F) {i : Nat} (hi : rf.snapshotLastIndex < i) :
    rf.log.drop (i - rf.snapshotLastIndex) = F.drop i := by
  have ⟨k, hk⟩ : ∃ k, i - rf.snapshotLastIndex = k + 1 := ⟨i - rf.snapshotLastIndex - 1, by omega⟩
  rw [h.log, hk, List.drop_succ_cons, List.drop_drop]
  congr 1
  omega

theorem logFrom (h : rf.Represents F) {i : Nat} (hi : rf.snapshotLastIndex < i)
    (hl : i ≤ F.length) : rf.logFrom (rf.absoluteIndexToLogIndex i) = .ok (F.drop i) := by
  have hx : rf.absoluteIndexToLogIndex i = (i - rf.snapshotLastIndex : Nat) := by
    simp only [absoluteIndexToLogIndex]
    omega
  rw [rf.logFrom_of_le hx (by rw [h.length]; omega), h.drop hi]

theorem append (h : rf.Represents F) (e : LogEntry C) :
    { rf with log := rf.log ++ [e] }.Represents (F ++ [e]) where
  head := by rw [List.getElem?_append_left h.base_lt]; exact h.head
  log  := by rw [List.drop_append_of_le_length h.base_lt]; exact congrArg (· ++ [e]) h.log

theorem last (h : rf.Represents F) :
    ∃ e, rf.log.getLast? = some e ∧ TermLog.last F = (e.term, rf.logLength - 1) := by
  have hb := h.base_lt
  have ht := h.getElem?_term (i := F.length - 1) (by omega)
  have hg : F.length - 1 - rf.snapshotLastIndex = rf.log.length - 1 := by rw [h.length]; omega
  rw [hg, ←List.getLast?_eq_getElem?, ←List.getLast?_eq_getElem?] at ht
  have hn : F.getLast? ≠ none := by
    rw [ne_eq, List.getLast?_eq_none_iff]
    intro hc
    simp [hc] at hb
  have ⟨f, hf⟩ := Option.ne_none_iff_exists'.mp hn
  rw [hf] at ht
  have ⟨e, he, het⟩ := Option.map_eq_some_iff.mp ht
  refine ⟨e, he, ?_⟩
  simp only [TermLog.last, hf, Option.elim, h.logLength, het]
  rfl

theorem logAt_last (h : rf.Represents F) :
    ∃ e, rf.logAt (rf.log.length - 1) = .ok e ∧ TermLog.last F = (e.term, rf.logLength - 1) := by
  have ⟨e, he, hl⟩ := h.last
  have hb := h.length
  have := h.base_lt
  refine ⟨e, ?_, hl⟩
  rw [List.getLast?_eq_getElem?] at he
  rw [show (rf.log.length : Int) - 1 = (rf.log.length - 1 : Nat) by omega]
  simp [Raft.logAt, he]

theorem logTo (h : rf.Represents F) {i : Nat} (hi : rf.snapshotLastIndex < i) (hl : i ≤ F.length) :
    rf.logTo (rf.absoluteIndexToLogIndex i) =
      .ok (⟨rf.snapshotLastTerm, none⟩ :: (F.take i).drop (rf.snapshotLastIndex + 1)) := by
  have hx : rf.absoluteIndexToLogIndex i = (i - rf.snapshotLastIndex : Nat) := by
    simp only [absoluteIndexToLogIndex]
    omega
  obtain ⟨k, hk⟩ : ∃ k, i - rf.snapshotLastIndex = k + 1 := ⟨i - rf.snapshotLastIndex - 1, by omega⟩
  rw [rf.logTo_of_le hx (by rw [h.length]; omega), h.log, hk, List.take_succ_cons, List.take_drop]
  congr 4
  omega

-- A log that agrees with the represented one up to the snapshot can take its place.
theorem replace (h : rf.Represents F) (ht : F.take (rf.snapshotLastIndex + 1) <+: T) :
    Represents
      { rf with log := ⟨rf.snapshotLastTerm, none⟩ :: T.drop (rf.snapshotLastIndex + 1) } T where
  log  := rfl
  head := by
    have hb := h.base_lt
    have hx := List.prefix_iff_getElem?.mp ht rf.snapshotLastIndex (by simp; omega)
    rw [List.getElem_take] at hx
    simp only [hx, ←h.head, List.getElem?_eq_getElem hb]

-- The loop of `AppendEntries`: by induction on the entries that are still to be compared, all of
-- the log before which agrees with the log of the leader.
theorem mergeEntries (h : rf.Represents F) (hM : Matching F T) {i : Nat}
    {entries : List (LogEntry C)} (hb : rf.snapshotLastIndex < i) (hi : i ≤ F.length)
    (hm : F.take i = T.take i) (he : entries <+: T.drop i) :
    ∃ log, rf.mergeEntries i entries = .ok { rf with log } ∧
      { rf with log }.Represents (merge F (T.take (i + entries.length))) := by
  induction entries generalizing i <;> simp only [Raft.mergeEntries]
  case nil =>
    refine ⟨rf.log, rfl, ?_⟩
    rw [List.length_nil, Nat.add_zero, ←hm, merge_eq_left (List.take_prefix i F)]
    exact h
  case cons e es hind =>
    -- The rest of the leader's log as far as it has been sent.
    have hx : T.take (i + (e :: es).length) = T.take i ++ e :: es := by
      rw [List.take_add, ←List.prefix_iff_eq_take.mp he]
    have hTi : T[i]? = some e := by
      have := List.prefix_iff_getElem?.mp he 0 (by simp)
      simpa [List.getElem?_drop] using this
    have ht : F.take (rf.snapshotLastIndex + 1) <+: T.take i ++ e :: es := by
      have : F.take (rf.snapshotLastIndex + 1) <+: F.take i := List.take_prefix_take_left hb
      exact (hm ▸ this).trans (List.prefix_append _ _)
    split
    case isFalse hl =>
      have hi : i = F.length := by rw [h.logLength] at hl; omega
      have hF : F = T.take i := by rw [←hm, hi, List.take_length]
      have hn : ¬(T.take i ++ e :: es <+: F) := fun hc => by
        have := hc.length_le
        rw [←hF] at this
        simp at this
      refine ⟨_, rfl, ?_⟩
      rw [hx, merge_eq_right hn]
      convert h.replace ht using 3
      rw [h.log, List.cons_append, ←hF, List.drop_append_of_le_length (by omega)]
    case isTrue hl =>
      have hi : i < F.length := by rw [h.logLength] at hl; omega
      obtain ⟨old, ho, _, hoi⟩ := h.logAt hb.le hi
      rw [ho]
      simp only [bind, Except.bind]
      have hFi : F[i]? = some old := by rw [hoi hb, List.getElem?_eq_getElem hi]
      split
      case isFalse heq =>
        have hm := hM hFi hTi (not_not.mp heq)
        have he : es <+: T.drop (i + 1) := by
          obtain ⟨r, hr⟩ := he
          exact ⟨r, by rw [←List.tail_drop, ←hr]; rfl⟩
        obtain ⟨log, h₁, h₂⟩ := hind (by omega) hi hm he
        refine ⟨log, h₁, ?_⟩
        rwa [List.length_cons, Nat.add_comm es.length, ←Nat.add_assoc]
      case isTrue hne =>
        have hn : ¬(T.take i ++ e :: es <+: F) := fun hc => by
          have hl : (T.take i).length = i := by rw [←hm, List.length_take]; omega
          have hc := List.prefix_iff_getElem?.mp hc i (by simp [hl])
          rw [List.getElem_append_right hl.le] at hc
          simp only [hl, Nat.sub_self, List.getElem_cons_zero] at hc
          cases hFi.symm.trans hc
          exact hne rfl
        rw [h.logTo hb hi.le]
        refine ⟨_, rfl, ?_⟩
        rw [hx, merge_eq_right hn]
        convert h.replace ht using 3
        rw [List.cons_append, hm, List.drop_append_of_le_length]
        rw [←hm, List.length_take]
        omega

theorem congr (h : rf.Represents F) (hl : rf'.log = rf.log)
    (hi : rf'.snapshotLastIndex = rf.snapshotLastIndex)
    (ht : rf'.snapshotLastTerm = rf.snapshotLastTerm) : rf'.Represents F where
  head := by rw [hi, ht]; exact h.head
  log  := by rw [hi, ht, hl]; exact h.log

theorem makeSnapshot (h : rf.Represents F) {i : Nat} (hl : i < F.length) (data : D) :
    ∃ rf', rf.makeSnapshot i data = .ok rf' ∧ rf'.Represents F := by
  simp only [Raft.makeSnapshot]
  split
  case isTrue => exact ⟨rf, rfl, h⟩
  case isFalse hi =>
    have hi : rf.snapshotLastIndex < i := Nat.lt_of_not_le hi
    obtain ⟨e, he, het, _⟩ := h.logAt hi.le hl
    rw [he]
    simp only [bind, Except.bind]
    rw [trimLogFrom_ok (by exact hi.le) (by exact h.logLength ▸ hl)]
    refine ⟨_, rfl, { head := ?_, log := ?_ }⟩
    · simp [List.getElem?_eq_getElem hl, het]
    · simp only [h.drop (Nat.lt_succ_of_lt hi)]

theorem compactedLog (h : rf.Represents F) (hM : Matching F T) {i t : Nat}
    (hi : rf.snapshotLastIndex < i) (ht : T[i]?.map (·.term) = some t)
    (h₁ : rf'.log = rf.compactedLog i t) (h₂ : rf'.snapshotLastIndex = i)
    (h₃ : rf'.snapshotLastTerm = t) :
    rf'.Represents (merge F (T.take (i + 1))) := by
  have ⟨e, he, het⟩ := Option.map_eq_some_iff.mp ht
  have hl := (List.getElem?_eq_some_iff.mp he).choose
  simp only [Raft.compactedLog, h.getElem? hi, h.drop (Nat.lt_succ_of_lt hi)] at h₁
  split at h₁
  case isTrue hc =>
    have ⟨d, hd, hdt⟩ := Option.map_eq_some_iff.mp hc
    have hm := hM hd he (hdt.trans het.symm)
    rw [←hm, merge_eq_left (List.take_prefix _ _)]
    exact { head := by rw [h₂, h₃]; exact hc, log := by rw [h₁, h₂, h₃] }
  case isFalse hc =>
    have hn : ¬(T.take (i + 1) <+: F) := fun hp => by
      have := List.prefix_iff_getElem?.mp hp i (by simp; omega)
      rw [List.getElem_take] at this
      rw [this, ←List.getElem?_eq_getElem hl] at hc
      exact hc ht
    rw [merge_eq_right hn]
    refine { head := ?_, log := ?_ }
    · rw [h₂, h₃, List.getElem?_take_of_lt (Nat.lt_succ_self i)]; exact ht
    · rw [h₁, h₂, h₃, List.drop_eq_nil_of_le (by simp)]

theorem sendTo (h : rf.Represents F) {q : Fin n} (hb : rf.snapshotLastIndex < rf.nextIndex q)
    (hl : rf.nextIndex q ≤ F.length) :
    ∃ prevLogTerm, F[rf.nextIndex q - 1]?.map (·.term) = some prevLogTerm ∧
      rf.sendTo q = .ok (.appendEntries {
        term         := rf.currentTerm
        leaderId     := rf.me
        leaderCommit := rf.commitIndex
        prevLogIndex := rf.nextIndex q - 1
        prevLogTerm
        entries      := F.drop (rf.nextIndex q) }) := by
  have hx : rf.absoluteIndexToLogIndex (rf.nextIndex q) - 1
      = rf.absoluteIndexToLogIndex (rf.nextIndex q - 1) := by
    simp only [Raft.absoluteIndexToLogIndex]
    omega
  have hlt : rf.nextIndex q - 1 < F.length := by omega
  obtain ⟨prev, hp, hpt, _⟩ := h.logAt (i := rf.nextIndex q - 1) (by omega) hlt
  refine ⟨prev.term, by simp [List.getElem?_eq_getElem hlt, hpt], ?_⟩
  simp only [Raft.sendTo, if_pos hb, hx, hp, h.logFrom hb hl]
  rfl

end Represents

-- The hint of a refused request

theorem firstWithTerm_le (log : List (LogEntry C)) (t i first : Nat) :
    firstWithTerm log t i first ≤ max i first := by
  induction i generalizing first <;> simp only [firstWithTerm]
  case zero => split <;> omega
  case succ i hi =>
    refine (hi _).trans ?_
    split <;> omega

theorem buildFailedReply_ok {i : Nat} (hi : i < rf.log.length) (reply : AppendEntriesReply) :
    ∃ reply', rf.buildFailedReply i reply = .ok reply' ∧ reply'.term = reply.term ∧
      reply'.success = false ∧ 1 ≤ reply'.failedFirstIndex ∧
      reply'.failedFirstIndex ≤ max (i + rf.snapshotLastIndex) 1 := by
  have he : rf.logAt i = .ok rf.log[i] := by
    simp [Raft.logAt, List.getElem?_eq_getElem hi]
  simp only [buildFailedReply, he]
  refine ⟨_, rfl, rfl, rfl, Nat.le_max_right _ _, ?_⟩
  have := firstWithTerm_le rf.log rf.log[i].term i i
  simp only [Int.toNat_natCast]
  split <;> omega

end Raft

-- The request carries a part of the log `T`.
structure AppendEntriesArgs.Fits (args : AppendEntriesArgs n C) (T : List (LogEntry C)) : Prop where
  prev    : T[args.prevLogIndex]?.map (·.term) = some args.prevLogTerm
  entries : args.entries <+: T.drop (args.prevLogIndex + 1)

-- All that is sent is the rest of the leader's log.
theorem Raft.Represents.sent {rf : Raft n C D} {T : List (LogEntry C)} (h : rf.Represents T)
    {q : Fin n} {args : AppendEntriesArgs n C} (hs : rf.sendTo q = .ok (.appendEntries args)) :
    args.Fits T ∧ args.entries = T.drop (args.prevLogIndex + 1) ∧ args.term = rf.currentTerm ∧
    args.prevLogIndex + 1 = rf.nextIndex q ∧ args.leaderCommit = rf.commitIndex := by
  by_cases hb : rf.snapshotLastIndex < rf.nextIndex q
  case neg => cases (if_neg hb).symm.trans hs
  case pos =>
    have hl : rf.nextIndex q ≤ T.length := by
      obtain ⟨_, _, hs⟩ := bind_ok <| (if_pos hb).symm.trans hs
      obtain ⟨_, hf, _⟩ := bind_ok hs
      have hlen := h.length
      rw [Raft.logFrom, Raft.absoluteIndexToLogIndex] at hf
      split_ifs at hf
      omega
    obtain ⟨t, ht, hs'⟩ := h.sendTo hb hl
    cases hs'.symm.trans hs
    have hn : rf.nextIndex q - 1 + 1 = rf.nextIndex q := by omega
    refine ⟨{ prev := ht, entries := ?_ }, ?_, rfl, hn, rfl⟩ <;> simp only [hn]
    exact List.prefix_refl _

namespace AppendEntriesArgs.Fits

variable {args : AppendEntriesArgs n C} {T : List (LogEntry C)}

theorem prev_lt (h : args.Fits T) : args.prevLogIndex < T.length :=
  have ⟨_, he, _⟩ := Option.map_eq_some_iff.mp h.prev
  (List.getElem?_eq_some_iff.mp he).choose

theorem last_lt (h : args.Fits T) : args.prevLogIndex + args.entries.length < T.length := by
  have := h.entries.length_le
  have := h.prev_lt
  rw [List.length_drop] at *
  omega

end AppendEntriesArgs.Fits

namespace Raft

variable {rf rf' : Raft n C D} {F T : List (LogEntry C)}

-- What a server at most as far as the term of a request does with it.
inductive Appends (rf : Raft n C D) (args : AppendEntriesArgs n C) (F T : List (LogEntry C)) :
    Raft n C D → AppendEntriesReply → Prop
  | accept {log} :
    ({ rf.followLeader args.term with log }.Represents
      (merge F (T.take (args.prevLogIndex + args.entries.length + 1)))) →
    Appends rf args F T ({ rf.followLeader args.term with log }.followCommit args.leaderCommit)
      { term := rf.currentTerm, success := true }
  | behind {reply} :
    (reply.term = rf.currentTerm) → (reply.success = false) →
    (args.prevLogIndex < rf.snapshotLastIndex) →
    (reply.failedFirstIndex = rf.snapshotLastIndex) →
    Appends rf args F T (rf.followLeader args.term) reply
  | refuse {reply} :
    (reply.term = rf.currentTerm) → (reply.success = false) →
    (¬(T.take (args.prevLogIndex + 1) <+: F)) → (1 ≤ reply.failedFirstIndex) →
    (reply.failedFirstIndex ≤ max args.prevLogIndex 1) →
    Appends rf args F T (rf.followLeader args.term) reply

theorem followLeader_log (rf : Raft n C D) (term : Nat) :
    (rf.followLeader term).log = rf.log ∧
    (rf.followLeader term).snapshotLastIndex = rf.snapshotLastIndex ∧
    (rf.followLeader term).snapshotLastTerm = rf.snapshotLastTerm ∧
    (rf.followLeader term).commitIndex = rf.commitIndex := by
  simp only [followLeader]
  split <;> simp [becomeFollower]

theorem Represents.appendEntries (h : rf.Represents F) (hM : Matching F T)
    {args : AppendEntriesArgs n C} (hf : args.Fits T) (ht : rf.currentTerm ≤ args.term) :
    ∃ rf' reply, rf.appendEntries args = .ok (rf', reply) ∧ rf.Appends args F T rf' reply := by
  obtain ⟨h₁, h₂, h₃, _⟩ := rf.followLeader_log args.term
  have hg := h.congr h₁ h₂ h₃
  obtain ⟨e, he, het⟩ := Option.map_eq_some_iff.mp hf.prev
  have hp := hf.prev_lt
  simp only [Raft.appendEntries, if_neg (Nat.not_lt.mpr ht)]
  generalize hgx : rf.followLeader args.term = g at *
  split
  case isTrue hl =>
    rw [hg.logLength] at hl
    have hb := hg.base_lt
    have hi : g.log.length - 1 < g.log.length := by rw [hg.length]; omega
    obtain ⟨reply, hr, hrt, hrs, hr₁, hr₂⟩ := buildFailedReply_ok hi { term := rf.currentTerm }
    rw [show (g.log.length : Int) - 1 = (g.log.length - 1 : Nat) by omega, hr]
    refine ⟨g, reply, rfl, hgx ▸ .refuse hrt hrs (fun hc => ?_) hr₁ ?_⟩
    · have := hc.length_le
      rw [List.length_take] at this
      omega
    · have := hg.length
      omega
  case isFalse hl =>
    rw [hg.logLength] at hl
    split
    case isTrue hb => exact ⟨_, _, rfl, hgx ▸ .behind rfl rfl (h₂ ▸ hb) (hgx ▸ h₂)⟩
    case isFalse hb =>
      obtain ⟨prev, hpr, hprt, _⟩ := hg.logAt (Nat.le_of_not_lt hb) (Nat.lt_of_not_le hl)
      rw [hpr]
      simp only [bind, Except.bind]
      split
      case isTrue hne =>
        have hi : args.prevLogIndex - g.snapshotLastIndex < g.log.length := by rw [hg.length]; omega
        obtain ⟨reply, hr, hrt, hrs, hr₁, hr₂⟩ := buildFailedReply_ok hi { term := rf.currentTerm }
        rw [show g.absoluteIndexToLogIndex args.prevLogIndex
          = (args.prevLogIndex - g.snapshotLastIndex : Nat) by
            simp only [absoluteIndexToLogIndex]; omega, hr]
        refine ⟨g, reply, rfl, hgx ▸ .refuse hrt hrs (fun hc => hne ?_) hr₁ (by omega)⟩
        have := List.prefix_iff_getElem?.mp hc args.prevLogIndex (by simp; omega)
        rw [List.getElem_take, List.getElem?_eq_getElem (Nat.lt_of_not_le hl)] at this
        rw [List.getElem?_eq_getElem hp] at he
        cases he
        rw [hprt, Option.some.inj this, het]
      case isFalse heq =>
        have hm := hM (List.getElem?_eq_getElem (Nat.lt_of_not_le hl)) he
          (hprt.symm.trans <| (not_not.mp heq).trans het.symm)
        obtain ⟨log, hx, hr⟩ := hg.mergeEntries hM (Nat.lt_succ_of_le (Nat.le_of_not_lt hb))
          (Nat.lt_of_not_le hl) hm hf.entries
        rw [hx]
        rw [Nat.succ_eq_add_one, Nat.add_right_comm] at hr
        subst hgx
        exact ⟨_, _, rfl, .accept hr⟩

end Raft
