import DistributedSystems.Raft.Theorems.Election

variable {n : Nat} {C D : Type}

-- Streams of messages

namespace ApplyMsg

-- The message can come right after one with index `i`.
def Follows (i : Nat) : ApplyMsg C D → Prop
  | command _ j => j = i + 1
  | snapshot .. => True

end ApplyMsg

-- Every command has the index of the message before it plus one. The stream starts behind `i`.
def GapFree (i : Nat) : List (ApplyMsg C D) → Prop
  | []          => True
  | msg :: msgs => msg.Follows i ∧ GapFree msg.index msgs

def lastIndex (i : Nat) : List (ApplyMsg C D) → Nat
  | []          => i
  | msg :: msgs => lastIndex msg.index msgs

theorem gapFree_concat {i : Nat} {msgs : List (ApplyMsg C D)} {msg : ApplyMsg C D}
    (h : GapFree i msgs) (hm : msg.Follows (lastIndex i msgs)) : GapFree i (msgs ++ [msg]) := by
  induction msgs generalizing i
  case nil         => exact ⟨hm, trivial⟩
  case cons m _ hi => exact ⟨h.left, hi h.right hm⟩

theorem lastIndex_concat {i : Nat} {msgs : List (ApplyMsg C D)} {msg : ApplyMsg C D} :
    lastIndex i (msgs ++ [msg]) = msg.index := by
  induction msgs generalizing i
  case nil          => rfl
  case cons _ _ hi => exact hi

theorem lastIndex_of_getLast? {i : Nat} {msgs : List (ApplyMsg C D)} {msg : ApplyMsg C D}
    (h : msgs.getLast? = some msg) : lastIndex i msgs = msg.index := by
  obtain ⟨msgs, rfl⟩ := List.getLast?_eq_some_iff.mp h
  exact lastIndex_concat

namespace Raft

variable {rf rf' : Raft n C D}

-- The steps of `applyTicker`

-- What `applyTicker` does first after it has locked the mutex.
def settle (rf : Raft n C D) : Applier C D → Raft n C D
  | .sent (.snapshot _ _ index) =>
    if index = rf.snapshotLastIndex then { rf with isSnapshotApplied := true } else rf
  | _ => rf

-- What it does then, up to the next `Unlock`.
inductive Ticks (rf : Raft n C D) : Raft n C D → Applier C D → Prop
  | snapshot :
    (rf.isSnapshotApplied = false) →
    Ticks rf { rf with lastApplied := rf.snapshotLastIndex }
      (.offering (.snapshot rf.snapshot rf.snapshotLastTerm rf.snapshotLastIndex))
  | command {entry} :
    (rf.isSnapshotApplied = true) → (rf.lastApplied < rf.commitIndex) →
    (rf.snapshotLastIndex ≤ rf.lastApplied + 1) →
    (rf.log[rf.lastApplied + 1 - rf.snapshotLastIndex]? = some entry) →
    Ticks rf { rf with lastApplied := rf.lastApplied + 1 }
      (.offering (.command entry.command (rf.lastApplied + 1)))
  | sleep : Ticks rf rf .sleeping

theorem applyCommands_ok {applier} (hs : rf.isSnapshotApplied = true)
    (h : rf.applyCommands = .ok (rf', applier)) : rf.Ticks rf' applier := by
  simp only [applyCommands] at h
  split at h
  case isFalse => cases h; exact .sleep
  case isTrue hl =>
    have ⟨entry, he, h⟩ := bind_ok h
    cases h
    have ⟨hi, he⟩ := logAt_ok he
    simp only [absoluteIndexToLogIndex] at hi he
    exact .command hs hl (by omega) (by rw [←he]; congr 1; omega)

theorem applySnapshots_ok {applier} (h : rf.applySnapshots = .ok (rf', applier)) :
    rf.Ticks rf' applier := by
  simp only [applySnapshots] at h
  split at h
  case isTrue hs  => cases h; exact .snapshot (by simpa using hs)
  case isFalse hs => exact applyCommands_ok (by simpa using hs) h

theorem applyTicker_ok {applier applier'}
    (h : rf.applyTicker applier = some (.ok (rf', applier'))) :
    (∀ msg, applier ≠ .offering msg) ∧ (rf.settle applier).Ticks rf' applier' := by
  match applier with
  | .sleeping             => exact ⟨nofun, applySnapshots_ok (Option.some.inj h)⟩
  | .sent (.snapshot ..)  => exact ⟨nofun, applySnapshots_ok (Option.some.inj h)⟩
  | .sent (.command ..)   =>
    refine ⟨nofun, ?_⟩
    have h := Option.some.inj h
    split at h
    case isTrue     => cases h; exact .sleep
    case isFalse hs =>
      have hs : rf.isSnapshotApplied = true := by simpa using hs
      exact (applyCommands_ok hs h : rf.Ticks _ _)

-- `applyTicker` can only panic at an entry that is compacted or missing.
def Stuck (rf : Raft n C D) : Prop :=
  rf.isSnapshotApplied = true ∧ rf.lastApplied < rf.commitIndex ∧
  (rf.lastApplied + 1 < rf.snapshotLastIndex ∨ rf.logLength ≤ rf.lastApplied + 1)

theorem applyCommands_error {c} (hs : rf.isSnapshotApplied = true)
    (h : rf.applyCommands = .error c) : rf.Stuck := by
  simp only [applyCommands] at h
  split at h
  case isFalse => cases h
  case isTrue hl =>
    cases bind_error h
    case inr h => have ⟨_, _, h⟩ := h; cases h
    case inl h =>
      have ⟨_, h⟩ := logAt_error h
      simp only [absoluteIndexToLogIndex] at h
      exact ⟨hs, hl, by simp only [logLength]; omega⟩

theorem applySnapshots_error {c} (h : rf.applySnapshots = .error c) : rf.Stuck := by
  simp only [applySnapshots] at h
  split at h
  case isTrue hs  => cases h
  case isFalse hs => exact applyCommands_error (by simpa using hs) h

theorem applyTicker_error {applier c} (h : rf.applyTicker applier = some (.error c)) :
    (∀ msg, applier ≠ .offering msg) ∧ (rf.settle applier).Stuck := by
  match applier with
  | .sleeping             => exact ⟨nofun, applySnapshots_error (Option.some.inj h)⟩
  | .sent (.snapshot ..)  => exact ⟨nofun, applySnapshots_error (Option.some.inj h)⟩
  | .sent (.command ..)   =>
    refine ⟨nofun, ?_⟩
    have h := Option.some.inj h
    split at h
    case isTrue     => cases h
    case isFalse hs =>
      have hs : rf.isSnapshotApplied = true := by simpa using hs
      exact (applyCommands_error hs h : rf.Stuck)

-- The rest of the state is left alone by the first step.
theorem settle_eq (rf : Raft n C D) (applier : Applier C D) :
    ∃ b, rf.settle applier = { rf with isSnapshotApplied := b } := by
  simp only [settle]
  split
  case _ => split <;> exact ⟨_, rfl⟩
  case _ => exact ⟨_, rfl⟩

theorem settle_pending {applier : Applier C D} (h : (rf.settle applier).isSnapshotApplied = false) :
    rf.settle applier = rf ∧ rf.isSnapshotApplied = false := by
  revert h
  unfold settle
  split
  case _ => split <;> simp
  case _ => simp

-- Steps that leave the snapshot alone

structure SameSnapshot (rf rf' : Raft n C D) : Prop where
  lastApplied       : rf'.lastApplied = rf.lastApplied
  isSnapshotApplied : rf'.isSnapshotApplied = rf.isSnapshotApplied
  snapshotLastIndex : rf'.snapshotLastIndex = rf.snapshotLastIndex
  snapshotLastTerm  : rf'.snapshotLastTerm = rf.snapshotLastTerm
  snapshot          : rf'.snapshot = rf.snapshot

namespace SameSnapshot

theorem refl (rf : Raft n C D) : rf.SameSnapshot rf :=
  ⟨rfl, rfl, rfl, rfl, rfl⟩

theorem followLeader (rf : Raft n C D) (term : Nat) : rf.SameSnapshot (rf.followLeader term) := by
  simp only [Raft.followLeader]
  split <;> exact { refl rf with }

theorem observe (rf : Raft n C D) (term : Nat) : rf.SameSnapshot (rf.observe term) := by
  simp only [Raft.observe]
  split <;> exact { refl rf with }

theorem sendRequestVote (rf : Raft n C D) (q : Fin n) (term : Nat) (reply : RequestVoteReply) :
    rf.SameSnapshot (rf.sendRequestVote q term reply) := by
  simp only [Raft.sendRequestVote]
  split
  case isTrue => exact { refl rf with }
  split
  case isTrue => exact refl rf
  split
  case isFalse => exact refl rf
  split <;> exact { refl rf with }

theorem requestVote {args reply} (h : rf.requestVote args = .ok (rf', reply)) :
    rf.SameSnapshot rf' := by
  have hs := observe rf args.term
  cases (requestVote_ok h).right
  case inl h => exact h.right.result ▸ { hs with }
  case inr h =>
    cases h.right
    case inl h => exact h.right ▸ refl rf
    case inr h => exact h.right ▸ hs

theorem appendEntries {args reply} (h : rf.appendEntries args = .ok (rf', reply)) :
    rf.SameSnapshot rf' := by
  have h : _ ∨ _ := (rf.appendEntries_ends args).ok h
  cases h
  case inl h => exact h.right ▸ refl rf
  case inr h =>
    have ⟨_, _, h⟩ := h
    have h : rf' = _ := h
    exact h ▸ { followLeader rf args.term with }

theorem answered {term : Nat} (h : rf.Answered term rf') : rf.SameSnapshot rf' := by
  cases h
  case inl h => exact h.right ▸ { refl rf with }
  case inr h =>
    have ⟨_, _, _, h⟩ := h
    exact h ▸ { refl rf with }

end SameSnapshot
end Raft

namespace Node

-- Where `applyTicker` stands in the stream of messages, which started behind `i`.
def Position (nd : Node n C D) (i : Nat) : Applier C D → Prop
  | .sleeping     => nd.rf.lastApplied = lastIndex i nd.applyCh
  | .offering msg => msg.index = nd.rf.lastApplied ∧ msg.Follows (lastIndex i nd.applyCh)
  | .sent msg     => msg.index = nd.rf.lastApplied ∧ nd.applyCh.getLast? = some msg ∧
    nd.rf.lastApplied = lastIndex i nd.applyCh

structure Streams (nd : Node n C D) (i : Nat) : Prop where
  gapFree  : GapFree i nd.applyCh
  position : nd.Position i nd.applier
  -- As long as no snapshot is waiting to be applied, nothing that is left to apply is compacted.
  compact  : nd.rf.isSnapshotApplied = true → nd.rf.snapshotLastIndex ≤ nd.rf.lastApplied
  received : nd.rf.isSnapshotApplied = true → ∀ k, nd.received = some k → k ≤ nd.rf.lastApplied

namespace Streams

variable {nd nd' : Node n C D} {i : Nat}

theorem boot {me : Fin n} {persister : Persister n C D} {k : Nat} :
    (boot me persister k).Streams (boot me persister k).rf.snapshotLastIndex := by
  cases persister with | mk raftstate _ =>
    cases raftstate <;>
      exact { gapFree := trivial, position := rfl, compact _ := le_rfl, received := nofun }

theorem same (h : nd.Streams i) (hs : nd.rf.SameSnapshot nd'.rf) (ha : nd'.applier = nd.applier)
    (hc : nd'.applyCh = nd.applyCh) : nd'.Streams i where
  gapFree      := hc ▸ h.gapFree
  position     := by
    have := h.position
    rw [ha]
    cases hx : nd.applier <;> simp only [hx, Position] at this ⊢ <;> simpa only [hc, hs.lastApplied]
  compact hx   := by
    rw [hs.snapshotLastIndex, hs.lastApplied]
    exact h.compact (hs.isSnapshotApplied ▸ hx)
  received hx  := by
    rw [Node.received, hc, hs.lastApplied]
    exact h.received (hs.isSnapshotApplied ▸ hx)

theorem stored (h : nd.Streams i) (hl : nd'.rf.lastApplied = nd.rf.lastApplied)
    (ha : nd'.applier = nd.applier) (hc : nd'.applyCh = nd.applyCh)
    (hs : nd'.rf.isSnapshotApplied = true →
      nd.rf.isSnapshotApplied = true ∧ nd.received = some nd'.rf.snapshotLastIndex) :
    nd'.Streams i where
  gapFree      := hc ▸ h.gapFree
  position     := by
    have := h.position
    rw [ha]
    cases hx : nd.applier <;> simp only [hx, Position] at this ⊢ <;> simpa only [hc, hl]
  compact hx   := hl ▸ h.received (hs hx).left _ (hs hx).right
  received hx  := by
    rw [Node.received, hc, hl]
    exact h.received (hs hx).left

-- A snapshot that has been sent is the last message, so it is not a command that was received last.
theorem settle (h : nd.Streams i) (ho : ∀ msg, nd.applier ≠ .offering msg) :
    (nd.rf.settle nd.applier).lastApplied = lastIndex i nd.applyCh ∧
    ((nd.rf.settle nd.applier).isSnapshotApplied = true →
      (nd.rf.settle nd.applier).snapshotLastIndex ≤ (nd.rf.settle nd.applier).lastApplied ∧
      ∀ k, nd.received = some k → k ≤ (nd.rf.settle nd.applier).lastApplied) := by
  have hp := h.position
  match ha : nd.applier with
  | .offering msg           => exact absurd ha (ho msg)
  | .sleeping               =>
    simp only [ha, Position] at hp
    exact ⟨hp, fun hs => ⟨h.compact hs, h.received hs⟩⟩
  | .sent (.command ..)     =>
    simp only [ha, Position] at hp
    exact ⟨hp.right.right, fun hs => ⟨h.compact hs, h.received hs⟩⟩
  | .sent (.snapshot _ _ x) =>
    simp only [ha, Position] at hp
    have ⟨hx, hl, hp⟩ := hp
    simp only [Raft.settle]
    split
    case isFalse      => exact ⟨hp, fun hs => ⟨h.compact hs, h.received hs⟩⟩
    case isTrue heq   => exact ⟨hp, fun _ => ⟨heq ▸ hx.le, by simp [Node.received, hl]⟩⟩

theorem ticks (h : nd.Streams i) (ho : ∀ msg, nd.applier ≠ .offering msg) {rf applier}
    (ht : (nd.rf.settle nd.applier).Ticks rf applier) : { nd with rf, applier }.Streams i := by
  have ⟨hl, hs⟩ := h.settle ho
  generalize nd.rf.settle nd.applier = g at *
  cases ht
  case snapshot hx =>
    exact { gapFree := h.gapFree, position := ⟨rfl, trivial⟩
            compact _ := le_rfl, received := fun hc => by cases hx.symm.trans hc }
  case command hx _ _ _ =>
    have ⟨h₁, h₂⟩ := hs hx
    exact { gapFree := h.gapFree, position := ⟨rfl, congrArg (· + 1) hl⟩
            compact _ := h₁.trans (Nat.le_succ _)
            received _ k hk := (h₂ k hk).trans (Nat.le_succ _) }
  case sleep =>
    exact { gapFree := h.gapFree, position := hl
            compact hx := (hs hx).left, received hx := (hs hx).right }

theorem receive (h : nd.Streams i) {msg} (ha : nd.applier = .offering msg) :
    { nd with applier := .sent msg, applyCh := nd.applyCh ++ [msg] }.Streams i := by
  have hp := h.position
  simp only [ha, Position] at hp
  refine {
    gapFree := gapFree_concat h.gapFree hp.right
    position := ⟨hp.left, by simp, hp.left.symm.trans lastIndex_concat.symm⟩
    compact := h.compact, received _ k hk := ?_ }
  simp only [Node.received, List.getLast?_concat] at hk
  split at hk <;> cases hk
  case _ heq => cases heq; exact hp.left.le

end Streams
end Node

namespace Cluster

variable {s s' : Cluster n C D} {p q : Fin n}

-- The action is a call of `Snapshot` or `InstallSnapshot` on `p` that stores the given snapshot.
def Stores (s : Cluster n C D) (p : Fin n) (data : Option D) (term index : Nat) :
    Event n C D → Prop
  | .snapshot q d => q = p ∧ data = some d ∧ (s.node p).received = some index ∧
    (s.node p).rf.snapshotLastIndex < index ∧
    (s.node p).rf.log[index - (s.node p).rf.snapshotLastIndex]?.map (·.term) = some term
  | .serve call   => call.callee = p ∧ ∃ args, call.request = .installSnapshot args ∧
    (s.node p).rf.currentTerm ≤ args.term ∧
    (s.node p).rf.snapshotLastIndex < args.lastIncludedIndex ∧
    args.data = data ∧ args.lastIncludedTerm = term ∧ args.lastIncludedIndex = index
  | _             => False

-- What an action can do to a server that it does not restart.
inductive Continues (s : Cluster n C D) (a : Event n C D) (p : Fin n) : Node n C D → Prop
  | same {nd} :
    (nd.incarnation = (s.node p).incarnation) → ((s.node p).rf.SameSnapshot nd.rf) →
    (nd.applier = (s.node p).applier) → (nd.applyCh = (s.node p).applyCh) → Continues s a p nd
  | stores {rf} :
    (rf.lastApplied = (s.node p).rf.lastApplied) →
    (s.Stores p rf.snapshot rf.snapshotLastTerm rf.snapshotLastIndex a) →
    (rf.isSnapshotApplied = true → (s.node p).rf.isSnapshotApplied = true ∧
      (s.node p).received = some rf.snapshotLastIndex) →
    Continues s a p ((s.node p).finish rf)
  | ticks {rf applier} :
    (∀ msg, (s.node p).applier ≠ .offering msg) →
    (((s.node p).rf.settle (s.node p).applier).Ticks rf applier) →
    Continues s a p { s.node p with rf, applier }
  | receives {msg} :
    ((s.node p).applier = .offering msg) →
    Continues s a p { s.node p with
      applier := .sent msg, applyCh := (s.node p).applyCh ++ [msg] }

theorem Continues.streams {a : Event n C D} {nd} (h : s.Continues a p nd) {i : Nat}
    (hs : (s.node p).Streams i) : nd.Streams i := by
  cases h
  case same _ h ha hc  => exact hs.same h ha hc
  case stores hl _ h   => exact hs.stored hl rfl rfl h
  case ticks ho h      => exact hs.ticks ho h
  case receives ha     => exact hs.receive ha

theorem Continues.incarnation {a : Event n C D} {nd} (h : s.Continues a p nd) :
    nd.incarnation = (s.node p).incarnation := by
  cases h
  case same h _ _ _ => exact h
  all_goals rfl

theorem Continues.refl (s : Cluster n C D) (a : Event n C D) (p : Fin n) :
    s.Continues a p (s.node p) :=
  .same rfl (.refl _) rfl rfl

-- The server goes on or is booted anew.
def Proceeds (s : Cluster n C D) (a : Event n C D) (p : Fin n) (nd : Node n C D) : Prop :=
  s.Continues a p nd ∨
  ∃ persister, nd = .boot (s.node p).rf.me persister ((s.node p).incarnation + 1) ∧
    (s.panics a = false → persister = (s.node p).persister)

theorem Proceeds.update {a : Event n C D} {nd msgs} (h : s.Proceeds a p nd) (q : Fin n) :
    s.Proceeds a q ((s.update p nd msgs).node q) := by
  by_cases hq : q = p
  case pos => subst hq; simpa using h
  case neg => exact .inl <| by simpa [hq] using Continues.refl s a q

-- One lemma for each kind of step

theorem Proceeds.finish {a : Event n C D} {rf} (h : (s.node p).rf.SameSnapshot rf) :
    s.Proceeds a p ((s.node p).finish rf) :=
  .inl <| .same rfl h rfl rfl

theorem Proceeds.restart {a : Event n C D} :
    s.Proceeds a p ((s.node p).restart (s.node p).persister) :=
  .inr ⟨_, rfl, fun _ => rfl⟩

theorem Proceeds.crash {a : Event n C D} {persister} (h : s.panics a = true) :
    s.Proceeds a p ((s.node p).restart persister) :=
  .inr ⟨persister, rfl, fun hc => absurd (h.symm.trans hc) nofun⟩

theorem snapshot_proceeds {data : D} (h : s.snapshot p data = some s') :
    ∀ q, s.Proceeds (.snapshot p data) q (s'.node q) := by
  have ⟨index, hi, h⟩ := Option.map_eq_some_iff.mp h
  subst h
  cases hx : (s.node p).rf.makeSnapshot index data
  case error c =>
    exact Proceeds.update <| .crash <| by simp [panics, hi, hx, Except.isOk, Except.toBool]
  case ok rf =>
    apply Proceeds.update
    cases Raft.makeSnapshot_ok hx
    case inl h => exact h.right ▸ .finish (.refl _)
    case inr h =>
      have ⟨hb, e, he, h⟩ := h
      subst h
      exact .inl <| .stores rfl ⟨rfl, rfl, hi, hb, by simp [he]⟩ fun hs => ⟨hs, hi⟩

theorem applyTicker_proceeds {a : Event n C D} (h : s.applyTicker p = some s') :
    ∀ q, s.Proceeds a q (s'.node q) := by
  have ⟨x, hx, h⟩ := Option.map_eq_some_iff.mp h
  subst h
  cases x
  case error => exact Proceeds.restart.update
  case ok r =>
    have ⟨ho, ht⟩ := Raft.applyTicker_ok hx
    exact Proceeds.update <| .inl <| .ticks ho ht

theorem receive_proceeds {a : Event n C D} (h : s.receive p = some s') :
    ∀ q, s.Proceeds a q (s'.node q) := by
  simp only [Cluster.receive] at h
  split at h <;> cases h
  case _ ha => exact Proceeds.update <| .inl <| .receives ha

theorem serve_proceeds (s : Cluster n C D) (call : Call n C D) :
    ∀ q, s.Proceeds (.serve call) q ((s.serve call).node q) := by
  simp only [Cluster.serve]
  cases hr : call.request <;> simp only [Raft.serve]
  case requestVote args =>
    cases hx : (s.node call.callee).rf.requestVote args
    case error => exact Proceeds.update <| .crash <| by simp only [panics, hr, Raft.serve, hx]; rfl
    case ok r  => exact Proceeds.update <| .finish <| .requestVote hx
  case appendEntries args =>
    cases hx : (s.node call.callee).rf.appendEntries args
    case error => exact Proceeds.update <| .crash <| by simp only [panics, hr, Raft.serve, hx]; rfl
    case ok r  => exact Proceeds.update <| .finish <| .appendEntries hx
  case installSnapshot args =>
    obtain ⟨rf, hx, h⟩ := (s.node call.callee).rf.installSnapshot_ok args
    rw [hx]
    apply Proceeds.update
    cases h
    case inl h => exact h.left ▸ .finish (.refl _)
    case inr h =>
      obtain ⟨ht, hb, h⟩ := h
      subst h
      exact .inl <| .stores rfl ⟨rfl, args, hr, ht, hb, rfl, rfl, rfl⟩ (by simp)

theorem returned_proceeds {call : Call n C D} {r} (h : s.returned call r = some s') :
    ∀ q, s.Proceeds (.returned call r) q (s'.node q) := by
  obtain ⟨c, q, k, request⟩ := call
  simp only [Cluster.returned] at h
  split at h
  case isTrue => cases h
  case isFalse =>
    obtain ⟨x, hx, h⟩ := Option.map_eq_some_iff.mp h
    subst h
    cases request <;> cases r
    case requestVote.requestVote args r =>
      cases hx
      exact Proceeds.update <| .finish <| .sendRequestVote ..
    case appendEntries.appendEntries args r =>
      have ha := (s.node c).rf.sendEntries_ends q args r
      cases hx
      cases hx : (s.node c).rf.sendEntries q args r <;> rw [hx] at ha
      case error => exact Proceeds.update <| .crash <| by simp only [panics, Raft.returned, hx]; rfl
      case ok    => exact Proceeds.update <| .finish <| .answered ha
    case installSnapshot.installSnapshot args r =>
      have ha := (s.node c).rf.sendInstallSnapshot_ends q args r
      cases hx
      cases hx : (s.node c).rf.sendInstallSnapshot q args r <;> rw [hx] at ha
      case error => exact Proceeds.update <| .crash <| by simp only [panics, Raft.returned, hx]; rfl
      case ok    => exact Proceeds.update <| .finish <| .answered ha
    all_goals cases hx

theorem start_proceeds {command : C} :
    ∀ q, s.Proceeds (.start p command) q ((s.start p command).node q) := by
  have h := (s.node p).rf.start_ends command
  simp only [Cluster.start]
  cases hx : (s.node p).rf.start command <;> rw [hx] at h
  case error => exact Proceeds.update <| .crash <| by simp only [panics, hx]; rfl
  case ok r  =>
    have ⟨_, _, h⟩ := h
    exact Proceeds.update <| .finish <| h ▸ { Raft.SameSnapshot.refl _ with }

theorem startElection_proceeds :
    ∀ q, s.Proceeds (.startElection p) q ((s.startElection p).node q) := by
  simp only [Cluster.startElection]
  cases hx : (s.node p).rf.startElection
  case error => exact Proceeds.update <| .crash <| by simp only [panics, hx]; rfl
  case ok r  =>
    have h := (Raft.startElection_ok hx).left
    exact Proceeds.update <| .finish <| h ▸ { Raft.SameSnapshot.refl _ with }

theorem heartbeat_proceeds {a : Event n C D} (h : s.heartbeat p = some s') :
    ∀ q, s.Proceeds a q (s'.node q) := by
  simp only [Cluster.heartbeat] at h
  split at h
  case isTrue => cases h
  case isFalse =>
    split at h <;> cases h
    case _ => exact Proceeds.update <| .inl <| .refl s a p
    case _ => exact Proceeds.restart.update

theorem failed_proceeds {a : Event n C D} {call : Call n C D} (h : s.failed call = some s') :
    ∀ q, s.Proceeds a q (s'.node q) := by
  simp only [Cluster.failed] at h
  split at h
  case isTrue => cases h
  case isFalse =>
    split at h <;> cases h
    case _ => exact fun q => .inl <| .refl s a q
    case _ => exact Proceeds.update <| .finish <| .refl _

variable [DecidableEq C] [DecidableEq D]

theorem next_proceeds {a : Event n C D} (h : s.next a = some s') :
    ∀ q, s.Proceeds a q (s'.node q) := by
  cases a <;> simp only [next] at h
  case start              => cases h; exact start_proceeds
  case startElection      => cases h; exact startElection_proceeds
  case heartbeat          => exact heartbeat_proceeds h
  case snapshot           => exact snapshot_proceeds h
  case applyTicker        => exact applyTicker_proceeds h
  case receive            => exact receive_proceeds h
  case restart            => cases h; exact Proceeds.restart.update
  all_goals split at h <;> try cases h
  case serve.isTrue       => exact serve_proceeds s _
  case returned.isTrue    => exact returned_proceeds h
  case failed.isTrue      => exact failed_proceeds h

end Cluster

-- The last index of the snapshot that a server starts from.
def Persister.snapshotLastIndex (persister : Persister n C D) : Nat :=
  persister.raftstate.elim 0 (·.snapshotLastIndex)

theorem Node.boot_snapshotLastIndex {me : Fin n} {persister : Persister n C D} {k : Nat} :
    (Node.boot me persister k).rf.snapshotLastIndex = persister.snapshotLastIndex := by
  cases persister with | mk raftstate _ => cases raftstate <;> rfl

namespace Execution

open Cluster

variable [DecidableEq C] [DecidableEq D] (e : Execution n C D)

theorem proceeds (i : Nat) (p : Fin n) :
    (e.state (i + 1)).node p = (e.state i).node p ∨
    ∃ a, e.label i = some a ∧ (e.state i).Proceeds a p ((e.state (i + 1)).node p) := by
  cases e.step_cases i
  case inl h => exact .inl <| h ▸ rfl
  case inr h =>
    have ⟨a, ha, h⟩ := h
    exact .inr ⟨a, ha, next_proceeds h p⟩

theorem incarnation_mono {i j : Nat} (h : i ≤ j) (p : Fin n) :
    ((e.state i).node p).incarnation ≤ ((e.state j).node p).incarnation := by
  induction h
  case refl => exact le_rfl
  case step j _ hi =>
    refine hi.trans ?_
    cases e.proceeds j p
    case inl h => exact h ▸ le_rfl
    case inr h =>
      have ⟨_, _, h⟩ := h
      cases h
      case inl h => exact h.incarnation.ge
      case inr h => have ⟨_, h, _⟩ := h; rw [h]; exact Nat.le_succ _

-- The server at the first moment of one of its incarnations.
theorem booted {i : Nat} {p : Fin n}
    (hf : ∀ j < i, ((e.state j).node p).incarnation ≠ ((e.state i).node p).incarnation) :
    ∃ me persister k, (e.state i).node p = .boot me persister k := by
  cases i
  case zero => exact ⟨p, ⟨none, none⟩, 0, by rw [e.start]; rfl⟩
  case succ i =>
    have hi := hf i (Nat.lt_succ_self i)
    cases e.proceeds i p
    case inl h => exact absurd (h ▸ rfl) hi
    case inr h =>
      have ⟨_, _, h⟩ := h
      cases h
      case inl h => exact absurd h.incarnation.symm hi
      case inr h => have ⟨_, h, _⟩ := h; exact ⟨_, _, _, h⟩

-- A call on `p` between the moments `i` and `j` stored the given snapshot.
def Stored (i j : Nat) (p : Fin n) (data : Option D) (term index : Nat) : Prop :=
  ∃ k a, i ≤ k ∧ k < j ∧ e.label k = some a ∧ (e.state k).Stores p data term index a

variable {e} in
theorem Stored.succ {i j : Nat} {p : Fin n} {data : Option D} {term index : Nat}
    (h : Stored e i j p data term index) : Stored e i (j + 1) p data term index :=
  have ⟨k, a, h₁, h₂, h₃, h₄⟩ := h
  ⟨k, a, h₁, h₂.trans (Nat.lt_succ_self j), h₃, h₄⟩

-- What is known at moment `j` about the snapshots of an incarnation that started at moment `i`.
structure Traced (i j : Nat) (p : Fin n) (nd : Node n C D) : Prop where
  pending : nd.rf.isSnapshotApplied = false →
    Stored e i j p nd.rf.snapshot nd.rf.snapshotLastTerm nd.rf.snapshotLastIndex
  offered : ∀ data term index, nd.applier = .offering (.snapshot data term index) →
    Stored e i j p data term index
  sent    : ∀ data term index, .snapshot data term index ∈ nd.applyCh →
    Stored e i j p data term index

variable {e}

namespace Traced

theorem boot {i : Nat} {p me : Fin n} {persister : Persister n C D} {k : Nat} :
    Traced e i i p (.boot me persister k) := by
  cases persister with | mk raftstate _ =>
    cases raftstate <;> exact { pending := nofun, offered := nofun, sent := nofun }

theorem succ {i j : Nat} {p : Fin n} {nd : Node n C D} (h : Traced e i j p nd) :
    Traced e i (j + 1) p nd where
  pending hs        := (h.pending hs).succ
  offered _ _ _ ho  := (h.offered _ _ _ ho).succ
  sent _ _ _ hm     := (h.sent _ _ _ hm).succ

theorem continues {i j : Nat} {p : Fin n} {a : Event n C D} {nd : Node n C D}
    (h : Traced e i j p ((e.state j).node p)) (hij : i ≤ j) (ha : e.label j = some a)
    (hc : (e.state j).Continues a p nd) : Traced e i (j + 1) p nd := by
  have h := h.succ
  cases hc
  case same _ hs hx hy =>
    refine { pending := fun hp => ?_, offered := hx ▸ h.offered, sent := hy ▸ h.sent }
    rw [hs.snapshot, hs.snapshotLastTerm, hs.snapshotLastIndex]
    exact h.pending (hs.isSnapshotApplied ▸ hp)
  case stores rf _ hs _ =>
    exact { h with pending _ := ⟨j, a, hij, Nat.lt_succ_self j, ha, hs⟩ }
  case receives msg ho =>
    refine { h with offered := nofun, sent data term index hm := ?_ }
    cases List.mem_append.mp hm
    case inl hm => exact h.sent _ _ _ hm
    case inr hm => exact h.offered _ _ _ <| (List.mem_singleton.mp hm) ▸ ho
  case ticks rf applier ho ht =>
    cases ht
    case snapshot hs =>
      have ⟨hg, hs⟩ := Raft.settle_pending hs
      rw [hg]
      refine { h with pending _ := h.pending hs, offered data term index hm := ?_ }
      cases hm
      exact h.pending hs
    case command hs _ _ _ =>
      refine { h with pending hc := ?_, offered := nofun }
      cases hs.symm.trans hc
    case sleep =>
      refine { h with pending hc := ?_, offered := nofun }
      have ⟨hg, hs⟩ := Raft.settle_pending hc
      rw [hg]
      exact h.pending hs

end Traced

-- The stream of messages of one incarnation, from its first moment `i` up to any moment `j`.
theorem apply_stream (e : Execution n C D) {i j : Nat} {p : Fin n} (hij : i ≤ j)
    (hk : ((e.state j).node p).incarnation = ((e.state i).node p).incarnation)
    (hf : ∀ k < i, ((e.state k).node p).incarnation ≠ ((e.state i).node p).incarnation) :
    GapFree ((e.state i).node p).persister.snapshotLastIndex ((e.state j).node p).applyCh ∧
    ∀ data term index, .snapshot data term index ∈ ((e.state j).node p).applyCh →
      Stored e i j p data term index := by
  suffices h : ((e.state j).node p).Streams ((e.state i).node p).persister.snapshotLastIndex ∧
      Traced e i j p ((e.state j).node p) from ⟨h.left.gapFree, h.right.sent⟩
  induction hij
  case refl =>
    have ⟨_, _, _, hb⟩ := booted e hf
    rw [hb]
    exact ⟨Node.boot_snapshotLastIndex ▸ .boot, .boot⟩
  case step j hij hi =>
    have hm₁ := e.incarnation_mono hij p
    have hm₂ := e.incarnation_mono (Nat.le_succ j) p
    have ⟨hs, ht⟩ := hi (by omega)
    cases e.proceeds j p
    case inl h => rw [h]; exact ⟨hs, ht.succ⟩
    case inr h =>
      have ⟨a, ha, h⟩ := h
      cases h
      case inl h => exact ⟨h.streams hs, ht.continues hij ha h⟩
      case inr h =>
        have ⟨_, h, _⟩ := h
        rw [h] at hk
        simp only [Node.boot] at hk
        omega

-- Runs of three servers

section

variable {n : Nat}

def vote (p q : Fin n) (term lastLogIndex lastLogTerm : Nat) : Call n Nat Unit :=
  ⟨p, q, 0, .requestVote ⟨term, p, lastLogIndex, lastLogTerm⟩⟩

def append (p q : Fin n) (term leaderCommit prevLogIndex prevLogTerm : Nat)
    (entries : List (Nat × Nat)) : Call n Nat Unit :=
  ⟨p, q, 0, .appendEntries ⟨term, p, leaderCommit, prevLogIndex, prevLogTerm,
    entries.map fun (term, command) => ⟨term, some command⟩⟩⟩

def install (p q : Fin n) (term lastIncludedIndex lastIncludedTerm : Nat) : Call n Nat Unit :=
  ⟨p, q, 0, .installSnapshot ⟨term, p, lastIncludedIndex, lastIncludedTerm, some ()⟩⟩

end

def granted (term : Nat) : Reply :=
  .requestVote ⟨term, true⟩

def appended (term : Nat) : Reply :=
  .appendEntries ⟨term, true, 0, 0⟩

-- Server 2 restarts. Server 0 compacts its log before server 2 has got any of it, and brings it up
-- to date by its snapshot and another entry.
def compaction : List (Event 3 Nat Unit) := [
  .restart 2, .startElection 0, .serve (vote 0 1 1 0 0), .returned (vote 0 1 1 0 0) (granted 0),
  .serve (vote 0 2 1 0 0), .start 0 10, .serve (append 0 1 1 0 0 0 [(1, 10)]),
  .returned (append 0 1 1 0 0 0 [(1, 10)]) (appended 1), .applyTicker 0, .receive 0, .snapshot 0 (),
  .heartbeat 0, .serve (install 0 2 1 1 1), .returned (install 0 2 1 1 1) (.installSnapshot ⟨1⟩),
  .start 0 11, .serve (append 0 2 1 1 1 1 [(1, 11)]),
  .returned (append 0 2 1 1 1 1 [(1, 11)]) (appended 1), .applyTicker 0, .receive 0, .heartbeat 0,
  .serve (append 0 2 1 2 2 1 []), .applyTicker 2, .receive 2, .applyTicker 2, .receive 2]

def compacted : Execution 3 Nat Unit :=
  .ofActions (raft 3 Nat Unit) compaction (by decide +kernel)

theorem apply_stream_compacted :
    ((compacted.state 25).node 2).applyCh = [.snapshot (some ()) 1 1, .command (some 11) 2] ∧
    GapFree ((compacted.state 1).node 2).persister.snapshotLastIndex
      ((compacted.state 25).node 2).applyCh ∧
    Stored compacted 1 25 2 (some ()) 1 1 := by
  have hk : ((compacted.state 25).node 2).incarnation =
      ((compacted.state 1).node 2).incarnation := by
    decide +kernel
  have hf : ∀ k < 1, ((compacted.state k).node 2).incarnation ≠
      ((compacted.state 1).node 2).incarnation := by decide +kernel
  have ha : ((compacted.state 25).node 2).applyCh = [.snapshot (some ()) 1 1,
      .command (some 11) 2] := by
    decide +kernel
  have ⟨hg, hs⟩ := apply_stream compacted (by decide) hk hf
  exact ⟨ha, hg, hs _ _ _ (by rw [ha]; decide)⟩

end Execution
