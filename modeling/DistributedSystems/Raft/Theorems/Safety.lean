import DistributedSystems.Raft.Theorems.Replication

open TermLog

variable {n : Nat} {C D : Type} {w : Logs n C}

namespace Cluster

variable {s s' : Cluster n C D} {p : Fin n}

-- A server is about to install the snapshot of a leader whose term it has not adopted. Unlike
-- `AppendEntries`, `InstallSnapshot` does not make it do so.
def Outdated (s : Cluster n C D) : Event n C D → Prop
  | .serve ⟨_, q, _, .installSnapshot args⟩ =>
    (s.node q).rf.currentTerm < args.term ∧ (s.node q).rf.snapshotLastIndex < args.lastIncludedIndex
  | _ => False

instance (s : Cluster n C D) : DecidablePred s.Outdated
  | .serve ⟨_, _, _, .installSnapshot _⟩ => inferInstanceAs (Decidable (_ ∧ _))
  | .serve ⟨_, _, _, .requestVote _⟩     => .isFalse id
  | .serve ⟨_, _, _, .appendEntries _⟩   => .isFalse id
  | .start ..                            => .isFalse id
  | .startElection _                     => .isFalse id
  | .heartbeat _                         => .isFalse id
  | .snapshot ..                         => .isFalse id
  | .applyTicker _                       => .isFalse id
  | .receive _                           => .isFalse id
  | .returned ..                         => .isFalse id
  | .failed _                            => .isFalse id
  | .restart _                           => .isFalse id

-- The successor is an update of one server that the world answers by moves to `w'`.
def Answers (s : Cluster n C D) (w : Logs n C) (s' : Cluster n C D) : Prop :=
  ∃ p nd msgs w', s' = s.update p nd msgs ∧ s.Answer w p nd msgs w'

namespace Refines

variable (h : s.Refines w)

include h

theorem serve_answers {call : Call n C D} (hm : .request call ∈ s.network)
    (ho : ¬s.Outdated (.serve call)) :
    s.panics (.serve call) = false ∧ s.Answers w (s.serve call) := by
  simp only [panics, Cluster.serve]
  cases hr : call.request
  case requestVote args =>
    obtain ⟨rf, reply, w', hx, a⟩ := h.requestVote hr
    simp only [Raft.serve, hx]
    exact ⟨rfl, _, _, _, w', rfl, a⟩
  case appendEntries args =>
    obtain ⟨rf, reply, w', hx, a⟩ := h.appendEntries hm hr
    simp only [Raft.serve, hx]
    exact ⟨rfl, _, _, _, w', rfl, a⟩
  case installSnapshot args =>
    obtain ⟨c, q, k, _⟩ := call
    cases hr
    obtain ⟨rf, reply, w', hx, a⟩ := h.installSnapshot hm rfl ho
    simp only [Raft.serve, hx]
    exact ⟨rfl, _, _, _, w', rfl, a⟩

theorem returned_answers {call : Call n C D} {reply} (hm : .reply call reply ∈ s.network)
    (hs : s.returned call reply = some s') (he : s'.Elections) :
    s.panics (.returned call reply) = false ∧ s.Answers w s' := by
  simp only [Cluster.returned] at hs
  split at hs
  case isTrue => cases hs
  case isFalse hk =>
    obtain ⟨r, hr, hu⟩ := Option.map_eq_some_iff.mp hs
    simp only [panics, hr, Option.any_some]
    obtain ⟨c, q, k, request⟩ := call
    cases request <;> cases reply
    case requestVote.requestVote args reply =>
      cases hr
      subst hu
      obtain ⟨w', a⟩ := h.sendRequestVote hm (Decidable.not_not.mp hk) he
      exact ⟨rfl, _, _, _, w', rfl, a⟩
    case appendEntries.appendEntries args reply =>
      obtain ⟨rf, w', hx, a⟩ := h.sendEntries hm rfl
      cases (Option.some.inj hr).symm.trans hx
      exact ⟨rfl, _, _, _, w', hu.symm, a⟩
    case installSnapshot.installSnapshot args reply =>
      obtain ⟨rf, w', hx, a⟩ := h.sendInstallSnapshot hm rfl
      cases (Option.some.inj hr).symm.trans hx
      exact ⟨rfl, _, _, _, w', hu.symm, a⟩
    all_goals cases hr

theorem start_answers (command : C) :
    s.panics (.start p command) = false ∧ s.Answers w (s.start p command) := by
  have ⟨rf, sent, r, w', hx, a⟩ := h.start (p := p) command
  simp only [panics, Cluster.start, hx]
  exact ⟨rfl, _, _, _, w', rfl, a⟩

theorem startElection_answers :
    s.panics (.startElection p) = false ∧ s.Answers w (s.startElection p) := by
  have ⟨rf, sent, w', hx, a⟩ := h.startElection (p := p)
  simp only [panics, Cluster.startElection, hx]
  exact ⟨rfl, _, _, _, w', rfl, a⟩

theorem heartbeat_answers (hs : s.heartbeat p = some s') :
    s.panics (.heartbeat p) = false ∧ s.Answers w s' := by
  simp only [Cluster.heartbeat] at hs
  split at hs
  case isTrue => cases hs
  case isFalse hl =>
    obtain ⟨sent, hx, a⟩ := h.heartbeat (Decidable.not_not.mp hl)
    simp only [hx, Option.some.injEq] at hs
    simp only [panics, hx]
    exact ⟨Bool.and_false _, _, _, _, w, hs.symm, a⟩

theorem snapshot_answers {data : D} (hs : s.snapshot p data = some s') :
    s.panics (.snapshot p data) = false ∧ s.Answers w s' := by
  have ⟨i, hi, hs⟩ := Option.map_eq_some_iff.mp hs
  have ⟨rf, hx, a⟩ := h.snapshot hi data
  simp only [hx] at hs
  simp only [panics, hi, hx, Option.any_some]
  exact ⟨rfl, _, _, _, w, hs.symm, a⟩

theorem applyTicker_answers (hs : s.applyTicker p = some s') :
    s.panics (.applyTicker p) = false ∧ s.Answers w s' := by
  have ⟨r, hr, hs⟩ := Option.map_eq_some_iff.mp hs
  have ⟨rf, applier, hx, a⟩ := h.applyTicker hr
  subst hx
  simp only [panics, hr, Option.any_some]
  exact ⟨rfl, _, _, _, w, hs.symm, a⟩

theorem receive_answers (hs : s.receive p = some s') : s.Answers w s' := by
  simp only [Cluster.receive] at hs
  split at hs <;> cases hs
  case _ msg ha => exact ⟨_, _, _, w, rfl, h.receive ha⟩

theorem failed_answers {call : Call n C D} (hs : s.failed call = some s') : s.Answers w s' := by
  simp only [Cluster.failed] at hs
  split at hs
  case isTrue => cases hs
  case isFalse =>
    split at hs <;> cases hs
    case _ =>
      exact ⟨call.caller, _, _, w, update_self.symm,
        .stay (h.node _) le_rfl (.inl le_rfl) fun _ h => h⟩
    case _ => exact ⟨_, _, _, w, rfl, h.persist⟩

variable [DecidableEq C] [DecidableEq D]

theorem next_answers {a : Event n C D} (hs : s.next a = some s') (he : s'.Elections)
    (ho : ¬s.Outdated a) : s.panics a = false ∧ s.Answers w s' := by
  cases a <;> simp only [next] at hs
  case start              => cases hs; exact h.start_answers _
  case startElection      => cases hs; exact h.startElection_answers
  case heartbeat          => exact h.heartbeat_answers hs
  case snapshot           => exact h.snapshot_answers hs
  case applyTicker        => exact h.applyTicker_answers hs
  case receive            => exact ⟨rfl, h.receive_answers hs⟩
  case restart            => cases hs; exact ⟨rfl, _, _, _, w, rfl, h.restart⟩
  all_goals split at hs
  case serve.isTrue hm    => cases hs; exact h.serve_answers hm ho
  case returned.isTrue hm => exact h.returned_answers hm hs he
  case failed.isTrue      => exact ⟨rfl, h.failed_answers hs⟩
  all_goals cases hs

theorem next_streams {a : Event n C D} (hs : s.next a = some s') :
    ∀ q, ∃ i, (s'.node q).Streams i := by
  intro q
  have ⟨i, hi⟩ := h.streams q
  cases next_proceeds hs q
  case inl hp => exact ⟨i, hp.streams hi⟩
  case inr hp => have ⟨_, hp, _⟩ := hp; rw [hp]; exact ⟨_, .boot⟩

theorem next_refines {a : Event n C D} (hs : s.next a = some s') (ho : ¬s.Outdated a) :
    ∃ w', World.Moves w w' ∧ s'.Refines w' := by
  have he := next_elections h.elections hs
  have ⟨_, _, _, _, w', hu, a⟩ := h.next_answers hs he ho
  have hstr := h.next_streams hs
  subst hu
  exact ⟨w', a.moves, a.refines h he hstr⟩

end Refines

theorem init_node_refines (p : Fin n) :
    ((init n C D).node p).Refines (World.genesis (Fin n) ⟨0, none⟩) p where
  term          := rfl
  log           := { head := rfl, log := rfl }
  base          := le_rfl
  commit        := Nat.zero_lt_one
  decided       := have : Nonempty (Fin n) := ⟨p⟩; World.genesis_decided rfl
  applied       := le_rfl
  commands _ _  := nofun
  leader        := nofun

theorem init_refines (hn : Odd n) : (init n C D).Refines (World.genesis (Fin n) ⟨0, none⟩) where
  odd               := hn
  valid             := World.genesis_valid rfl
  elections         := init_elections
  streams _         := ⟨_, .boot⟩
  node              := init_node_refines
  elected _ _ h ht  := by simp [World.genesis, ht] at h
  running _ h       := nomatch h
  candidate         := nofun
  leads             := nofun
  sound             := nofun

end Cluster

namespace Execution

open Cluster

variable [DecidableEq C] [DecidableEq D] (e : Execution n C D)

-- No server ever installs the snapshot of a leader whose term it has not adopted.
def Guarded : Prop :=
  ∀ i a, e.label i = some a → ¬(e.state i).Outdated a

-- The worlds that go along with the states of a run.
structure Shadowed (w : Nat → Logs n C) : Prop where
  refines : ∀ i, (e.state i).Refines (w i)
  moves   : ∀ i, World.Moves (w i) (w (i + 1))

variable {e}

theorem Guarded.shadowed (hg : e.Guarded) (hn : Odd n) : ∃ w, e.Shadowed w := by
  have ⟨w, h⟩ : ∃ w : Nat → Logs n C, ∀ i, (e.state i).Refines (w i) ∧
      World.Moves (w i) (w (i + 1)) :=
    e.simulate (fun _ => .refl) (init_refines hn) fun i a _ _ ha hs h =>
      h.next_refines hs (hg i a ha)
  exact ⟨w, fun i => (h i).left, fun i => (h i).right⟩

namespace Shadowed

variable {w : Nat → Logs n C} (h : e.Shadowed w) {i j k : Nat} {p q : Fin n}

include h

theorem grows (hij : i ≤ j) : (w i).Grows (w j) := by
  induction hij
  case refl       => exact .refl _
  case step hi    => exact hi.trans (h.moves _).grows

-- What any two servers have committed at any two moments agrees.
theorem committed_eq (hp : k ≤ ((e.state i).node p).rf.commitIndex)
    (hq : k ≤ ((e.state j).node q).rf.commitIndex) : ((w i).log p)[k]? = ((w j).log q)[k]? := by
  have N₁ := (h.refines i).node p
  have N₂ := (h.refines j).node q
  have h₁ := (h.grows (Nat.le_max_left i j)).decided N₁.decided le_rfl
  have h₂ := (h.grows (Nat.le_max_right i j)).decided N₂.decided le_rfl
  have hx := (h.refines (max i j)).valid.decided_getElem? h₁ h₂ (i := k)
    (by have := N₁.commit; rw [List.length_take]; omega)
    (by have := N₂.commit; rw [List.length_take]; omega)
  rwa [List.getElem?_take_of_lt (Nat.lt_succ_of_le hp),
    List.getElem?_take_of_lt (Nat.lt_succ_of_le hq)] at hx

end Shadowed

theorem Guarded.ofActions {as : List (Event n C D)}
    {h : ((raft n C D).exec (raft n C D).init as).isSome}
    (hg : ∀ i : Fin as.length, ¬((System.Behavior.ofActions _ as h).state i).Outdated (as.get i)) :
    Guarded (.ofActions (raft n C D) as h) :=
  System.Behavior.avoids_ofActions hg

-- No two servers ever apply different commands at the same index.
theorem state_machine_safety (hn : Odd n) (e : Execution n C D) (hg : e.Guarded) {i j k : Nat}
    {p q : Fin n} {c d : Option C} (hp : .command c k ∈ ((e.state i).node p).applyCh)
    (hq : .command d k ∈ ((e.state j).node q).applyCh) : c = d := by
  have ⟨w, h⟩ := hg.shadowed hn
  have ⟨hi, hc⟩ := ((h.refines i).node p).commands c k (.inl hp)
  have ⟨hj, hd⟩ := ((h.refines j).node q).commands d k (.inl hq)
  rw [h.committed_eq hi hj, hd] at hc
  exact (Option.some.inj hc).symm

theorem compacted_guarded : compacted.Guarded :=
  .ofActions (by decide +kernel)

theorem state_machine_safety_compacted :
    .command (some 11) 2 ∈ ((compacted.state 25).node 0).applyCh ∧
    .command (some 11) 2 ∈ ((compacted.state 25).node 2).applyCh ∧
    ∀ c, .command c 2 ∈ ((compacted.state 25).node 2).applyCh → some 11 = c := by
  have h₀ : .command (some 11) 2 ∈ ((compacted.state 25).node 0).applyCh := by decide +kernel
  have h₂ : .command (some 11) 2 ∈ ((compacted.state 25).node 2).applyCh := by decide +kernel
  exact ⟨h₀, h₂, fun c hc => state_machine_safety (by decide) compacted compacted_guarded h₀ hc⟩

def refused (term failedTerm failedFirstIndex : Nat) : Reply :=
  .appendEntries ⟨term, false, failedTerm, failedFirstIndex⟩

-- Server 0, the leader of term 3, installs a snapshot of server 2, the leader of term 4, and still
-- takes itself for a leader. An old reply then makes it commit an entry that nobody else has.
def usurpation : List (Event 3 Nat Unit) := [
  .startElection 0, .serve (vote 0 1 1 0 0), .returned (vote 0 1 1 0 0) (granted 0),
  .start 0 10, .start 0 11, .start 0 12,
  .startElection 2, .startElection 2, .serve (vote 2 1 2 0 0),
  .returned (vote 2 1 2 0 0) (granted 1), .start 2 20,
  .serve (vote 2 0 2 0 0), .startElection 0, .serve (vote 0 1 3 3 1),
  .returned (vote 0 1 3 3 1) (granted 2),
  .heartbeat 0, .serve (append 0 1 3 0 3 1 []), .returned (append 0 1 3 0 3 1 []) (refused 3 0 1),
  .serve (append 0 2 3 0 3 1 []), .returned (append 0 2 3 0 3 1 []) (refused 2 2 1),
  .heartbeat 0, .serve (append 0 1 3 0 0 0 [(1, 10), (1, 11), (1, 12)]),
  .startElection 2, .serve (vote 2 1 4 1 2), .returned (vote 2 1 4 1 2) (granted 3),
  .start 2 21, .serve (append 2 1 4 0 1 2 [(4, 21)]),
  .returned (append 2 1 4 0 1 2 [(4, 21)]) (refused 4 1 1),
  .heartbeat 2, .serve (append 2 1 4 0 0 0 [(2, 20), (4, 21)]),
  .returned (append 2 1 4 0 0 0 [(2, 20), (4, 21)]) (appended 4),
  .applyTicker 2, .receive 2, .applyTicker 2, .receive 2, .snapshot 2 (),
  .heartbeat 2, .serve (install 2 0 4 2 4),
  .start 0 13, .returned (append 0 1 3 0 0 0 [(1, 10), (1, 11), (1, 12)]) (appended 3),
  .applyTicker 0, .receive 0, .applyTicker 0, .receive 0,
  .start 2 22, .serve (append 2 1 4 2 2 4 [(4, 22)]),
  .returned (append 2 1 4 2 2 4 [(4, 22)]) (appended 4), .applyTicker 2, .receive 2]

def usurped : Execution 3 Nat Unit :=
  .ofActions (raft 3 Nat Unit) usurpation (by decide +kernel)

theorem state_machine_unsafe :
    ∃ (e : Execution 3 Nat Unit) (i : Nat) (p q : Fin 3) (c d : Option Nat),
    .command c 3 ∈ ((e.state i).node p).applyCh ∧ .command d 3 ∈ ((e.state i).node q).applyCh ∧
    c ≠ d :=
  ⟨usurped, 50, 0, 2, some 13, some 22, by decide +kernel⟩

end Execution

-- Indices

-- What keeps the indices of a server within the bounds of its log.
structure Raft.IndexSafe (rf : Raft n C D) : Prop where
  head   : rf.log.head?.map (·.term) = some rf.snapshotLastTerm
  base   : rf.snapshotLastIndex ≤ rf.commitIndex
  commit : rf.commitIndex ≤ rf.logLength - 1
  apply  : rf.lastApplied ≤ rf.commitIndex
  next   : rf.state = .leader → ∀ q, 1 ≤ rf.nextIndex q ∧ rf.nextIndex q ≤ rf.logLength
  median : rf.state = .leader →
    rf.snapshotLastIndex ≤ Raft.median rf.matchIndex ∧ Raft.median rf.matchIndex ≤ rf.logLength - 1

theorem Node.Refines.indexSafe {nd : Node n C D} {p : Fin n} (h : nd.Refines w p) :
    nd.rf.IndexSafe := by
  have hlen := h.log.logLength
  have hn : 0 < n := Nat.zero_lt_of_lt p.isLt
  refine {
    head := by rw [h.log.log]; rfl
    base := h.base, commit := ?_, apply := h.applied
    next hl := hlen ▸ (h.leader hl).nextIndex
    median hl := ⟨h.base.trans (h.leader hl).median, ?_⟩ }
  · exact hlen ▸ Nat.le_sub_one_of_lt h.commit
  · exact hlen ▸ Nat.le_sub_one_of_lt (Raft.median_lt hn (h.leader hl).matchIndex)

theorem Cluster.Refines.next_panics {s : Cluster n C D} [DecidableEq C] [DecidableEq D]
    (h : s.Refines w) {a : Event n C D} (ha : (s.next a).isSome) : s.panics a = false := by
  have ⟨s', hs⟩ := Option.isSome_iff_exists.mp ha
  by_cases ho : s.Outdated a
  case neg => exact (h.next_answers hs (next_elections h.elections hs) ho).left
  case pos =>
    -- `InstallSnapshot` itself never panics.
    match a with
    | .serve ⟨c, q, k, .installSnapshot args⟩ =>
      have ⟨rf, hx, _⟩ := (s.node q).rf.installSnapshot_ok args
      simp only [panics, Raft.serve, hx]
      rfl

theorem Execution.Guarded.indexSafe [DecidableEq C] [DecidableEq D] {e : Execution n C D}
    (hg : e.Guarded) (hn : Odd n) (i : Nat) :
    (∀ p, ((e.state i).node p).rf.IndexSafe) ∧
    ∀ a, ((e.state i).next a).isSome → (e.state i).panics a = false := by
  have ⟨w, h⟩ := hg.shadowed hn
  exact ⟨fun p => ((h.refines i).node p).indexSafe, fun _ => (h.refines i).next_panics⟩

namespace Execution

-- Server 0 is elected with a log of three entries and then loses two of them to a snapshot from a
-- later term. It still leads, with next indices that lie behind its log.
def truncation : List (Event 3 Nat Unit) := [
  .startElection 0, .serve (vote 0 1 1 0 0), .returned (vote 0 1 1 0 0) (granted 0),
  .start 0 10, .start 0 11,
  .startElection 2, .startElection 2, .serve (vote 2 0 2 0 0), .startElection 0,
  .serve (vote 0 1 3 2 1), .returned (vote 0 1 3 2 1) (granted 1),
  .startElection 2, .startElection 2, .serve (vote 2 1 4 0 0),
  .returned (vote 2 1 4 0 0) (granted 3), .start 2 20, .serve (append 2 1 4 0 0 0 [(4, 20)]),
  .returned (append 2 1 4 0 0 0 [(4, 20)]) (appended 4), .applyTicker 2, .receive 2, .snapshot 2 (),
  .heartbeat 2, .serve (install 2 0 4 1 4)]

def truncated : Execution 3 Nat Unit :=
  .ofActions (raft 3 Nat Unit) truncation (by decide +kernel)

end Execution
