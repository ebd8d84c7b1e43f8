import DistributedSystems.Raft.Theorems.Bookkeeping
import DistributedSystems.Raft.Theorems.Memory

-- The results about the cluster, with the entries of a request read from the array of its sender.
-- They hold as long as no goroutine encodes an entry that has been overwritten.

variable {n : Nat} {C D : Type} {growth : Nat → Nat → Nat}

theorem Cluster.panics_congr {s t : Cluster n C D} (h : s.node = t.node) (a : Event n C D) :
    s.panics a = t.panics a := by
  cases a <;> simp only [panics, h]

def LiveEvent.isSnapshot : LiveEvent n C D → Bool
  | .act (.snapshot ..) => true
  | _                   => false

namespace LiveCluster

def Outdated (s : LiveCluster n C D) : LiveEvent n C D → Prop
  | .act event => s.toCluster.Outdated event
  | .encode .. => False

instance (s : LiveCluster n C D) : DecidablePred s.Outdated
  | .act event => inferInstanceAs (Decidable (s.toCluster.Outdated event))
  | .encode .. => .isFalse id

theorem Copies.outdated_iff {s : LiveCluster n C D} {a : Cluster n C D} (h : s.Copies a)
    (event : Event n C D) : s.Outdated (.act event) ↔ a.Outdated event := by
  simp only [Outdated, Cluster.Outdated, h.node]

variable [DecidableEq C] [DecidableEq D]

instance (s : LiveCluster n C D) : DecidablePred s.Overwritten
  | .act _      => .isFalse id
  | .encode p k =>
    match h : (s.process p).senders[k]? with
    | none   => .isFalse (by simp [Overwritten, h])
    | some g => decidable_of_iff ((s.process p).log.read g.entries g.encoded.length ≠
        g.args.entries[g.encoded.length]?) (by simp [Overwritten, h])

instance (s : LiveCluster n C D) : DecidablePred s.Truncates
  | .encode .. => .isFalse id
  | .act event =>
    match h : s.toCluster.next event with
    | none   => .isFalse (by simp [Truncates, h])
    | some t => decidable_of_iff
      ((t.node event.actor).incarnation = (s.node event.actor).incarnation ∧
        (t.node event.actor).rf.snapshotLastIndex = (s.node event.actor).rf.snapshotLastIndex ∧
        ¬(s.node event.actor).rf.log <+: (t.node event.actor).rf.log) (by simp [Truncates, h])

end LiveCluster

namespace LiveExecution

variable [DecidableEq C] [DecidableEq D] {e : LiveExecution growth n C D}

abbrev history (e : LiveExecution growth n C D) : History n C D :=
  fun i => (e.state i).node

def NoSnapshots (e : LiveExecution growth n C D) : Prop :=
  ∀ i p data, e.label i ≠ some (.act (.snapshot p data))

theorem NoSnapshots.ofActions {as : List (LiveEvent n C D)}
    {h : ((liveRaft growth n C D).exec (liveRaft growth n C D).init as).isSome}
    (hs : ∀ a ∈ as, a.isSnapshot = false) : NoSnapshots (.ofActions (liveRaft growth n C D) as h) :=
  fun _ _ _ hc => Bool.false_ne_true (hs _ (List.mem_of_getElem? hc)).symm

theorem NoSnapshots.exists_history (hs : e.NoSnapshots) (ho : e.Avoids LiveCluster.Overwritten) :
    ∃ b : Execution n C D, b.history = e.history ∧ b.NoSnapshots := by
  obtain ⟨b, hb, hl⟩ := e.exists_copy ho
  exact ⟨b, funext fun i => (hb i).node.symm, fun i p data h => hs i p data (hl i _ h)⟩

-- Runs of small clusters

-- The rule of `append` for arrays of less than 256 elements.
def doubling (capacity needed : Nat) : Nat :=
  if 2 * capacity < needed then needed else 2 * capacity

section

variable {n : Nat}

-- Goroutine `k` of server `p` encodes its `m` entries and sends them.
def marshal (p : Fin n) (k m : Nat) : List (LiveEvent n Nat Unit) :=
  .replicate (m + 1) (.encode p k)

def acts : List (Event n Nat Unit) → List (LiveEvent n Nat Unit) :=
  List.map .act

-- Server `p` gets the votes of `voters`, which are given with their terms.
def election (p : Fin n) (term lastLogIndex lastLogTerm : Nat) (voters : List (Fin n × Nat)) :
    List (LiveEvent n Nat Unit) :=
  voters.flatMap fun (q, t) =>
    let call := Execution.vote p q term lastLogIndex lastLogTerm
    acts [.serve call, .returned call (Execution.granted t)]

end

open Execution

theorem log_matching (hn : Odd n) (e : LiveExecution growth n C D) (hs : e.NoSnapshots)
    (ho : e.Avoids LiveCluster.Overwritten) (i : Nat) : LogMatching (e.history i) := by
  obtain ⟨b, hb, hs⟩ := hs.exists_history ho
  exact hb ▸ hs.logMatching hn i

-- Server 1 takes over from server 0 with the entry that server 0 has committed.
def succession : List (LiveEvent 3 Nat Unit) :=
  acts [.startElection 0] ++ election 0 1 0 0 [(1, 0)] ++
  acts [.start 0 10] ++ marshal 0 0 1 ++
  acts [.serve (append 0 1 1 0 0 0 [(1, 10)]),
    .returned (append 0 1 1 0 0 0 [(1, 10)]) (appended 1), .startElection 1] ++
  election 1 2 1 1 [(2, 0)]

def succeeded : LiveExecution doubling 3 Nat Unit :=
  .ofActions (liveRaft doubling 3 Nat Unit) succession (by decide +kernel)

theorem succeeded_noSnapshots : succeeded.NoSnapshots :=
  .ofActions (by decide +kernel)

theorem succeeded_intact : succeeded.Avoids LiveCluster.Overwritten :=
  not_overwritten <| System.Behavior.avoids_ofActions (by decide +kernel)

theorem log_matching_succeeded : ((succeeded.state 8).node 0).rf.log[1]? = some ⟨1, some 10⟩ ∧
    ((succeeded.state 8).node 0).rf.log[0]? = ((succeeded.state 8).node 1).rf.log[0]? ∧
    ((succeeded.state 8).node 1).rf.log.Pairwise (·.term ≤ ·.term) := by
  have h₀ : ((succeeded.state 8).node 0).rf.log[1]? = some ⟨1, some 10⟩ := by decide +kernel
  have h₁ : ((succeeded.state 8).node 1).rf.log[1]? = some ⟨1, some 10⟩ := by decide +kernel
  have h := log_matching (by decide) succeeded succeeded_noSnapshots succeeded_intact 8
  exact ⟨h₀, h.matching 0 1 1 _ _ h₀ h₁ rfl 0 (Nat.zero_le 1), h.sorted 1⟩

theorem leader_completeness (hn : Odd n) (e : LiveExecution growth n C D) (hs : e.NoSnapshots)
    (ho : e.Avoids LiveCluster.Overwritten) : e.history.LeaderComplete := by
  obtain ⟨b, hb, hs⟩ := hs.exists_history ho
  exact hb ▸ hs.leaderComplete hn

theorem leader_completeness_succeeded :
    1 ≤ ((succeeded.state 8).node 0).rf.commitIndex ∧
    ((succeeded.state 11).node 1).rf.currentTerm = 2 ∧
    ((succeeded.state 11).node 1).rf.log[1]? = some ⟨1, some 10⟩ := by
  have hc : 1 ≤ ((succeeded.state 8).node 0).rf.commitIndex := by decide +kernel
  have he : ((succeeded.state 8).node 0).rf.log[1]? = some ⟨1, some 10⟩ := by decide +kernel
  have h := leader_completeness (by decide) succeeded succeeded_noSnapshots succeeded_intact
  exact ⟨hc, by decide +kernel, h.kept 8 0 1 _ hc he 8 0 (by decide +kernel) hc 11 1
    (by decide +kernel) (by decide +kernel) 11 le_rfl rfl⟩

theorem bookkeeping (hn : Odd n) (e : LiveExecution growth n C D) (hs : e.NoSnapshots)
    (ho : e.Avoids LiveCluster.Overwritten) : e.history.Bookkeeping := by
  obtain ⟨b, hb, hs⟩ := hs.exists_history ho
  exact hb ▸ hs.bookkeeping_history hn

-- Server 0 is elected a second time and has to find out how much of its log server 2 has. Server 2
-- refuses two requests. The second refusal arrives after a success, and the next index falls back.
def relapse : List (LiveEvent 3 Nat Unit) :=
  acts [.startElection 0] ++ election 0 1 0 0 [(1, 0)] ++
  acts [.start 0 10, .startElection 2, .startElection 2, .serve (vote 2 0 2 0 0),
    .startElection 0] ++ election 0 3 1 1 [(1, 1)] ++
  acts [.heartbeat 0, .heartbeat 0] ++ marshal 0 3 0 ++ marshal 0 5 0 ++
  acts [.serve (append 0 2 3 0 1 1 []), .serve (append 0 2 3 0 1 1 []),
    .returned (append 0 2 3 0 1 1 []) (refused 2 0 1), .heartbeat 0] ++ marshal 0 7 1 ++
  acts [.serve (append 0 2 3 0 0 0 [(1, 10)]),
    .returned (append 0 2 3 0 0 0 [(1, 10)]) (appended 3),
    .returned (append 0 2 3 0 1 1 []) (refused 3 0 1)]

def relapsed : LiveExecution doubling 3 Nat Unit :=
  .ofActions (liveRaft doubling 3 Nat Unit) relapse (by decide +kernel)

theorem relapsed_noSnapshots : relapsed.NoSnapshots :=
  .ofActions (by decide +kernel)

theorem relapsed_intact : relapsed.Avoids LiveCluster.Overwritten :=
  not_overwritten <| System.Behavior.avoids_ofActions (by decide +kernel)

theorem bookkeeping_relapsed :
    ((relapsed.state 22).node 0).rf.nextIndex 2 = 2 ∧
    ((relapsed.state 23).node 0).rf.nextIndex 2 = 1 ∧
    ((relapsed.state 23).node 0).rf.matchIndex 2 = 1 ∧
    ∃ k ≤ 23, ((relapsed.state k).node 2).rf.currentTerm = 3 ∧
      ((relapsed.state k).node 2).rf.log[1]? = some ⟨1, some 10⟩ := by
  have h := bookkeeping (by decide) relapsed relapsed_noSnapshots relapsed_intact
  have hmatch : (relapsed.history 23 0).rf.matchIndex 2 = 1 := by decide +kernel
  have hterm : (relapsed.history 23 0).rf.currentTerm = 3 := by decide +kernel
  have hlog : (relapsed.history 23 0).rf.log[1]? = some ⟨1, some 10⟩ := by decide +kernel
  have hzero : ∀ i : Fin 24, (relapsed.history i 0).rf.commitIndex = 0 := by decide +kernel
  obtain ⟨i, hi, _, _, hx⟩ := h.held 0 23 (by decide +kernel)
  have hcommit := hzero ⟨i + 1, Nat.succ_lt_succ hi⟩
  obtain ⟨_, k, hk, ht, heq⟩ := hx 2 (by rw [hcommit, hmatch]; decide)
  exact ⟨by decide +kernel, by decide +kernel, hmatch, k, hk, ht.trans hterm,
    (heq 1 hmatch.ge).trans hlog⟩

theorem index_safety (hn : Odd n) (e : LiveExecution growth n C D)
    (hg : e.Avoids LiveCluster.Outdated) (ho : e.Avoids LiveCluster.Overwritten) (i : Nat) :
    (∀ p, ((e.state i).node p).rf.IndexSafe) ∧
    ∀ a, ((e.state i).next growth (.act a)).isSome → (e.state i).toCluster.panics a = false := by
  obtain ⟨b, hb, hl⟩ := e.exists_copy ho
  have hg' : b.Guarded := fun j a ha h => hg j _ (hl j a ha) (((hb j).outdated_iff a).mpr h)
  obtain ⟨hindex, hpanics⟩ := hg'.indexSafe hn i
  refine ⟨fun p => (hb i).node ▸ hindex p, fun a ha => ?_⟩
  obtain ⟨s', hs⟩ := Option.isSome_iff_exists.mp ha
  obtain ⟨t, ht, _⟩ := (hb i).act hs
  rw [Cluster.panics_congr (hb i).node]
  exact hpanics a (ht ▸ rfl)

-- The run of `Execution.compaction`.
def compaction : List (LiveEvent 3 Nat Unit) :=
  acts [.startElection 0] ++ election 0 1 0 0 [(1, 0)] ++
  acts [.serve (vote 0 2 1 0 0), .start 0 10] ++ marshal 0 0 1 ++
  acts [.serve (append 0 1 1 0 0 0 [(1, 10)]),
    .returned (append 0 1 1 0 0 0 [(1, 10)]) (appended 1), .applyTicker 0, .receive 0,
    .snapshot 0 (), .heartbeat 0, .serve (install 0 2 1 1 1),
    .returned (install 0 2 1 1 1) (.installSnapshot ⟨1⟩), .start 0 11] ++ marshal 0 4 1 ++
  acts [.serve (append 0 2 1 1 1 1 [(1, 11)])]

def compacted : LiveExecution doubling 3 Nat Unit :=
  .ofActions (liveRaft doubling 3 Nat Unit) compaction (by decide +kernel)

theorem index_safety_compacted :
    ((compacted.state 14).node 2).rf.snapshotLastIndex = 1 ∧
    ((compacted.state 14).node 2).rf.IndexSafe ∧
    (compacted.state 14).toCluster.panics (.heartbeat 0) = false := by
  have h := index_safety (by decide) compacted
    (System.Behavior.avoids_ofActions (by decide +kernel))
    (not_overwritten <| System.Behavior.avoids_ofActions (by decide +kernel)) 14
  exact ⟨by decide +kernel, h.left 2, h.right (.heartbeat 0) (by decide +kernel)⟩

-- The run of `Execution.truncation`.
def truncation : List (LiveEvent 3 Nat Unit) :=
  acts [.startElection 0] ++ election 0 1 0 0 [(1, 0)] ++
  acts [.start 0 10, .start 0 11, .startElection 2, .startElection 2, .serve (vote 2 0 2 0 0),
    .startElection 0] ++ election 0 3 2 1 [(1, 1)] ++
  acts [.startElection 2, .startElection 2] ++ election 2 4 0 0 [(1, 3)] ++
  acts [.start 2 20] ++ marshal 2 1 1 ++
  acts [.serve (append 2 1 4 0 0 0 [(4, 20)]),
    .returned (append 2 1 4 0 0 0 [(4, 20)]) (appended 4), .applyTicker 2, .receive 2,
    .snapshot 2 (), .heartbeat 2, .serve (install 2 0 4 1 4)]

def truncated : LiveExecution doubling 3 Nat Unit :=
  .ofActions (liveRaft doubling 3 Nat Unit) truncation (by decide +kernel)

theorem index_unsafe : ∃ (e : LiveExecution doubling 3 Nat Unit) (i : Nat) (p q : Fin 3),
    e.Avoids LiveCluster.Overwritten ∧
    ((e.state i).node p).rf.state = .leader ∧
    ((e.state i).node p).rf.logLength < ((e.state i).node p).rf.nextIndex q ∧
    ((e.state i).next doubling (.act (.heartbeat p))).isSome ∧
    (e.state i).toCluster.panics (.heartbeat p) = true := by
  refine ⟨truncated, 25, 0, 1, System.Behavior.avoids_ofActions ?_, ?_⟩
  all_goals decide +kernel

-- A request of server 0 waits to be marshalled while server 2 replaces the log of server 0 in
-- place. Server 1 then gets a mixture of the two logs, and takes its own log for that of server 3.
def corruption : List (LiveEvent 5 Nat Unit) :=
  acts [.startElection 0] ++ election 0 1 0 0 [(3, 0), (4, 0)] ++
  acts [.start 0 10, .start 0 11] ++ marshal 0 6 2 ++
  acts [.serve (append 0 3 1 0 0 0 [(1, 10), (1, 11)]), .startElection 2, .startElection 2] ++
  election 2 2 0 0 [(1, 0), (4, 1)] ++
  acts [.start 2 20, .startElection 0, .startElection 0] ++ election 0 3 2 1 [(1, 2), (4, 2)] ++
  acts [.heartbeat 0] ++ marshal 0 8 0 ++
  acts [.serve (append 0 1 3 0 2 1 []), .returned (append 0 1 3 0 2 1 []) (refused 3 0 1),
    -- The goroutine that is started here marshals its request only after the next leader is done.
    .heartbeat 0,
    .startElection 2, .startElection 2] ++ election 2 4 1 2 [(0, 3), (4, 3)] ++
  acts [.heartbeat 2] ++ marshal 2 4 0 ++
  acts [.serve (append 2 0 4 0 1 2 []), .returned (append 2 0 4 0 1 2 []) (refused 4 1 1),
    .heartbeat 2] ++ marshal 2 8 1 ++
  acts [.serve (append 2 0 4 0 0 0 [(2, 20)])] ++ marshal 0 12 2 ++
  acts [.serve (append 0 1 3 0 0 0 [(2, 20), (1, 11)]),
    .startElection 3, .startElection 3, .startElection 3, .startElection 3] ++
  election 3 5 2 1 [(1, 3), (4, 4)] ++ acts [.heartbeat 3] ++ marshal 3 1 0 ++
  acts [.serve (append 3 1 5 0 2 1 []), .returned (append 3 1 5 0 2 1 []) (appended 5),
    .start 3 12] ++ marshal 3 5 1 ++
  acts [.serve (append 3 1 5 0 2 1 [(5, 12)]),
    .returned (append 3 1 5 0 2 1 [(5, 12)]) (appended 5)] ++ marshal 3 3 0 ++
  acts [.serve (append 3 4 5 0 2 1 []), .returned (append 3 4 5 0 2 1 []) (refused 5 0 1),
    .heartbeat 3] ++ marshal 3 11 3 ++
  acts [.serve (append 3 4 5 0 0 0 [(1, 10), (1, 11), (5, 12)]),
    .returned (append 3 4 5 0 0 0 [(1, 10), (1, 11), (5, 12)]) (appended 5),
    .startElection 1] ++ election 1 6 3 5 [(0, 4), (2, 4)]

def corrupted : LiveExecution doubling 5 Nat Unit :=
  .ofActions (liveRaft doubling 5 Nat Unit) corruption (by decide +kernel)

theorem corrupted_noSnapshots : corrupted.NoSnapshots :=
  .ofActions (by decide +kernel)

-- Servers 1 and 3 have the same entry at index 2, but not at index 1.
theorem log_mismatch : ∃ (e : LiveExecution doubling 5 Nat Unit) (i : Nat) (p q : Fin 5),
    e.NoSnapshots ∧ (e.history i p).rf.log[2]? = some ⟨1, some 11⟩ ∧
    (e.history i q).rf.log[2]? = some ⟨1, some 11⟩ ∧
    (e.history i p).rf.log[1]? ≠ (e.history i q).rf.log[1]? ∧
    ¬(e.history i p).rf.log.Pairwise (·.term ≤ ·.term) := by
  refine ⟨corrupted, 47, 1, 3, corrupted_noSnapshots, ?_⟩
  decide +kernel

-- Server 3 has index 2 of server 1 on record, which has never had its first entry.
theorem unsound_books : ∃ (e : LiveExecution doubling 5 Nat Unit) (j : Nat) (p q : Fin 5),
    e.NoSnapshots ∧ (e.history j p).rf.state = .leader ∧
    (∀ i ≤ j, (e.history i p).rf.commitIndex < (e.history j p).rf.matchIndex q) ∧
    ∀ k ≤ j, (e.history k q).rf.currentTerm = (e.history j p).rf.currentTerm →
      ∃ x ≤ (e.history j p).rf.matchIndex q,
        (e.history k q).rf.log[x]? ≠ (e.history j p).rf.log[x]? := by
  refine ⟨corrupted, 59, 3, 1, corrupted_noSnapshots, ?_⟩
  decide +kernel

-- Server 3 has committed its first entry as the leader of term 5, server 1 leads term 6 without it.
theorem leader_incomplete : ∃ (e : LiveExecution doubling 5 Nat Unit) (i j : Nat) (p q : Fin 5)
    (entry : LogEntry Nat), e.NoSnapshots ∧
    (∀ k < i, ∀ l, (e.history k l).rf.commitIndex = 0) ∧
    (e.history i p).rf.state = .leader ∧ 1 ≤ (e.history i p).rf.commitIndex ∧
    (e.history i p).rf.log[1]? = some entry ∧
    (e.history j q).rf.state = .leader ∧
    (e.history i p).rf.currentTerm < (e.history j q).rf.currentTerm ∧
    (e.history j q).rf.log[1]? ≠ some entry := by
  refine ⟨corrupted, 74, 79, 3, 1, ⟨1, some 10⟩, corrupted_noSnapshots, ?_⟩
  decide +kernel

end LiveExecution
