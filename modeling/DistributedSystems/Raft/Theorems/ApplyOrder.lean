import DistributedSystems.Raft.Theorems.Safety

variable {n : Nat} {C D : Type}

namespace Applier

-- The message that `applyTicker` is sending or has just sent.
def msg : Applier C D → Option (ApplyMsg C D)
  | sleeping              => none
  | offering msg | sent msg => msg

end Applier

namespace Node

variable {nd nd' : Node n C D}

-- A message that is on its way is newer than all messages before it.
def Ahead (nd : Node n C D) : Applier C D → Prop
  | .sleeping     => ∀ m ∈ nd.applyCh, m.index ≤ nd.rf.lastApplied
  | .offering msg => msg.index = nd.rf.lastApplied ∧ ∀ m ∈ nd.applyCh, m.index < nd.rf.lastApplied
  | .sent msg     => nd.applyCh.getLast? = some msg ∧ ∀ m ∈ nd.applyCh, m.index ≤ nd.rf.lastApplied

structure Ordered (nd : Node n C D) : Prop where
  sorted  : nd.applyCh.Pairwise (·.index < ·.index)
  ahead   : nd.Ahead nd.applier
  -- A snapshot that waits to be applied is newer than everything else, or it is the message that is
  -- on its way.
  pending : nd.rf.isSnapshotApplied = false →
    (nd.rf.lastApplied < nd.rf.snapshotLastIndex) ∨
    (nd.rf.lastApplied = nd.rf.snapshotLastIndex ∧
      ∃ data term, nd.applier.msg = some (.snapshot data term nd.rf.snapshotLastIndex))

namespace Ordered

theorem boot {me : Fin n} {persister : Persister n C D} {k : Nat} :
    (boot me persister k).Ordered := by
  cases persister with | mk raftstate _ =>
    cases raftstate <;> exact { sorted := .nil, ahead := nofun, pending := nofun }

theorem same (h : nd.Ordered) (hs : nd.rf.SameSnapshot nd'.rf) (ha : nd'.applier = nd.applier)
    (hc : nd'.applyCh = nd.applyCh) : nd'.Ordered where
  sorted     := hc ▸ h.sorted
  ahead      := by
    have := h.ahead
    rw [ha]
    cases hx : nd.applier <;> simp only [hx, Ahead] at this ⊢ <;> simpa only [hc, hs.lastApplied]
  pending hx := by
    rw [hs.lastApplied, hs.snapshotLastIndex, ha]
    exact h.pending (hs.isSnapshotApplied ▸ hx)

theorem ahead_le (h : nd.Ordered) {m : ApplyMsg C D} (hm : m ∈ nd.applyCh) :
    m.index ≤ nd.rf.lastApplied := by
  have ha := h.ahead
  cases hx : nd.applier <;> simp only [hx, Ahead] at ha
  case sleeping => exact ha m hm
  case offering => exact (ha.right m hm).le
  case sent     => exact ha.right m hm

theorem received_le (h : nd.Ordered) {k : Nat} (hr : nd.received = some k) :
    k ≤ nd.rf.lastApplied := by
  simp only [received] at hr
  split at hr <;> cases hr
  case _ hm => exact h.ahead_le (List.mem_of_getLast? hm)

-- The service cannot make a snapshot that is newer than the one that waits.
theorem applied_of_received (h : nd.Ordered) {k : Nat} (hr : nd.received = some k)
    (hk : nd.rf.snapshotLastIndex < k) : nd.rf.isSnapshotApplied = true := by
  have hl := h.received_le hr
  by_contra hs
  have := h.pending (by simpa using hs)
  omega

theorem stored (h : nd.Ordered) {rf : Raft n C D} (hl : rf.lastApplied = nd.rf.lastApplied)
    (hp : rf.isSnapshotApplied = false → nd.rf.lastApplied < rf.snapshotLastIndex) :
    (nd.finish rf).Ordered where
  sorted     := h.sorted
  ahead      := by
    have := h.ahead
    cases hx : nd.applier <;> simp only [hx, Ahead, finish] at this ⊢ <;> simpa only [hl]
  pending hs := .inl <| hl ▸ hp hs

-- The snapshot that has just been sent does not wait any more.
theorem waits (h : nd.Ordered) (ho : ∀ msg, nd.applier ≠ .offering msg)
    (hs : (nd.rf.settle nd.applier).isSnapshotApplied = false) :
    nd.rf.settle nd.applier = nd.rf ∧ nd.rf.lastApplied < nd.rf.snapshotLastIndex := by
  have ⟨hg, hw⟩ := Raft.settle_pending hs
  refine ⟨hg, (h.pending hw).resolve_right ?_⟩
  rintro ⟨_, data, term, hm⟩
  cases ha : nd.applier <;> simp only [ha, Applier.msg, Option.some.injEq, reduceCtorEq] at hm
  case offering => exact ho _ ha
  case sent     => simp [ha, hm, Raft.settle] at hs

theorem ticks (h : nd.Ordered) (ho : ∀ msg, nd.applier ≠ .offering msg) {rf applier}
    (ht : (nd.rf.settle nd.applier).Ticks rf applier) : { nd with rf, applier }.Ordered := by
  have hl : (nd.rf.settle nd.applier).lastApplied = nd.rf.lastApplied := by
    have ⟨_, hb⟩ := nd.rf.settle_eq nd.applier
    rw [hb]
  cases ht
  case snapshot hs =>
    have ⟨hg, hw⟩ := h.waits ho hs
    rw [hg]
    exact {
      sorted    := h.sorted
      ahead     := ⟨rfl, fun m hm => (h.ahead_le hm).trans_lt hw⟩
      pending _ := .inr ⟨rfl, _, _, rfl⟩ }
  case command hs _ _ _ =>
    exact {
      sorted     := h.sorted
      ahead      := ⟨rfl, fun m hm => Nat.lt_succ_of_le (hl ▸ h.ahead_le hm)⟩
      pending hp := nomatch hs.symm.trans hp }
  case sleep =>
    refine { sorted := h.sorted, ahead := fun m hm => hl ▸ h.ahead_le hm,
             pending := fun hp => .inl ?_ }
    have ⟨hg, hw⟩ := h.waits ho hp
    rwa [hg]

theorem receive (h : nd.Ordered) {msg} (ha : nd.applier = .offering msg) :
    { nd with applier := .sent msg, applyCh := nd.applyCh ++ [msg] }.Ordered := by
  have hp := h.ahead
  simp only [ha, Ahead] at hp
  have ⟨hi, hp⟩ := hp
  refine { sorted := ?sorted, ahead := ⟨List.getLast?_concat, fun m hm => ?ahead⟩,
           pending := fun hs => ?pending }
  case sorted =>
    refine List.pairwise_append.mpr ⟨h.sorted, List.pairwise_singleton .., fun m hm m' hm' => ?_⟩
    rw [List.mem_singleton.mp hm', hi]
    exact hp m hm
  case ahead =>
    cases List.mem_append.mp hm
    case inl hm => exact (hp m hm).le
    case inr hm => exact (List.mem_singleton.mp hm) ▸ hi.le
  case pending =>
    have := h.pending hs
    rwa [ha] at this

end Ordered
end Node

namespace Cluster

variable {s s' : Cluster n C D} {p : Fin n}

-- The server installs a snapshot although it has already applied the last entry of it.
def Overtaken (s : Cluster n C D) : Event n C D → Prop
  | .serve ⟨_, p, _, .installSnapshot args⟩ =>
    (s.node p).rf.currentTerm ≤ args.term ∧
    (s.node p).rf.snapshotLastIndex < args.lastIncludedIndex ∧
    args.lastIncludedIndex ≤ (s.node p).rf.lastApplied
  | _ => False

instance {s : Cluster n C D} : (a : Event n C D) → Decidable (s.Overtaken a)
  | .serve ⟨_, p, _, .installSnapshot args⟩ =>
    inferInstanceAs <| Decidable <|
      (s.node p).rf.currentTerm ≤ args.term ∧
      (s.node p).rf.snapshotLastIndex < args.lastIncludedIndex ∧
      args.lastIncludedIndex ≤ (s.node p).rf.lastApplied
  | .serve ⟨_, _, _, .requestVote _⟩ | .serve ⟨_, _, _, .appendEntries _⟩ | .start
    .. | .startElection _
  | .heartbeat _ | .snapshot .. | .applyTicker _ | .receive _ | .returned .. | .failed _ | .restart
    _ =>
    isFalse id

theorem snapshot_isSnapshotApplied {data : D} {rf : Raft n C D} (h : s.snapshot p data = some s')
    (hs : s'.node p = (s.node p).finish rf) :
    rf.isSnapshotApplied = (s.node p).rf.isSnapshotApplied := by
  obtain ⟨index, _, h⟩ := Option.map_eq_some_iff.mp h
  subst h
  cases hx : (s.node p).rf.makeSnapshot index data <;> simp only [hx, crash, update_node_self] at hs
  case error c => simpa [Node.restart, Node.boot, Node.finish] using congrArg Node.incarnation hs
  case ok rf'  =>
    obtain rfl : rf' = rf := congrArg Node.rf hs
    cases Raft.makeSnapshot_ok hx
    case inl h => rw [h.right]
    case inr h =>
      obtain ⟨_, _, _, h⟩ := h
      rw [h]

variable [DecidableEq C] [DecidableEq D]

theorem ordered_next {a : Event n C D} (h : ∀ p, (s.node p).Ordered) (hn : s.next a = some s')
    (ho : ¬s.Overtaken a) (p : Fin n) : (s'.node p).Ordered := by
  cases next_proceeds hn p
  case inr hb =>
    have ⟨_, hb, _⟩ := hb
    exact hb ▸ .boot
  case inl hc =>
    generalize hd : s'.node p = nd at hc
    cases hc
    case same _ hs ha hc => exact (h p).same hs ha hc
    case ticks hf ht     => exact (h p).ticks hf ht
    case receives ha     => exact (h p).receive ha
    case stores rf hl hs _ =>
      refine (h p).stored hl fun hf => ?_
      cases a <;> simp only [Stores] at hs
      case snapshot q data =>
        obtain ⟨rfl, -, hr, hk, -⟩ := hs
        have ht := (h q).applied_of_received hr hk
        rw [←snapshot_isSnapshotApplied hn hd, hf] at ht
        contradiction
      case serve call =>
        obtain ⟨rfl, args, hr, ht, hk, -, -, hx⟩ := hs
        have ⟨_, _, _, request⟩ := call
        subst hr
        exact hx ▸ not_le.mp fun hle => ho ⟨ht, hk, hle⟩

end Cluster

namespace Execution

open Cluster

variable [DecidableEq C] [DecidableEq D]

-- As long as no server installs a snapshot which it has overtaken, each message on `applyCh` has a
-- larger index than all messages before it in the same incarnation.
theorem apply_order (e : Execution n C D) (h : e.Avoids Overtaken) (i : Nat) (p : Fin n) :
    ((e.state i).node p).applyCh.Pairwise (·.index < ·.index) := by
  have hs := e.invariant (I := fun s => ∀ p, (s.node p).Ordered) (fun _ => .boot)
    fun i a _ ha hn hs => ordered_next hs hn (h i a ha)
  exact (hs i p).sorted

theorem apply_order_compacted :
    ((compacted.state 25).node 2).applyCh = [.snapshot (some ()) 1 1, .command (some 11) 2] ∧
    ((compacted.state 25).node 2).applyCh.Pairwise (·.index < ·.index) :=
  ⟨by decide +kernel,
    apply_order compacted (System.Behavior.avoids_ofActions (by decide +kernel)) 25 2⟩

-- The leader misses the replies of server 1, which applies the command. When the leader has
-- compacted its log, it sends the snapshot.
def repetition : List (Event 3 Nat Unit) := [
  .startElection 0, .serve (vote 0 1 1 0 0), .returned (vote 0 1 1 0 0) (granted 0), .start 0 10,
  .serve (append 0 1 1 0 0 0 [(1, 10)]), .serve (append 0 2 1 0 0 0 [(1, 10)]),
  .returned (append 0 2 1 0 0 0 [(1, 10)]) (appended 0), .applyTicker 0, .receive 0,
  .heartbeat 0, .serve (append 0 1 1 1 0 0 [(1, 10)]), .applyTicker 1, .receive 1,
  .snapshot 0 (), .heartbeat 0, .serve (install 0 1 1 1 1), .applyTicker 1, .applyTicker 1,
  .receive 1]

def repeated : Execution 3 Nat Unit :=
  .ofActions (raft 3 Nat Unit) repetition (by decide +kernel)

theorem apply_repeats :
    ((repeated.state 19).node 1).applyCh = [.command (some 10) 1, .snapshot (some ()) 1 1] ∧
    ¬((repeated.state 19).node 1).applyCh.Pairwise (·.index < ·.index) := by
  have h : ((repeated.state 19).node 1).applyCh = [.command (some 10) 1,
      .snapshot (some ()) 1 1] := by
    decide +kernel
  exact ⟨h, by rw [h]; decide⟩

end Execution
