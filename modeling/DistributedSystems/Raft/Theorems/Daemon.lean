import DistributedSystems.Raft.Daemon
import DistributedSystems.Raft.Theorems.Provenance
import DistributedSystems.Raft.Theorems.Server
import DistributedSystems.Raft.Theorems.Uncompacted
import DistributedSystems.Tester.Theorems.Group

open Rfsrv

variable {n : Nat} {C : Type} {snapshot : Bool} {k : Nat}

namespace Peer

variable {peer : Peer n C} {m : ApplyMsg C (Snapshot C)}

-- The messages that the server has worked on.
def processed (peer : Peer n C) : List (ApplyMsg C (Snapshot C)) :=
  match peer.rs.applier with
  | .received _ => peer.node.applyCh.dropLast
  | _           => peer.node.applyCh

-- How the server keeps up with its peer, whose stream of messages starts behind `k`.
structure Coherent (snapshot : Bool) (k : Nat) (peer : Peer n C) : Prop where
  starting     : peer.rs.applier = .starting → snapshot = true
  received     : ∀ m, peer.rs.applier = .received m → peer.node.applyCh.getLast? = some m
  snapshotting : ∀ index, peer.rs.applier = .snapshotting index →
    snapshot = true ∧ ∃ c, peer.node.applyCh.getLast? = some (.command c index)
  lastApplied  : snapshot = true → peer.rs.lastApplied = lastIndex k peer.processed
  base         : snapshot = false → k = 0

namespace Coherent

theorem congr {node : Node n C (Snapshot C)} (h : peer.Coherent snapshot k)
    (hn : node.applyCh = peer.node.applyCh) : Coherent snapshot k { peer with node } where
  starting     := h.starting
  received     := by simpa only [hn] using h.received
  snapshotting := by simpa only [hn] using h.snapshotting
  lastApplied  := by simpa only [processed, hn] using h.lastApplied
  base         := h.base

-- The server is ready for the next message.
theorem reading {node : Node n C (Snapshot C)} {rs : Rfsrv C} (h : peer.Coherent snapshot k)
    (hr : rs.applier = .reading)
    (hl : snapshot = true → rs.lastApplied = lastIndex k node.applyCh) :
    Coherent snapshot k ⟨node, rs⟩ where
  starting     := by simp [hr]
  received     := by simp [hr]
  snapshotting := by simp [hr]
  lastApplied  := by simpa only [processed, hr] using hl
  base         := h.base

theorem applierSnap (h : peer.Coherent snapshot k) (hm : peer.rs.applier = .received m)
    (hs : snapshot = true) (hd : ∀ data term index, m = .snapshot data term index →
      ∃ d, data = some d ∧ snapshot = true ∧ d.lastIncludedIndex = index)
    (me : Fin n) : Coherent snapshot k { peer with rs := peer.rs.applierSnap me m } := by
  have hl := h.received m hm
  have hx := lastIndex_of_getLast? (i := k) hl
  cases m <;> simp only [Rfsrv.applierSnap]
  case snapshot data term index =>
    obtain ⟨d, rfl, -, hi⟩ := hd data term index rfl
    simp only [ingestSnap, hi, ne_eq, not_true_eq_false, if_false]
    exact h.reading rfl fun _ => hi.trans hx.symm
  case command c index =>
    refine ⟨fun _ => hs, fun m ha => ?_, fun j ha => ?_, fun _ => ?_, h.base⟩
    · simp only at ha
      split_ifs at ha
    · simp only at ha
      split_ifs at ha
      cases ha
      exact ⟨hs, c, hl⟩
    · simp only [processed]
      split_ifs <;> exact hx.symm

theorem start {p : Fin n} {persister : Persister n C (Snapshot C)}
    (h : Saved (fun index data => snapshot = true ∧ data.lastIncludedIndex = index)
      (Raft.make p persister).snapshotLastIndex persister.snapshot) :
    Coherent snapshot (Raft.make p persister).snapshotLastIndex
    ((raft1d n C snapshot).start p persister) := by
  rcases h with ⟨hi, hd⟩ | ⟨data, hd, hb, hi⟩
  · refine ⟨?_, ?_, ?_, ?_, fun _ => hi⟩ <;> cases snapshot <;>
      simp [raft1d, make, processed, Node.boot, lastIndex, hd, hi]
  · refine ⟨?_, ?_, ?_, ?_, ?_⟩ <;>
      simp [raft1d, make, processed, restore, Node.boot, lastIndex, hb, hd, hi]

end Coherent
end Peer

@[simps]
def Call.of {D : Type} (call : Nodes.Call (Fin n) (Request n C D)) : Call n C D :=
  ⟨call.caller, call.callee, call.incarnation, call.request⟩

namespace Cluster

variable {s s' : Cluster n C (Snapshot C)} {p : Fin n} {nd : Node n C (Snapshot C)}
  {msgs : List (Message n C (Snapshot C))} {a : Event n C (Snapshot C)}

-- A cluster with the servers of the tests. If there are snapshots at all, then they know their
-- index.
structure Served (snapshot : Bool) (s : Cluster n C (Snapshot C)) : Prop where
  owned   : ∀ p, (s.node p).rf.me = p ∧ (s.node p).Saved
  streams : ∀ p, ∃ k, (s.node p).Streams k
  sourced : s.Sourced (fun _ _ => True) fun index data => snapshot = true ∧
    data.lastIncludedIndex = index

def Encodes (snapshot : Bool) (s : Cluster n C (Snapshot C)) (a : Event n C (Snapshot C)) : Prop :=
  ∀ p data, a = .snapshot p data →
    ∀ i, (s.node p).received = some i → snapshot = true ∧ data.lastIncludedIndex = i

variable [DecidableEq C]

theorem Served.next (h : s.Served snapshot) (ha : s.Encodes snapshot a) (hs : s.next a = some s') :
    s'.Served snapshot where
  owned p := by
    obtain ⟨hm, hv⟩ := h.owned p
    have hp := Cluster.next_passes hs p
    cases hi : s.input p a <;> simp only [hi, Passes, Option.elim] at hp
    case none   => exact hp ▸ h.owned p
    case some i => exact ⟨(Node.next_vote hv hp).left.trans hm, Node.next_saved hv hp⟩
  streams := streams_next h.streams hs
  sourced := h.sourced.next h.streams (fun _ _ _ _ => trivial) ha hs

-- A server that is not restarted continues its stream.
theorem next_streams (h : (s.node p).Streams k) (hs : s.next a = some (s.update p nd msgs))
    (hi : nd.incarnation = (s.node p).incarnation) : nd.Streams k := by
  rcases next_proceeds hs p with hc | ⟨_, hb, _⟩
  · simpa using hc.streams h
  · rw [update_node_self] at hb
    rw [hb] at hi
    exact absurd hi (Nat.succ_ne_self _)

end Cluster

-- The peers of the daemons are the servers of a cluster.
structure Hosts (snapshot : Bool) (t : Nodes (Fin n) (Peer n C) (Request n C (Snapshot C)) Reply)
    (s : Cluster n C (Snapshot C)) : Prop where
  served   : s.Served snapshot
  node     : ∀ p peer, t.node p = some peer →
    s.node p = { peer.node with incarnation := t.incarnation p } ∧
    ∃ k, (s.node p).Streams k ∧ peer.Coherent snapshot k
  requests : ∀ call ∈ t.requests, .request (.of call) ∈ s.network
  replies  : ∀ x ∈ t.replies, .reply (.of x.fst) x.snd ∈ s.network

namespace Hosts

variable {t t' : Nodes (Fin n) (Peer n C) (Request n C (Snapshot C)) Reply}
  {s : Cluster n C (Snapshot C)} {p : Fin n} {peer : Peer n C}

-- The server does something that the peer does not notice.
theorem keep {rs : Rfsrv C} (h : Hosts snapshot t s) (hp : t.node p = some peer)
    (hr : ∀ k, peer.Coherent snapshot k → Peer.Coherent snapshot k { peer with rs }) :
    Hosts snapshot (t.set p (some { peer with rs })) s where
  served          := h.served
  node q peer' hx := by
    by_cases hq : q = p
    case pos =>
      subst hq
      simp only [Nodes.set, Function.update_self, Option.some.injEq] at hx
      subst hx
      obtain ⟨hn, k, hk, hc⟩ := h.node q peer hp
      exact ⟨hn, k, hk, hr k hc⟩
    case neg => exact h.node q peer' (by simpa [Nodes.set, hq] using hx)
  requests        := h.requests
  replies         := h.replies

theorem report (h : Hosts snapshot t s) (hp : t.node p = some peer) {daemon : Option (Peer n C)}
    (ha : peer.act snapshot .report = some (daemon, [])) : Hosts snapshot (t.set p daemon) s := by
  obtain ⟨hn, -⟩ := h.node p peer hp
  simp only [Peer.act] at ha
  split at ha <;> cases ha
  case h_1 hx =>
    refine h.keep hp fun k hc => hc.reading rfl fun hb => ?_
    simpa only [Peer.processed, hx] using hc.lastApplied hb
  case h_2 m hx =>
    refine h.keep hp fun k hc => ?_
    have hm : m ∈ (s.node p).applyCh := by
      rw [hn]
      exact List.mem_of_getLast? (hc.received m hx)
    have hm := (h.served.sourced.node p).applied m hm
    split_ifs with hb
    case pos => exact hc.applierSnap hx hb (by rintro data term index rfl; exact hm) _
    case neg => exact hc.reading rfl (absurd · hb)

variable [DecidableEq C]

theorem init : Hosts snapshot (nodes (raft1d n C snapshot)).init (raft n C (Snapshot C)).init where
  served        := ⟨fun _ => ⟨Node.boot_me, Node.saved_boot⟩, fun _ => ⟨_, .boot⟩, .init⟩
  node p peer h := by
    cases h
    exact ⟨rfl, _, .boot, .start (p := p) (.inl ⟨rfl, rfl⟩)⟩
  requests      := by simp [nodes]
  replies       := by simp [nodes]

-- A step of one of the processes.
theorem update {a : Event n C (Snapshot C)} {nd : Node n C (Snapshot C)}
    {msgs : List (Message n C (Snapshot C))} (h : Hosts snapshot t s) (ha : s.Encodes snapshot a)
    (hs : s.next a = some (s.update p nd msgs))
    (hp : ∀ peer, t'.node p = some peer → nd = { peer.node with incarnation := t'.incarnation p } ∧
      ∃ k, nd.Streams k ∧ peer.Coherent snapshot k)
    (ht : ∀ q ≠ p, t'.node q = t.node q ∧ t'.incarnation q = t.incarnation q)
    (hq : ∀ call ∈ t'.requests, call ∈ t.requests ∨ .request (.of call) ∈ msgs)
    (hr : ∀ x ∈ t'.replies, x ∈ t.replies ∨ .reply (.of x.fst) x.snd ∈ msgs) :
    Hosts snapshot t' (s.update p nd msgs) where
  served          := h.served.next ha hs
  node q peer' hx := by
    by_cases he : q = p
    case pos =>
      subst he
      simpa using hp peer' hx
    case neg =>
      obtain ⟨hn, hi⟩ := ht q he
      simpa [he, hi] using h.node q peer' (hn ▸ hx)
  requests c hc   := by simpa using (hq c hc).imp_left (h.requests c)
  replies x hx    := by simpa using (hr x hx).imp_left (h.replies x)

-- A process acts.
theorem set {a : Event n C (Snapshot C)} {nd : Node n C (Snapshot C)} {daemon : Option (Peer n C)}
    {sent : List (Fin n × Request n C (Snapshot C))} (h : Hosts snapshot t s)
    (hp : t.node p = some peer) (ha : s.Encodes snapshot a)
    (hs : s.next a = some (s.update p nd (s.calls p sent)))
    (hd : ∀ peer', daemon = some peer' → nd = { peer'.node with incarnation := t.incarnation p } ∧
      ∀ k, peer.Coherent snapshot k → peer'.Coherent snapshot k) :
    ∃ s', s.next a = some s' ∧ Hosts snapshot { t.set p daemon with
      requests := t.requests ++ sent.map fun (q, req) => ⟨p, q, t.incarnation p, req⟩ } s' := by
  obtain ⟨hn, k, hk, hc⟩ := h.node p peer hp
  have hi : (s.node p).incarnation = t.incarnation p := by rw [hn]
  refine ⟨_, hs, h.update ha hs (fun peer' hx => ?_) (fun q hq => by simp [Nodes.set, hq])
    (fun call hq => ?_)
    fun x hx => .inl hx⟩
  · obtain ⟨he, hx⟩ := hd peer' (by simpa [Nodes.set] using hx)
    exact ⟨he, k, Cluster.next_streams hk hs (by rw [he, hi]), hx k hc⟩
  · refine (List.mem_append.mp hq).imp id fun hq => ?_
    obtain ⟨x, hx, rfl⟩ := List.mem_map.mp hq
    exact List.mem_map.mpr ⟨x, hx, by simp [Call.of, hi]⟩

-- A critical section of the peer ends.
theorem finish {a : Event n C (Snapshot C)} {rf : Raft n C (Snapshot C)} (h : Hosts snapshot t s)
    (hp : t.node p = some peer) (ha : s.Encodes snapshot a)
    (hs : s.next a = some (s.update p ((s.node p).finish rf) [])) :
    Hosts snapshot (t.set p (some { peer with node := peer.node.finish rf }))
      (s.update p ((s.node p).finish rf) []) := by
  obtain ⟨hn, k, hk, hc⟩ := h.node p peer hp
  refine h.update ha hs (fun peer' hx => ?_) (fun q hq => by simp [Nodes.set, hq])
    (fun _ => .inl) fun _ => .inl
  simp only [Nodes.set, Function.update_self, Option.some.injEq] at hx
  subst hx
  exact ⟨by rw [hn]; rfl, k, Cluster.next_streams hk hs rfl, hc.congr rfl⟩

-- Snapshots are only taken in tests about snapshots.
def Allows (snapshot : Bool) (a : Event n C (Snapshot C)) : Prop :=
  ∀ p data, a = .snapshot p data → snapshot = true

-- A process acts, but it does not take a snapshot.
theorem plain (a : Event n C (Snapshot C)) {nd : Node n C (Snapshot C)} {daemon : Option (Peer n C)}
    {sent : List (Fin n × Request n C (Snapshot C))} (h : Hosts snapshot t s)
    (hp : t.node p = some peer) (ha : ∀ p data, a ≠ .snapshot p data)
    (hs : s.next a = some (s.update p nd (s.calls p sent)))
    (hd : ∀ peer', daemon = some peer' → nd = { peer'.node with incarnation := t.incarnation p } ∧
      ∀ k, peer.Coherent snapshot k → peer'.Coherent snapshot k) :
    ∃ a, Allows snapshot a ∧ ∃ s', s.next a = some s' ∧ Hosts snapshot { t.set p daemon with
      requests := t.requests ++ sent.map fun (q, req) => ⟨p, q, t.incarnation p, req⟩ } s' :=
  ⟨a, fun p data hx => absurd hx (ha p data),
    h.set hp (fun p data hx => absurd hx (ha p data)) hs hd⟩

theorem act {e : Peer.Act C} (h : Hosts snapshot t s)
    (hs : t.act (raft1d n C snapshot) p e = some t') :
    Hosts snapshot t' s ∨ ∃ a, Allows snapshot a ∧ ∃ s', s.next a = some s' ∧
    Hosts snapshot t' s' := by
  simp only [Nodes.act, Option.bind_eq_bind, Option.bind_eq_some_iff, Option.some.injEq,
    Prod.exists] at hs
  obtain ⟨peer, hp, daemon, sent, ha, rfl⟩ := hs
  obtain ⟨hn, k, -, hc⟩ := h.node p peer hp
  have hrf : (s.node p).rf = peer.node.rf := by rw [hn]
  have hap : (s.node p).applier = peer.node.applier := by rw [hn]
  -- What becomes of the daemon if a critical section of its peer ends.
  have finish (rf : Raft n C (Snapshot C)) (peer' : Peer n C)
      (hx : some { peer with node := peer.node.finish rf } = some peer') :
      (s.node p).finish rf = { peer'.node with incarnation := t.incarnation p } ∧
      ∀ k, peer.Coherent snapshot k → peer'.Coherent snapshot k := by
    cases hx
    exact ⟨by rw [hn]; rfl, fun _ hc => hc.congr rfl⟩
  cases e <;> simp only [raft1d] at ha
  case report =>
    refine .inl ?_
    obtain rfl : sent = [] := by
      simp only [Peer.act] at ha
      split at ha <;> cases ha <;> rfl
    rw [List.map_nil, List.append_nil]
    exact h.report hp ha
  all_goals simp only [Peer.act] at ha
  case start command =>
    refine .inr ?_
    split at ha <;> cases ha
    case h_1 hx =>
      exact h.plain (.start p command) hp (by simp) (by simp [Cluster.next, Cluster.start, hrf, hx])
        (finish _)
    case h_2 hx =>
      exact h.plain (.start p command) hp (by simp)
        (by simp [Cluster.next, Cluster.start, hrf, hx]; rfl) (by simp)
  case startElection =>
    refine .inr ?_
    split at ha <;> cases ha
    case h_1 hx =>
      exact h.plain (.startElection p) hp (by simp)
        (by simp [Cluster.next, Cluster.startElection, hrf, hx]) (finish _)
    case h_2 hx =>
      exact h.plain (.startElection p) hp (by simp)
        (by simp [Cluster.next, Cluster.startElection, hrf, hx]; rfl)
        (by simp)
  case heartbeat =>
    refine .inr ?_
    split_ifs at ha with hl
    split at ha <;> cases ha
    case h_1 hx =>
      refine h.plain (.heartbeat p) hp (by simp)
        (by simp [Cluster.next, Cluster.heartbeat, hrf, hl, hx]; rfl) ?_
      rintro _ ⟨⟩
      exact ⟨hn, fun _ => id⟩
    case h_2 hx =>
      exact h.plain (.heartbeat p) hp (by simp)
        (by simp [Cluster.next, Cluster.heartbeat, hrf, hl, hx]; rfl) (by simp)
  case applyTicker =>
    refine .inr ?_
    obtain ⟨r, hr, ha⟩ := Option.map_eq_some_iff.mp ha
    cases r <;> cases ha
    case error =>
      exact h.plain (.applyTicker p) hp (by simp)
        (by simp [Cluster.next, Cluster.applyTicker, hrf, hap, hr]; rfl)
        (by simp)
    case ok r =>
      refine h.plain (.applyTicker p) hp (by simp)
        (by simp [Cluster.next, Cluster.applyTicker, hrf, hap, hr]; rfl) ?_
      rintro _ ⟨⟩
      exact ⟨by rw [hn], fun _ hc => hc.congr rfl⟩
  case receive =>
    split at ha <;> cases ha
    case h_1 m hr hx =>
      refine .inr (h.plain (.receive p) hp (by simp)
        (by simp [Cluster.next, Cluster.receive, hap, hx]; rfl) ?_)
      rintro _ ⟨⟩
      refine ⟨by rw [hn], fun k hc => ⟨by simp, by simp, by simp, fun hb => ?_, hc.base⟩⟩
      simpa [Peer.processed, hr] using hc.lastApplied hb
  case snapshot =>
    split at ha <;> try cases ha
    case h_1 index hx =>
      obtain ⟨hb, c, hl⟩ := hc.snapshotting index hx
      have hre : (s.node p).received = some index := by rw [hn]; simp [Node.received, hl]
      have he : s.Encodes snapshot (.snapshot p (peer.rs.encode index)) := by
        rintro _ _ ⟨⟩ i hi
        exact ⟨hb, Option.some.inj (hre.symm.trans hi)⟩
      refine .inr ⟨.snapshot p (peer.rs.encode index), fun _ _ _ => hb, ?_⟩
      split at ha <;> cases ha
      case h_1 hk =>
        refine h.set hp he (by simp [Cluster.next, Cluster.snapshot, hre, hrf, hk]; rfl) ?_
        rintro _ ⟨⟩
        refine ⟨by rw [hn]; rfl, fun k hc => hc.reading rfl fun hb => ?_⟩
        simpa [Peer.processed, hx, Node.finish] using hc.lastApplied hb
      case h_2 hk =>
        exact h.set hp he (by simp [Cluster.next, Cluster.snapshot, hre, hrf, hk]; rfl) (by simp)

theorem serve {call : Nodes.Call (Fin n) (Request n C (Snapshot C))} (h : Hosts snapshot t s)
    (hm : call ∈ t.requests) (hs : t.serve (raft1d n C snapshot) call = some t') :
    ∃ s', s.next (.serve (.of call)) = some s' ∧ Hosts snapshot t' s' := by
  simp only [Nodes.serve, Option.bind_eq_bind, Option.bind_eq_some_iff] at hs
  obtain ⟨peer, hp, hs⟩ := hs
  obtain ⟨hn, k, hk, hc⟩ := h.node _ peer hp
  have hrf : (s.node call.callee).rf = peer.node.rf := by rw [hn]
  have hq := h.requests call hm
  simp only [raft1d, Peer.handle] at hs
  cases hx : peer.node.rf.serve call.request <;> simp only [hx, Option.some.injEq] at hs <;>
    subst hs
  case error c =>
    have hs : s.next (.serve (.of call)) = some (s.crash call.callee c) := by
      simp [Cluster.next, hq, Cluster.serve, hrf, hx]
    exact ⟨_, hs, h.update (by simp [Cluster.Encodes]) hs (by simp [Nodes.set])
      (fun q hq => by simp [Nodes.set, hq])
      (fun _ => .inl) fun _ => .inl⟩
  case ok r =>
    have hs : s.next (.serve (.of call)) =
        some (s.update call.callee ((s.node call.callee).finish r.fst)
        [.reply (.of call) r.snd]) := by
      simp [Cluster.next, hq, Cluster.serve, hrf, hx]
    refine ⟨_, hs, h.update (by simp [Cluster.Encodes]) hs (fun peer' hx => ?_)
      (fun q hq => by simp [Nodes.set, hq])
      (fun _ => .inl) fun x hx => ?_⟩
    · simp only [Nodes.set, Function.update_self, Option.some.injEq] at hx
      subst hx
      exact ⟨by rw [hn]; rfl, k, Cluster.next_streams hk hs rfl, hc.congr rfl⟩
    · exact (List.mem_append.mp hx).imp id fun hx => by simp_all

theorem resume {call : Nodes.Call (Fin n) (Request n C (Snapshot C))} {reply : Option Reply}
    (h : Hosts snapshot t s) (hm : ∀ r, reply = some r → (call, r) ∈ t.replies)
    (hf : reply = none → call ∈ t.requests)
    (hs : t.resume (raft1d n C snapshot) call reply = some t') :
    ∃ a, Allows snapshot a ∧ ∃ s', s.next a = some s' ∧ Hosts snapshot t' s' := by
  simp only [Nodes.resume, Option.bind_eq_bind, Option.ite_none_right_eq_some,
    Option.bind_eq_some_iff, Option.some.injEq] at hs
  obtain ⟨hi, peer, hp, daemon, hs, rfl⟩ := hs
  obtain ⟨hn, -⟩ := h.node _ peer hp
  have hrf : (s.node call.caller).rf = peer.node.rf := by rw [hn]
  have hi : call.incarnation = (s.node call.caller).incarnation := by rw [hn, hi]
  cases reply <;> simp only [raft1d, Peer.resume] at hs
  case some reply =>
    have hq := h.replies _ (hm reply rfl)
    obtain ⟨r, hr, hs⟩ := Option.map_eq_some_iff.mp hs
    refine ⟨.returned (.of call) reply, by simp [Allows], ?_⟩
    cases r <;> subst hs
    case error c =>
      have hs : s.next (.returned (.of call) reply) = some (s.crash call.caller c) := by
        simp [Cluster.next, hq, Cluster.returned, hi, hrf, hr]
      exact ⟨_, hs, h.update (by simp [Cluster.Encodes]) hs (by simp [Nodes.set])
        (fun q hq => by simp [Nodes.set, hq])
        (fun _ => .inl) fun _ => .inl⟩
    case ok rf =>
      have hs : s.next (.returned (.of call) reply) =
          some (s.update call.caller ((s.node call.caller).finish rf) []) := by
        simp [Cluster.next, hq, Cluster.returned, hi, hrf, hr]
      exact ⟨_, hs, h.finish hp (by simp [Cluster.Encodes]) hs⟩
  case none =>
    have hq := h.requests _ (hf rfl)
    refine ⟨.failed (.of call), by simp [Allows], ?_⟩
    split at hs <;> cases hs
    case h_1 hr =>
      refine ⟨s, by simp [Cluster.next, hq, Cluster.failed, hi, hr], ?_⟩
      exact h.keep hp fun k (hc : Peer.Coherent snapshot k { peer with rs := peer.rs }) => hc
    case h_2 hr =>
      have hs : s.next (.failed (.of call)) =
          some (s.update call.caller ((s.node call.caller).finish peer.node.rf) []) := by
        cases hx : call.request <;> simp_all [Cluster.next, Cluster.failed]
      exact ⟨_, hs, h.finish hp (by simp [Cluster.Encodes]) hs⟩

theorem restart (h : Hosts snapshot t s) (hs : t.restart (raft1d n C snapshot) p = some t') :
    ∃ s', s.next (.restart p) = some s' ∧ Hosts snapshot t' s' := by
  simp only [Nodes.restart, Option.bind_eq_bind, Option.bind_eq_some_iff, Option.some.injEq] at hs
  obtain ⟨peer, hp, rfl⟩ := hs
  obtain ⟨hn, -⟩ := h.node _ peer hp
  have hs : s.next (.restart p) = some (s.update p ((s.node p).restart (s.node p).persister) []) :=
    rfl
  refine ⟨_, hs, h.update (by simp [Cluster.Encodes]) hs (fun peer' hx => ?_)
    (fun q hq => by simp [Nodes.set, hq])
    (fun _ => .inl) fun _ => .inl⟩
  simp only [Nodes.set, Function.update_self, Option.some.injEq] at hx
  subst hx
  have hme : peer.node.rf.me = p := by
    have hm := (h.served.owned p).left
    rwa [hn] at hm
  have hsv := ((h.served.sourced.node p).persister p).snapshot
  simp only [hn, Node.restart, hme, Function.update_self] at hsv ⊢
  exact ⟨rfl, _, .boot, .start hsv⟩

theorem next {a : Nodes.Event (Fin n) (Peer.Act C) (Request n C (Snapshot C)) Reply}
    (h : Hosts snapshot t s) (hs : (nodes (raft1d n C snapshot)).next t a = some t') :
    Hosts snapshot t' s ∨
    ∃ a' s', Allows snapshot a' ∧ (raft n C (Snapshot C)).next s a' = some s' ∧
    Hosts snapshot t' s' := by
  cases a <;> simp only [nodes, Nodes.next, Option.ite_none_right_eq_some] at hs
  case act p e =>
    rcases h.act hs with h | ⟨a', ha, s', hn, h⟩
    · exact .inl h
    · exact .inr ⟨a', s', ha, hn, h⟩
  case serve call =>
    obtain ⟨s', hn, h⟩ := h.serve hs.left hs.right
    exact .inr ⟨.serve (.of call), s', by simp [Allows], hn, h⟩
  case returned call reply =>
    obtain ⟨a', ha, s', hn, h⟩ := h.resume (by simpa using hs.left) (by simp) hs.right
    exact .inr ⟨a', s', ha, hn, h⟩
  case failed call =>
    obtain ⟨a', ha, s', hn, h⟩ := h.resume (by simp) (fun _ => hs.left) hs.right
    exact .inr ⟨a', s', ha, hn, h⟩
  case restart p =>
    obtain ⟨s', hn, h⟩ := h.restart hs
    exact .inr ⟨.restart p, s', by simp [Allows], hn, h⟩

end Hosts

variable [DecidableEq C]

-- So whatever a test does to its daemons, they are the servers of a cluster.
theorem Tester.exists_execution (b : (group (raft1d n C snapshot)).Behavior) :
    ∃ e : Execution n C (Snapshot C),
      (∀ i p peer, ((b.state i).server p).running = some peer →
        (e.state i).node p = { peer.node with incarnation := ((b.state i).server p).incarnation } ∧
        ∃ k, ((e.state i).node p).Streams k ∧ peer.Coherent snapshot k) ∧
      (∀ i k f reply, (b.state i).calls[k]? = some f → (b.state i).returns k f = some (some reply) →
        .reply (.of f.call) reply ∈ (e.state i).network) ∧
      (∀ i, (e.state i).Served snapshot) ∧ (snapshot = false → e.NoSnapshots) := by
  obtain ⟨t, ht, hr, _⟩ := exists_nodes b
  obtain ⟨e, he, hl⟩ := t.exists_related Hosts.init fun _ _ _ _ _ hs h => Hosts.next h hs
  refine ⟨e, fun i p peer hp => ?_, fun i k f reply hk hx => ?_, fun i => (he i).served,
    fun hb i p data hx => ?_⟩
  · obtain ⟨hn, hi⟩ := ht i p peer hp
    exact hi ▸ (he i).node p peer hn
  · exact (he i).replies _ (hr i k f reply hk hx)
  · obtain ⟨_, _, ha⟩ := hl i _ hx
    exact Bool.false_ne_true (hb.symm.trans (ha p data rfl))

namespace Tester

-- A candidate can rely on the votes that it has received. The server is asked for its persister
-- after it has been taken from the network, so that a vote which it forgets has never reached a
-- candidate.
theorem vote_durable (b : (group (raft1d n C snapshot)).Behavior) {i j k : Nat}
    {f : Forward (Fin n) (Request n C (Snapshot C))} {args : RequestVoteArgs n}
    {reply : RequestVoteReply} {peer : Peer n C} (hk : (b.state i).calls[k]? = some f)
    (hf : f.call.request = .requestVote args)
    (hr : (b.state i).returns k f = some (some (.requestVote reply)))
    (hv : reply.voteGranted = true) (hij : i ≤ j)
    (hp : ((b.state j).server f.call.callee).running = some peer) :
    args.term < peer.node.rf.currentTerm ∨
    args.term = peer.node.rf.currentTerm ∧ peer.node.rf.votedFor = some f.call.caller := by
  obtain ⟨e, he, hm, _⟩ := exists_execution b
  have hm := e.network_mono hij _ (hm i k f _ hk hr)
  have hb : (e.state j).Voted f.call.callee args.term f.call.caller :=
    .inr ⟨f.call.incarnation, args, reply, rfl, hv, by simpa only [Call.of, hf] using hm⟩
  simpa only [Cluster.Backed, (he j _ peer hp).left] using (e.elections j).backed _ _ _ hb

-- Server 1 votes for server 0 and is restarted before the candidate gets to know about it.
def voted : (group (raft1d 3 Nat false)).Behavior :=
  .ofActions _ [.startServer 0, .addServer 0, .startServer 1, .addServer 1, .enable (0, 0, 1) true,
    .act 0 .startElection, .net 0 .processReq, .net 0 .call, .handle 0, .reply 0, .net 0 .receive,
    .net 0 (.reply .pass), .deleteServer 1, .checkpointPersister 1, .kill 1,
    .startServer 1] (by decide +kernel)

theorem vote_durable_restarted : ∃ peer, ((voted.state 16).server 1).running = some peer ∧
    ((voted.state 16).server 1).incarnation = 1 ∧ (1 < peer.node.rf.currentTerm ∨
      1 = peer.node.rf.currentTerm ∧ peer.node.rf.votedFor = some 0) := by
  let f : Forward (Fin 3) (Request 3 Nat (Snapshot Nat)) :=
    ⟨⟨0, 1, 0, .requestVote ⟨1, 0, 0, 0⟩⟩, false, false⟩
  obtain ⟨peer, hp⟩ :=
    Option.isSome_iff_exists.mp (by decide +kernel : ((voted.state 16).server 1).running.isSome)
  have hk : (voted.state 12).calls[0]? = some f := by decide +kernel
  have hr : (voted.state 12).returns 0 f = some (some (.requestVote ⟨0, true⟩)) := by decide +kernel
  exact ⟨peer, hp, by decide +kernel, vote_durable voted hk rfl hr rfl (by decide) hp⟩

end Tester
