import DistributedSystems.Library.Service
import DistributedSystems.Raft.Memory
import DistributedSystems.Raft.Theorems.Election

-- How far the entries of a request are those that the log of its sender had at the `go` statement.

variable {n : Nat} {C D : Type} {growth : Nat → Nat → Nat}

theorem Raft.sendTo_entries {rf : Raft n C D} {q : Fin n} {args}
    (h : rf.sendTo q = .ok (.appendEntries args)) :
    args.prevLogIndex + 1 - rf.snapshotLastIndex ≤ rf.log.length ∧
    args.entries = rf.log.drop (args.prevLogIndex + 1 - rf.snapshotLastIndex) := by
  simp only [sendTo] at h
  split at h
  case isFalse => cases h
  case isTrue hb =>
    obtain ⟨_, _, h⟩ := Raft.bind_ok h
    obtain ⟨entries, he, h⟩ := Raft.bind_ok h
    cases h
    simp only [logFrom] at he
    split_ifs at he with hi
    cases he
    have hx : rf.nextIndex q - 1 + 1 - rf.snapshotLastIndex =
        (rf.absoluteIndexToLogIndex (rf.nextIndex q)).toNat := by
      simp only [absoluteIndexToLogIndex]
      omega
    rw [hx]
    exact ⟨by omega, rfl⟩

namespace Cluster

variable {s t : Cluster n C D} {event : Event n C D}

-- The requests of a step are calls of its server, and those of `AppendEntries` carry its log.
def Calls (s : Cluster n C D) (p : Fin n) (nd : Node n C D) (sent : List (Message n C D)) : Prop :=
  ∀ call, .request call ∈ sent → call.caller = p ∧ call.incarnation = (s.node p).incarnation ∧
    ∀ args, call.request = .appendEntries args → nd.incarnation = (s.node p).incarnation →
      nd.rf.sendTo call.callee = .ok call.request

-- The states of the servers determine what a step does. The network only has to contain the message
-- that is delivered.
def Acts (s : Cluster n C D) [DecidableEq C] [DecidableEq D] (event : Event n C D)
    (t : Cluster n C D) : Prop :=
  ∃ nd sent, t = s.update event.actor nd sent ∧ s.Calls event.actor nd sent ∧
    ∀ network, (∀ m ∈ s.network, m ∈ network) →
      next ⟨s.node, network⟩ event = some (update ⟨s.node, network⟩ event.actor nd sent)

theorem Calls.nil {p : Fin n} {nd : Node n C D} : s.Calls p nd [] :=
  nofun

theorem Calls.reply {p : Fin n} {nd : Node n C D} {call : Call n C D} {r : Reply} :
    s.Calls p nd [.reply call r] := by
  intro call hm
  simp at hm

theorem Calls.calls {p : Fin n} {nd : Node n C D} {requests : List (Fin n × Request n C D)}
    (h : ∀ q args, (q, .appendEntries args) ∈ requests → nd.incarnation = (s.node p).incarnation →
      nd.rf.sendTo q = .ok (.appendEntries args)) : s.Calls p nd (s.calls p requests) := by
  intro call hm
  obtain ⟨q, request, hq, he⟩ := mem_calls hm
  cases he
  refine ⟨rfl, rfl, fun args hr hi => ?_⟩
  cases hr
  exact h q args hq hi

theorem Calls.restart {p : Fin n} {persister : Persister n C D} {requests} :
    s.Calls p ((s.node p).restart persister) (s.calls p requests) :=
  .calls fun _ _ _ hi => absurd hi (Nat.succ_ne_self _)

theorem Calls.startSendEntries {p : Fin n} {nd : Node n C D} {requests}
    (h : nd.rf.startSendEntries = .ok requests) : s.Calls p nd (s.calls p requests) :=
  .calls fun _ _ hm _ => (Raft.startSendEntries_ok h hm).right

theorem Calls.start {p : Fin n} {command : C} {rf : Raft n C D} {requests out}
    (h : (s.node p).rf.start command = .ok (rf, requests, out)) :
    s.Calls p ((s.node p).finish rf) (s.calls p requests) := by
  by_cases hl : (s.node p).rf.state = .leader
  case neg =>
    cases (if_pos hl).symm.trans h
    exact .nil
  case pos =>
    obtain ⟨_, hx, h⟩ := Raft.bind_ok <| (Raft.start_leader hl command).symm.trans h
    cases h
    exact .startSendEntries hx

theorem Calls.startElection {p : Fin n} {rf : Raft n C D} {requests}
    (h : (s.node p).rf.startElection = .ok (rf, requests)) :
    s.Calls p ((s.node p).finish rf) (s.calls p requests) := by
  refine .calls fun q args hm => ?_
  obtain ⟨_, _, h⟩ := Raft.bind_ok h
  cases h
  simp at hm

variable [DecidableEq C] [DecidableEq D]

theorem next_acts (hs : s.next event = some t) : s.Acts event t := by
  cases event <;> simp only [next] at hs
  case start p command =>
    cases hx : (s.node p).rf.start command <;> simp only [Cluster.start, hx] at hs <;> cases hs
    all_goals refine ⟨_, _, rfl, ?_, fun _ _ => by simp only [next, Cluster.start, hx]; rfl⟩
    case error => exact .restart
    case ok    => exact .start hx
  case startElection p =>
    cases hx : (s.node p).rf.startElection <;>
      simp only [Cluster.startElection, hx] at hs <;> cases hs
    all_goals refine ⟨_, _, rfl, ?_, fun _ _ => by simp only [next, Cluster.startElection, hx]; rfl⟩
    case error => exact .restart
    case ok    => exact .startElection hx
  case heartbeat p =>
    simp only [Cluster.heartbeat] at hs
    split at hs
    case isTrue => cases hs
    case isFalse hl =>
      cases hx : (s.node p).rf.startSendEntries <;> simp only [hx] at hs <;> cases hs
      all_goals refine ⟨_, _, rfl, ?_, fun _ _ => by
        simp only [next, Cluster.heartbeat, if_neg hl, hx]; rfl⟩
      case error => exact .restart
      case ok    => exact .startSendEntries hx
  case snapshot p data =>
    obtain ⟨i, hi, hs⟩ := Option.map_eq_some_iff.mp hs
    cases hx : (s.node p).rf.makeSnapshot i data <;> simp only [hx] at hs <;> cases hs
    all_goals refine ⟨_, _, rfl, ?_, fun _ _ => by
      simp only [next, Cluster.snapshot, hi, Option.map_some, hx]; rfl⟩
    case error => exact .restart
    case ok    => exact .nil
  case applyTicker p =>
    obtain ⟨r, hr, hs⟩ := Option.map_eq_some_iff.mp hs
    cases r <;> cases hs
    all_goals exact ⟨_, _, rfl, .nil, fun _ _ => by simp only [next, Cluster.applyTicker, hr]; rfl⟩
  case receive p =>
    simp only [Cluster.receive] at hs
    split at hs <;> cases hs
    case _ msg ha =>
      exact ⟨_, _, rfl, .nil, fun _ _ => by simp only [next, Cluster.receive, ha]; rfl⟩
  case restart p => cases hs; exact ⟨_, _, rfl, .nil, fun _ _ => rfl⟩
  all_goals split at hs <;> try cases hs
  case serve.isTrue call hm =>
    cases hx : (s.node call.callee).rf.serve call.request <;> simp only [Cluster.serve, hx]
    all_goals refine ⟨_, _, rfl, ?_, fun _ h => by
      simp only [next, if_pos (h _ hm), Cluster.serve, hx]; rfl⟩
    case error => exact .restart
    case ok    => exact .reply
  case returned.isTrue call reply hm =>
    simp only [Cluster.returned] at hs
    split at hs
    case isTrue => cases hs
    case isFalse hk =>
      obtain ⟨r, hr, hs⟩ := Option.map_eq_some_iff.mp hs
      cases r <;> cases hs
      all_goals refine ⟨_, _, rfl, ?_, fun _ h => by
        simp only [next, if_pos (h _ hm), Cluster.returned, if_neg hk, hr]; rfl⟩
      case error => exact .restart
      case ok    => exact .nil
  case failed.isTrue call hm =>
    simp only [Cluster.failed] at hs
    split at hs
    case isTrue => cases hs
    case isFalse hk =>
      split at hs <;> cases hs
      case _ hr =>
        refine ⟨s.node call.caller, [], update_self.symm, .nil, fun network h => ?_⟩
        simp only [next, if_pos (h _ hm), Cluster.failed, if_neg hk, hr]
        exact congrArg some update_self.symm
      case _ hr =>
        exact ⟨_, _, rfl, .nil, fun _ h => by
          simp only [next, if_pos (h _ hm), Cluster.failed, if_neg hk]; rfl⟩

end Cluster

-- A goroutine that a step has started.
structure Cluster.Starts (s : Cluster n C D) (p : Fin n) (nd : Node n C D)
    (sent : List (Message n C D)) (log : Backing (LogEntry C)) (g : Sender n C) : Prop where
  request : .request ⟨p, g.callee, (s.node p).incarnation, .appendEntries g.args⟩ ∈ sent
  sendTo  : nd.rf.sendTo g.callee = .ok (.appendEntries g.args)
  encoded : g.encoded = []
  entries : g.entries =
    log.slice (g.args.prevLogIndex + 1 - nd.rf.snapshotLastIndex) g.args.entries.length

theorem Message.appendEntries?_eq {m : Message n C D} {q : Fin n} {args : AppendEntriesArgs n C}
    (h : m.appendEntries? = some (q, args)) :
    ∃ p k, m = .request ⟨p, q, k, .appendEntries args⟩ := by
  unfold appendEntries? at h
  split at h <;> cases h
  exact ⟨_, _, rfl⟩

theorem Process.mem_next_senders {s : Cluster n C D} {p : Fin n} {nd : Node n C D}
    {sent : List (Message n C D)} {ps : Process n C} {g : Sender n C} (hc : s.Calls p nd sent)
    (hg : g ∈ (ps.next growth (s.node p) nd sent).senders) :
    nd.incarnation = (s.node p).incarnation ∧
    (g ∈ ps.senders ∨ s.Starts p nd sent (ps.write growth (s.node p).rf nd.rf).log g) := by
  unfold next at hg
  split at hg
  case isFalse => cases hg
  case isTrue hi =>
    refine ⟨hi, (List.mem_append.mp hg).imp_right fun hg => ?_⟩
    obtain ⟨x, hx, he⟩ := List.mem_map.mp hg
    obtain ⟨m, hm, hx⟩ := List.mem_filterMap.mp hx
    obtain ⟨c, k, hx⟩ := Message.appendEntries?_eq hx
    subst he hx
    obtain ⟨hcaller, hk, hsend⟩ := hc _ hm
    obtain rfl : c = p := hcaller
    obtain rfl : k = (s.node c).incarnation := hk
    exact ⟨hm, hsend _ rfl hi, rfl, rfl⟩

-- The request of the goroutine has been sent with the entries that it has had at the `go`
-- statement.
structure Sender.Copied (g : Sender n C) (a : Cluster n C D) (p : Fin n) : Prop where
  request : .request ⟨p, g.callee, (a.node p).incarnation, .appendEntries g.args⟩ ∈ a.network
  encoded : g.encoded <+: g.args.entries
  length  : g.entries.length = g.args.entries.length

namespace LiveCluster

variable {s s' : LiveCluster n C D} {a : Cluster n C D}

theorem become_update (s : LiveCluster n C D) (p : Fin n) (nd : Node n C D)
    (sent : List (Message n C D)) :
    s.become growth p (s.toCluster.update p nd sent) =
      ⟨⟨Function.update s.node p nd, s.network ++ sent.filter fun m =>
          nd.incarnation ≠ (s.node p).incarnation ∨ m.appendEntries?.isNone⟩,
        Function.update s.process p ((s.process p).next growth (s.node p) nd sent)⟩ := by
  simp only [become, Cluster.update, Function.update_self, List.drop_left]

-- The goroutine about to encode an entry finds that its cell has been written since the `go`
-- statement.
def Overwritten (s : LiveCluster n C D) : LiveEvent n C D → Prop
  | .act _      => False
  | .encode p k => ∃ g, (s.process p).senders[k]? = some g ∧
    (s.process p).log.read g.entries g.encoded.length ≠ g.args.entries[g.encoded.length]?

-- The cluster `a` has sent all requests at their `go` statements.
structure Copies (s : LiveCluster n C D) (a : Cluster n C D) : Prop where
  node    : s.node = a.node
  network : ∀ m ∈ s.network, m ∈ a.network
  sender  : ∀ p, ∀ g ∈ (s.process p).senders, g.Copied a p

namespace Copies

theorem update (h : s.Copies a) {p : Fin n} {nd : Node n C D} {sent : List (Message n C D)}
    (hc : s.toCluster.Calls p nd sent) :
    (s.become growth p (s.toCluster.update p nd sent)).Copies (a.update p nd sent) := by
  have old {q g} (hg : g ∈ (s.process q).senders)
      (hi : ((a.update p nd sent).node q).incarnation = (a.node q).incarnation) :
      g.Copied (a.update p nd sent) q :=
    { h.sender q g hg with
      request := hi ▸ Cluster.mem_update_network.mpr (.inl (h.sender q g hg).request) }
  rw [become_update]
  refine { node := by rw [h.node]; rfl, network m hm := ?network, sender q g hg := ?sender }
  case network =>
    refine Cluster.mem_update_network.mpr <| (List.mem_append.mp hm).imp (h.network m) fun hm => ?_
    exact (List.mem_filter.mp hm).left
  case sender =>
    by_cases hq : q = p
    case neg =>
      simp only [Function.update_of_ne hq] at hg
      exact old hg (by rw [Cluster.update_node_ne hq])
    case pos =>
      subst hq
      simp only [Function.update_self] at hg
      obtain ⟨hi, hg⟩ := Process.mem_next_senders hc hg
      rw [h.node] at hi
      cases hg
      case inl hg => exact old hg (by rw [Cluster.update_node_self, hi])
      case inr hg =>
        have hm := hg.request
        rw [h.node, ←hi] at hm
        exact {
          request := by
            rw [Cluster.update_node_self]
            exact Cluster.mem_update_network.mpr (.inr hm)
          encoded := hg.encoded ▸ List.nil_prefix
          length  := by rw [hg.entries]; rfl }

theorem encode (h : s.Copies a) {p : Fin n} {k : Nat} (hs : s.encode p k = some s')
    (ho : ¬s.Overwritten (.encode p k)) : s'.Copies a := by
  obtain ⟨g, hg, hs⟩ := Option.bind_eq_some_iff.mp hs
  have hcopied := h.sender p g (List.mem_of_getElem? hg)
  split at hs
  case isFalse hlt =>
    cases hs
    have he := hcopied.encoded.eq_of_length_le (by rw [←hcopied.length]; omega)
    refine { h with network := fun m hm => ?_ }
    cases List.mem_append.mp hm
    case inl hm => exact h.network m hm
    case inr hm =>
      rw [List.mem_singleton.mp hm, he, h.node]
      exact hcopied.request
  case isTrue =>
    obtain ⟨entry, he, hs⟩ := Option.map_eq_some_iff.mp hs
    subst hs
    have hread : some entry = g.args.entries[g.encoded.length]? := by
      rw [←he]
      by_contra hc
      exact ho ⟨g, hg, hc⟩
    refine { h with sender := fun q g' hg' => ?_ }
    by_cases hq : q = p
    case neg =>
      simp only [Function.update_of_ne hq] at hg'
      exact h.sender q g' hg'
    case pos =>
      subst hq
      simp only [Function.update_self, Process.progress] at hg'
      cases List.mem_or_eq_of_mem_set hg'
      case inl hg' => exact h.sender q g' hg'
      case inr hg' =>
        subst hg'
        obtain ⟨hlt, hx⟩ := List.getElem?_eq_some_iff.mp hread.symm
        exact { hcopied with encoded := hx ▸ List.concat_get_prefix hcopied.encoded hlt }

variable [DecidableEq C] [DecidableEq D]

theorem act (h : s.Copies a) {event : Event n C D} (hs : s.next growth (.act event) = some s') :
    ∃ a', a.next event = some a' ∧ s'.Copies a' := by
  obtain ⟨t, ht, he⟩ := Option.map_eq_some_iff.mp hs
  obtain ⟨nd, sent, hu, hc, hx⟩ := Cluster.next_acts ht
  subst he hu
  refine ⟨a.update event.actor nd sent, ?_, h.update hc⟩
  have hn := hx a.network h.network
  rwa [h.node] at hn

end Copies
end LiveCluster

theorem LiveExecution.exists_copy [DecidableEq C] [DecidableEq D] (e : LiveExecution growth n C D)
    (ho : e.Avoids LiveCluster.Overwritten) :
    ∃ b : Execution n C D, (∀ i, (e.state i).Copies (b.state i)) ∧
      ∀ i a, b.label i = some a → e.label i = some (.act a) := by
  obtain ⟨b, hb, hl⟩ := e.exists_related (R := LiveCluster.Copies) (M := fun a a' => a = .act a')
    (T := raft n C D) ⟨rfl, nofun, fun _ => nofun⟩ fun i a s' t ha hs h => by
      cases a
      case act event =>
        obtain ⟨t', ht, h⟩ := h.act hs
        exact .inr ⟨event, t', rfl, ht, h⟩
      case encode p k => exact .inl <| h.encode hs (ho i _ ha)
  refine ⟨b, hb, fun i a ha => ?_⟩
  obtain ⟨_, hx, he⟩ := hl i a ha
  exact he ▸ hx

-- As long as a server only ever adds to its log, its goroutines find the entries that they have
-- been passed.

-- The log of the server is in its array, and so are the entries of its goroutines.
structure Process.Intact (ps : Process n C) (log : List (LogEntry C)) : Prop where
  holds : ps.log.Holds log
  keeps : ∀ g ∈ ps.senders, ps.log.Keeps log g.entries g.args.entries

namespace Process.Intact

variable {ps : Process n C} {rf rf' : Raft n C D}

theorem boot (rf : Raft n C D) : (Process.boot growth rf).Intact rf.log where
  holds := List.prefix_rfl
  keeps := nofun

theorem write (growth : Nat → Nat → Nat) (h : ps.Intact rf.log)
    (hl : rf'.snapshotLastIndex = rf.snapshotLastIndex → rf.log <+: rf'.log) :
    (ps.write growth rf rf').Intact rf'.log := by
  unfold Process.write
  split
  case isTrue hb =>
    exact ⟨Backing.holds_store .., fun g hg => (h.keeps g hg).store growth h.holds (hl hb)⟩
  case isFalse => exact ⟨List.prefix_rfl, fun g hg => (h.keeps g hg).move ..⟩

theorem next {s : Cluster n C D} {p : Fin n} {nd : Node n C D} {sent : List (Message n C D)}
    (h : ps.Intact (s.node p).rf.log) (hc : s.Calls p nd sent)
    (hl : nd.incarnation = (s.node p).incarnation →
      nd.rf.snapshotLastIndex = (s.node p).rf.snapshotLastIndex → (s.node p).rf.log <+: nd.rf.log) :
    (ps.next growth (s.node p) nd sent).Intact nd.rf.log := by
  by_cases hi : nd.incarnation = (s.node p).incarnation
  case neg =>
    rw [Process.next, if_neg hi]
    exact .boot nd.rf
  case pos =>
    have hw := h.write growth (hl hi)
    have hlog : (ps.next growth (s.node p) nd sent).log =
        (ps.write growth (s.node p).rf nd.rf).log := by
      rw [Process.next, if_pos hi]
      rfl
    refine { holds := hlog ▸ hw.holds, keeps := fun g hg => ?_ }
    rw [hlog]
    cases (mem_next_senders hc hg).right
    case inl hg => exact hw.keeps g hg
    case inr hg =>
      obtain ⟨hle, he⟩ := Raft.sendTo_entries hg.sendTo
      rw [hg.entries, he]
      exact hw.holds.keeps_slice hle

theorem progress {log : List (LogEntry C)} (h : ps.Intact log) {k : Nat} {g : Sender n C}
    (hg : ps.senders[k]? = some g) (entry : LogEntry C) : (ps.progress k g entry).Intact log := by
  refine { h with keeps := fun g' hg' => ?_ }
  cases List.mem_or_eq_of_mem_set hg'
  case inl hg' => exact h.keeps g' hg'
  case inr hg' => exact hg' ▸ h.keeps g (List.mem_of_getElem? hg)

end Process.Intact

namespace LiveCluster

variable {s s' : LiveCluster n C D}

def Intact (s : LiveCluster n C D) : Prop :=
  ∀ p, (s.process p).Intact (s.node p).rf.log

theorem Intact.not_overwritten (h : s.Intact) (a : LiveEvent n C D) : ¬s.Overwritten a := by
  cases a
  case act        => exact id
  case encode p k =>
    rintro ⟨g, hg, hne⟩
    exact hne <| ((h p).keeps g (List.mem_of_getElem? hg)).read _

theorem Intact.update (h : s.Intact) (p : Fin n) (network : List (Message n C D)) {nd : Node n C D}
    {ps : Process n C} (hp : ps.Intact nd.rf.log) :
    Intact ⟨⟨Function.update s.node p nd, network⟩, Function.update s.process p ps⟩ := by
  intro q
  by_cases hq : q = p
  case neg =>
    simp only [Function.update_of_ne hq]
    exact h q
  case pos =>
    subst hq
    simp only [Function.update_self]
    exact hp

variable [DecidableEq C] [DecidableEq D]

-- A server gives up entries of its log, though not for a snapshot.
def Truncates (s : LiveCluster n C D) : LiveEvent n C D → Prop
  | .encode _ _ => False
  | .act event  => ∃ t, s.toCluster.next event = some t ∧
    (t.node event.actor).incarnation = (s.node event.actor).incarnation ∧
    (t.node event.actor).rf.snapshotLastIndex = (s.node event.actor).rf.snapshotLastIndex ∧
    ¬(s.node event.actor).rf.log <+: (t.node event.actor).rf.log

theorem Intact.next {a : LiveEvent n C D} (h : s.Intact) (hs : s.next growth a = some s')
    (ht : ¬s.Truncates a) : s'.Intact := by
  cases a
  case act event =>
    obtain ⟨t, hx, he⟩ := Option.map_eq_some_iff.mp hs
    have hcut := fun h₁ h₂ => Decidable.not_not.mp fun h₃ => ht ⟨t, hx, h₁, h₂, h₃⟩
    obtain ⟨nd, sent, hu, hc, _⟩ := Cluster.next_acts hx
    subst he hu
    rw [Cluster.update_node_self] at hcut
    rw [become_update]
    exact h.update _ _ <| (h event.actor).next hc hcut
  case encode p k =>
    obtain ⟨g, hg, hs⟩ := Option.bind_eq_some_iff.mp hs
    split at hs
    case isFalse => cases hs; exact h
    case isTrue =>
      obtain ⟨entry, _, hs⟩ := Option.map_eq_some_iff.mp hs
      subst hs
      have hu := h.update p s.network ((h p).progress hg entry)
      rwa [Function.update_eq_self] at hu

end LiveCluster

namespace LiveExecution

variable [DecidableEq C] [DecidableEq D] {e : LiveExecution growth n C D}

theorem not_overwritten (ht : e.Avoids LiveCluster.Truncates) :
    e.Avoids LiveCluster.Overwritten := by
  have h := e.invariant (I := LiveCluster.Intact) (fun _ => .boot _) fun i a s' ha hs h =>
    h.next hs (ht i a ha)
  exact fun i a _ => (h i).not_overwritten a

end LiveExecution
