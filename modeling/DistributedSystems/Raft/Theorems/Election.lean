import DistributedSystems.Raft.Cluster
import DistributedSystems.Raft.Theorems.Quorum

variable {n : Nat} {C D : Type}

-- Restarting the node would give back everything that has to survive.
def Node.Saved (nd : Node n C D) : Prop :=
  (Raft.make nd.rf.me nd.persister).persist = nd.rf.persist

namespace Node

variable {nd : Node n C D} {rf : Raft n C D}

theorem saved_finish : (nd.finish rf).Saved :=
  rfl

theorem saved_boot {me : Fin n} {persister : Persister n C D} {k : Nat} :
    (boot me persister k).Saved := by
  cases persister with | mk raftstate _ => cases raftstate <;> rfl

theorem boot_me {me : Fin n} {persister : Persister n C D} {k : Nat} :
    (boot me persister k).rf.me = me := by
  cases persister with | mk raftstate _ => cases raftstate <;> rfl

theorem boot_majorityThreshold {me : Fin n} {persister : Persister n C D} {k : Nat} :
    (boot me persister k).rf.majorityThreshold = (n + 1) / 2 :=
  Raft.make_majorityThreshold me persister

theorem boot_state {me : Fin n} {persister : Persister n C D} {k : Nat} :
    (boot me persister k).rf.state = .unset := by
  cases persister with | mk raftstate _ => cases raftstate <;> rfl

end Node

theorem Raft.persist_vote {rf rf' : Raft n C D} (h : rf.persist = rf'.persist) :
    rf.currentTerm = rf'.currentTerm ∧ rf.votedFor = rf'.votedFor := by
  simp only [Raft.persist, Persister.mk.injEq, Option.some.injEq, RaftStateBytes.mk.injEq] at h
  exact ⟨h.left.left, h.left.right.left⟩

namespace Cluster

variable {s s' : Cluster n C D} {p q v c c' : Fin n} {t : Nat}

@[simp]
theorem update_node_self {nd msgs} : (s.update p nd msgs).node p = nd := by
  simp [update]

@[simp]
theorem update_node_ne {nd msgs} (h : q ≠ p) : (s.update p nd msgs).node q = s.node q := by
  simp [update, h]

@[simp]
theorem mem_update_network {nd msgs m} :
    m ∈ (s.update p nd msgs).network ↔ m ∈ s.network ∨ m ∈ msgs := by
  simp [update]

theorem update_self : s.update p (s.node p) [] = s := by
  simp only [update, Function.update_eq_self, List.append_nil]

theorem mem_calls {requests m} (h : m ∈ s.calls p requests) :
    ∃ q request, (q, request) ∈ requests ∧
      m = .request ⟨p, q, (s.node p).incarnation, request⟩ := by
  simp only [calls, List.mem_map] at h
  have ⟨⟨q, request⟩, h, hm⟩ := h
  exact ⟨q, request, h, hm.symm⟩

-- Server `c` has asked for votes in term `t`.
def Stood (s : Cluster n C D) (t : Nat) (c : Fin n) : Prop :=
  ∃ q k args, args.term = t ∧ .request ⟨c, q, k, .requestVote args⟩ ∈ s.network

-- The vote of `v` in term `t` has gone to `c`, be it by a reply or because `c` is `v` itself.
def Voted (s : Cluster n C D) (v : Fin n) (t : Nat) (c : Fin n) : Prop :=
  (v = c ∧ s.Stood t c) ∨
  (∃ k args r, args.term = t ∧ r.voteGranted = true ∧
    .reply ⟨c, v, k, .requestVote args⟩ (.requestVote r) ∈ s.network)

def Won (s : Cluster n C D) (t : Nat) (c : Fin n) : Prop :=
  ∃ Q : Finset (Fin n), (n + 1) / 2 ≤ Q.card ∧ ∀ v ∈ Q, s.Voted v t c

-- The vote is still on record, or its term is over.
def Backed (s : Cluster n C D) (v : Fin n) (t : Nat) (c : Fin n) : Prop :=
  t < (s.node v).rf.currentTerm ∨ (t = (s.node v).rf.currentTerm ∧ (s.node v).rf.votedFor = some c)

-- The election of the current term was started by this incarnation.
def Running (s : Cluster n C D) (p : Fin n) : Prop :=
  ∃ q args, args.term = (s.node p).rf.currentTerm ∧
    .request ⟨p, q, (s.node p).incarnation, .requestVote args⟩ ∈ s.network

theorem Stood.mono (h : s.Stood t c) (hn : ∀ m ∈ s.network, m ∈ s'.network) : s'.Stood t c :=
  have ⟨q, k, args, h, hm⟩ := h
  ⟨q, k, args, h, hn _ hm⟩

theorem Voted.mono (h : s.Voted v t c) (hn : ∀ m ∈ s.network, m ∈ s'.network) : s'.Voted v t c := by
  cases h
  case inl h => exact .inl ⟨h.left, h.right.mono hn⟩
  case inr h =>
    have ⟨k, args, r, ht, hg, hm⟩ := h
    exact .inr ⟨k, args, r, ht, hg, hn _ hm⟩

theorem Won.of_update {nd} (h : (s.update p nd []).Won t c) : s.Won t c := by
  have ⟨Q, hQ, hv⟩ := h
  refine ⟨Q, hQ, fun v h => (hv v h).mono fun m hm => ?_⟩
  exact (mem_update_network.mp hm).resolve_right List.not_mem_nil

theorem Won.mono (h : s.Won t c) (hn : ∀ m ∈ s.network, m ∈ s'.network) : s'.Won t c :=
  have ⟨Q, hQ, hv⟩ := h
  ⟨Q, hQ, fun v h => (hv v h).mono hn⟩

theorem Won.majority (h : s.Won t c) (hn : Odd n) :
    ∃ Q : Finset (Fin n), Majority Q ∧ ∀ v ∈ Q, s.Voted v t c := by
  have ⟨Q, hQ, hv⟩ := h
  have ⟨k, hk⟩ := hn
  refine ⟨Q, ?_, hv⟩
  simp only [Majority, Fintype.card_fin]
  omega

structure Elections (s : Cluster n C D) : Prop where
  me          : ∀ p, (s.node p).rf.me = p
  threshold   : ∀ p, (s.node p).rf.majorityThreshold = (n + 1) / 2
  saved       : ∀ p, (s.node p).Saved
  incarnation : ∀ call, .request call ∈ s.network →
    call.incarnation ≤ (s.node call.caller).incarnation
  candidate   : ∀ c q k args, .request ⟨c, q, k, .requestVote args⟩ ∈ s.network →
    args.candidateId = c
  requested   : ∀ call r, .reply call r ∈ s.network → .request call ∈ s.network
  backed      : ∀ v t c, s.Voted v t c → s.Backed v t c
  unique      : ∀ v t c c', s.Voted v t c → s.Voted v t c' → c = c'
  tally       : ∀ p, s.Running p → ∀ v, (s.node p).rf.votesReceived v = true →
    s.Voted v (s.node p).rf.currentTerm p
  leader      : ∀ p, (s.node p).rf.state = .leader → s.Won (s.node p).rf.currentTerm p

theorem Elections.won_unique (h : s.Elections) (hn : Odd n) (h₁ : s.Won t c) (h₂ : s.Won t c') :
    c = c' := by
  have ⟨Q₁, hQ₁, hv₁⟩ := h₁.majority hn
  have ⟨Q₂, hQ₂, hv₂⟩ := h₂.majority hn
  have ⟨v, h₁, h₂⟩ := hQ₁.inter hQ₂
  exact h.unique v t c c' (hv₁ v h₁) (hv₂ v h₂)

-- What a step of `p` can do to the votes of `p`.
structure Ballot (s : Cluster n C D) (p : Fin n) (nd : Node n C D) (msgs : List (Message n C D)) :
    Prop where
  me          : nd.rf.me = (s.node p).rf.me
  threshold   : nd.rf.majorityThreshold = (s.node p).rf.majorityThreshold
  saved       : nd.Saved
  incarnation : (s.node p).incarnation ≤ nd.incarnation
  vote        : (s.node p).rf.currentTerm < nd.rf.currentTerm ∨
    (nd.rf.currentTerm = (s.node p).rf.currentTerm ∧
      (nd.rf.votedFor = (s.node p).rf.votedFor ∨ (s.node p).rf.votedFor = none))
  request     : ∀ call, .request call ∈ msgs →
    call.caller = p ∧ call.incarnation = (s.node p).incarnation ∧
    ∀ args, call.request = .requestVote args →
      args.candidateId = p ∧ args.term = nd.rf.currentTerm ∧ nd.rf.votedFor = some p
  reply       : ∀ call r, .reply call r ∈ msgs →
    .request call ∈ s.network ∧
    ∀ args r', call.request = .requestVote args → r = .requestVote r' → r'.voteGranted = true →
      call.callee = p ∧ args.term = nd.rf.currentTerm ∧ nd.rf.votedFor = some call.caller

namespace Ballot

variable {nd : Node n C D} {msgs : List (Message n C D)}

theorem network_subset : ∀ m ∈ s.network, m ∈ (s.update p nd msgs).network := by
  simp +contextual

theorem voted (h : s.Ballot p nd msgs) (hv : (s.update p nd msgs).Voted v t c) :
    s.Voted v t c ∨ (v = p ∧ t = nd.rf.currentTerm ∧ nd.rf.votedFor = some c) := by
  cases hv
  case inl hv =>
    have ⟨hc, q, k, args, ht, hm⟩ := hv
    cases mem_update_network.mp hm
    case inl hm => exact .inl <| .inl ⟨hc, q, k, args, ht, hm⟩
    case inr hm =>
      have ⟨h₁, _, h₂⟩ := h.request _ hm
      have ⟨_, h₃, h₄⟩ := h₂ args rfl
      exact .inr ⟨hc.trans h₁, ht ▸ h₃, h₄.trans (congrArg some h₁.symm)⟩
  case inr hv =>
    have ⟨k, args, r, ht, hg, hm⟩ := hv
    cases mem_update_network.mp hm
    case inl hm => exact .inl <| .inr ⟨k, args, r, ht, hg, hm⟩
    case inr hm =>
      have ⟨h₁, h₂, h₃⟩ := (h.reply _ _ hm).right args r rfl rfl hg
      exact .inr ⟨h₁, ht ▸ h₂, h₃⟩

theorem backed (h : s.Ballot p nd msgs) (hb : s.Backed v t c) :
    (s.update p nd msgs).Backed v t c := by
  by_cases hv : v = p
  case neg => simpa [Backed, hv] using hb
  case pos =>
    subst hv
    simp only [Backed, update_node_self]
    cases h.vote
    case inl h =>
      cases hb
      case inl hb => exact .inl <| hb.trans h
      case inr hb => exact .inl <| hb.left ▸ h
    case inr h =>
      refine hb.imp (h.left ▸ ·) fun hb => ⟨hb.left.trans h.left.symm, ?_⟩
      cases h.right
      case inl h => exact h.trans hb.right
      case inr h => cases h.symm.trans hb.right

-- Votes are only ever added while they are on record, so two votes of one server in one term are
-- either both old or both the vote that is on record now.
theorem elections (h : s.Ballot p nd msgs) (he : s.Elections)
    (tally : (s.update p nd msgs).Running p → ∀ v, nd.rf.votesReceived v = true →
      (s.update p nd msgs).Voted v nd.rf.currentTerm p)
    (leader : nd.rf.state = .leader → (s.update p nd msgs).Won nd.rf.currentTerm p) :
    (s.update p nd msgs).Elections := by
  have hb {v t c} (hv : (s.update p nd msgs).Voted v t c) : (s.update p nd msgs).Backed v t c := by
    cases h.voted hv
    case inl hv => exact h.backed <| he.backed v t c hv
    case inr hv =>
      obtain ⟨rfl, rfl, hc⟩ := hv
      exact .inr <| by simp [hc]
  have now {t c c'} (ht : t = nd.rf.currentTerm) (hc : nd.rf.votedFor = some c)
      (hv : (s.update p nd msgs).Voted p t c') : c = c' := by
    cases hb hv
    case inl hv => simp [ht] at hv
    case inr hv => simpa [hc] using hv.right
  refine {
    backed _ _ _ := hb
    me q := ?me, threshold q := ?threshold, saved q := ?saved, incarnation call hm := ?incarnation
    candidate c q k args hm := ?candidate, requested call r hm := ?requested
    unique v t c c' h₁ h₂ := ?unique, tally q hr v hv := ?tally, leader q hl := ?leader }
  case me | threshold | saved =>
    by_cases hq : q = p
    case neg => simp [hq, he.me, he.threshold, he.saved]
    case pos => subst hq; simp [h.me, h.threshold, h.saved, he.me, he.threshold]
  case incarnation =>
    have hi := h.incarnation
    cases mem_update_network.mp hm
    case inl hm =>
      have := he.incarnation call hm
      by_cases hq : call.caller = p
      case neg => simpa [hq] using this
      case pos => rw [hq] at this ⊢; simp only [update_node_self]; omega
    case inr hm =>
      have ⟨h₁, h₂, _⟩ := h.request call hm
      simpa [h₁, h₂] using hi
  case candidate =>
    cases mem_update_network.mp hm
    case inl hm => exact he.candidate c q k args hm
    case inr hm =>
      have ⟨h₁, _, h₂⟩ := h.request _ hm
      exact (h₂ args rfl).left.trans h₁.symm
  case requested =>
    refine network_subset _ ?_
    cases mem_update_network.mp hm
    case inl hm => exact he.requested call r hm
    case inr hm => exact (h.reply call r hm).left
  case unique =>
    cases h.voted h₁
    case inr hv =>
      obtain ⟨rfl, ht, hc⟩ := hv
      exact now ht hc h₂
    case inl hv₁ =>
      cases h.voted h₂
      case inl hv₂ => exact he.unique v t c c' hv₁ hv₂
      case inr hv =>
        obtain ⟨rfl, ht, hc⟩ := hv
        exact (now ht hc h₁).symm
  case tally =>
    by_cases hq : q = p
    case pos => subst hq; simp only [update_node_self] at hv ⊢; exact tally hr v hv
    case neg =>
      have ⟨x, args, ht, hm⟩ := hr
      simp only [update_node_ne hq] at ht hm hv ⊢
      have hm := (mem_update_network.mp hm).resolve_right fun hm => hq (h.request _ hm).left
      exact (he.tally q ⟨x, args, ht, hm⟩ v hv).mono network_subset
  case leader =>
    by_cases hq : q = p
    case pos => subst hq; simp only [update_node_self] at hl ⊢; exact leader hl
    case neg => simp only [update_node_ne hq] at hl ⊢; exact (he.leader q hl).mono network_subset

end Ballot

-- A step that neither starts an election nor counts a vote.
structure Quiet (s : Cluster n C D) (p : Fin n) (nd : Node n C D) (msgs : List (Message n C D)) :
    Prop extends s.Ballot p nd msgs where
  silent   : ∀ call, .request call ∈ msgs → ∀ args, call.request ≠ .requestVote args
  leader   : nd.rf.state = .leader →
    (s.node p).rf.state = .leader ∧ nd.rf.currentTerm = (s.node p).rf.currentTerm
  received : (s.node p).incarnation < nd.incarnation ∨
    (nd.incarnation = (s.node p).incarnation ∧ nd.rf.votesReceived = (s.node p).rf.votesReceived)

namespace Quiet

variable {nd : Node n C D} {msgs : List (Message n C D)}

theorem running (h : s.Quiet p nd msgs) (he : s.Elections) (hr : (s.update p nd msgs).Running p) :
    nd.rf.votesReceived = (s.node p).rf.votesReceived ∧
    nd.rf.currentTerm = (s.node p).rf.currentTerm ∧ s.Running p := by
  have ⟨q, args, ht, hm⟩ := hr
  have hm := (mem_update_network.mp hm).resolve_right fun hm => h.silent _ hm args rfl
  simp only [update_node_self] at ht hm
  have hi := he.incarnation _ hm
  cases h.received
  case inl hc => simp only at hi; omega
  case inr hc =>
    -- The request shows that the term has not changed since the election started.
    have hb := he.backed p args.term p <| .inl ⟨rfl, q, nd.incarnation, args, rfl, hm⟩
    have hx : nd.rf.currentTerm = (s.node p).rf.currentTerm := by
      have := h.vote
      simp only [Backed, ht] at hb
      omega
    exact ⟨hc.right, hx, q, args, ht.trans hx, hc.left ▸ hm⟩

theorem elections (h : s.Quiet p nd msgs) (he : s.Elections) : (s.update p nd msgs).Elections := by
  apply h.toBallot.elections he
  case tally =>
    intro hr v hv
    have ⟨h₁, h₂, h₃⟩ := h.running he hr
    rw [h₂]
    exact (he.tally p h₃ v (h₁ ▸ hv)).mono Ballot.network_subset
  case leader =>
    intro hl
    have ⟨h₁, h₂⟩ := h.leader hl
    rw [h₂]
    exact (he.leader p h₁).mono Ballot.network_subset

theorem of_keeps (k : (s.node p).rf.Keeps nd.rf) (hi : nd.incarnation = (s.node p).incarnation)
    (hn : nd.Saved)
    (hr : ∀ call, .request call ∈ msgs → call.caller = p ∧
      call.incarnation = (s.node p).incarnation ∧ ∀ args, call.request ≠ .requestVote args)
    (hp : ∀ call r, .reply call r ∈ msgs → .request call ∈ s.network ∧
      ∀ args r', call.request = .requestVote args → r = .requestVote r' → r'.voteGranted = false) :
    s.Quiet p nd msgs where
  me             := k.me
  threshold      := k.majorityThreshold
  saved          := hn
  incarnation    := hi.ge
  vote           := k.vote.imp_right (.imp_right .inl)
  request call h := ⟨(hr call h).left, (hr call h).right.left, fun args hc =>
    absurd hc <| (hr call h).right.right args⟩
  reply call r h := ⟨(hp call r h).left, fun args r' h₁ h₂ h₃ => by
    cases ((hp call r h).right args r' h₁ h₂).symm.trans h₃⟩
  silent call h  := (hr call h).right.right
  leader         := k.leader
  received       := .inr ⟨hi, k.votesReceived⟩

theorem of_finish {rf : Raft n C D} (k : (s.node p).rf.Keeps rf)
    (hr : ∀ call, .request call ∈ msgs → call.caller = p ∧
      call.incarnation = (s.node p).incarnation ∧ ∀ args, call.request ≠ .requestVote args)
    (hp : ∀ call r, .reply call r ∈ msgs → .request call ∈ s.network ∧
      ∀ args r', call.request = .requestVote args → r = .requestVote r' → r'.voteGranted = false) :
    s.Quiet p ((s.node p).finish rf) msgs :=
  of_keeps k rfl Node.saved_finish hr hp

theorem of_restart {persister : Persister n C D} {requests : List (Fin n × Request n C D)}
    (he : s.Elections)
    (hv : (s.node p).rf.currentTerm < (Raft.make p persister).currentTerm ∨
      ((Raft.make p persister).currentTerm = (s.node p).rf.currentTerm ∧
        (Raft.make p persister).votedFor = (s.node p).rf.votedFor))
    (hs : ∀ q args, (q, .requestVote args) ∉ requests) :
    s.Quiet p ((s.node p).restart persister) (s.calls p requests) := by
  have hr {call : Call n C D} (h : .request call ∈ s.calls p requests) : call.caller = p ∧
      call.incarnation = (s.node p).incarnation ∧ ∀ args, call.request ≠ .requestVote args := by
    have ⟨q, request, hm, hc⟩ := mem_calls h
    cases hc
    exact ⟨rfl, rfl, fun args hc => hs q args (hc ▸ hm)⟩
  refine {
    me := Node.boot_me, threshold := Node.boot_majorityThreshold.trans (he.threshold p).symm
    saved := Node.saved_boot, incarnation := Nat.le_succ _
    vote := ?vote
    request := fun call h => ⟨(hr h).left, (hr h).right.left, fun args hc =>
      absurd hc <| (hr h).right.right args⟩
    reply := fun call r h => ?reply
    silent := fun call h => (hr h).right.right
    leader := fun h => ?leader
    received := .inl <| Nat.lt_succ_self _ }
  case vote =>
    simp only [Node.restart, Node.boot, he.me]
    exact hv.imp_right (.imp_right .inl)
  case reply =>
    have ⟨_, _, _, h⟩ := mem_calls h
    cases h
  case leader =>
    rw [Node.restart, Node.boot_state] at h
    cases h

theorem of_crash {c : Crash n C D} (he : s.Elections)
    (hv : (s.node p).rf.currentTerm < c.rf.currentTerm ∨
      (c.rf.currentTerm = (s.node p).rf.currentTerm ∧ c.rf.votedFor = (s.node p).rf.votedFor))
    (hs : ∀ q args, (q, .requestVote args) ∉ c.sent) :
    s.Quiet p ((s.node p).restart c.rf.persist) (s.calls p c.sent) :=
  of_restart he hv hs

theorem of_saved {requests : List (Fin n × Request n C D)} (he : s.Elections)
    (hs : ∀ q args, (q, .requestVote args) ∉ requests) :
    s.Quiet p ((s.node p).restart (s.node p).persister) (s.calls p requests) := by
  apply of_restart he (.inr <| Raft.persist_vote ?_) hs
  have h := he.saved p
  rwa [Node.Saved, he.me] at h

end Quiet

theorem crash_elections {c : Crash n C D} (he : s.Elections)
    (h : (s.node p).rf.Keeps c.rf ∧ ∀ q args, (q, .requestVote args) ∉ c.sent) :
    (s.crash p c).Elections :=
  (Quiet.of_crash he h.left.vote h.right).elections he

theorem keeps_elections {nd : Node n C D} (he : s.Elections) (hk : (s.node p).rf.Keeps nd.rf)
    (hi : nd.incarnation = (s.node p).incarnation) (hs : nd.Saved) : (s.update p nd []).Elections :=
  (Quiet.of_keeps hk hi hs (by simp) (by simp)).elections he

theorem finish_elections {rf : Raft n C D} (he : s.Elections) (hk : (s.node p).rf.Keeps rf) :
    (s.update p ((s.node p).finish rf) []).Elections :=
  keeps_elections he hk rfl Node.saved_finish

-- One lemma for each action

theorem startElection_elections (he : s.Elections) : (s.startElection p).Elections := by
  unfold Cluster.startElection
  cases hx : (s.node p).rf.startElection
  case error c =>
    have ⟨ht, hs, _⟩ := Raft.startElection_error hx
    exact (Quiet.of_crash he (.inl <| by omega) (by simp [hs])).elections he
  case ok r =>
    have ⟨rf, requests⟩ := r
    have ⟨hrf, e, _, hr⟩ := Raft.startElection_ok hx
    have hb : s.Ballot p ((s.node p).finish rf) (s.calls p requests) := by
      refine {
        me := hrf ▸ rfl, threshold := hrf ▸ rfl
        saved := Node.saved_finish, incarnation := le_rfl
        vote := .inl <| hrf ▸ Nat.lt_succ_self _
        request := fun call h => ?_, reply := fun call r h => ?_ }
      all_goals have ⟨q, request, hm, hc⟩ := mem_calls h; cases hc
      refine ⟨rfl, rfl, fun args ha => ?_⟩
      cases ha
      cases hr q _ hm
      rw [hrf]
      exact ⟨he.me p, rfl, congrArg some (he.me p)⟩
    apply hb.elections he
    case leader => rw [hrf]; exact nofun
    case tally =>
      -- The only vote so far is the one of the candidate itself.
      intro ⟨q, args, ht, hm⟩ v hv
      have hv : v = p := by
        simpa [Node.finish, hrf, Raft.candidacy, Function.update_apply, he.me] using hv
      simp only [update_node_self] at ht
      exact .inl ⟨hv, q, _, args, ht, hm⟩

theorem serve_requestVote_elections {args} {call : Call n C D} (he : s.Elections)
    (hm : .request call ∈ s.network) (ha : call.request = .requestVote args) :
    (s.serve call).Elections := by
  simp only [Cluster.serve, ha, Raft.serve]
  have hc : args.candidateId = call.caller := by
    cases call with | mk c q k request => cases ha; exact he.candidate _ _ _ _ hm
  cases hx : (s.node call.callee).rf.requestVote args
  case error c =>
    rw [(Raft.logAt_error (Raft.requestVote_error hx)).left]
    exact (Quiet.of_crash he (Raft.Keeps.observe _ _).vote (by simp)).elections he
  case ok r =>
    have ⟨rf, reply⟩ := r
    have ⟨_, h⟩ := Raft.requestVote_ok hx
    have hk := Raft.Keeps.observe (s.node call.callee).rf args.term
    refine Quiet.elections ?_ he
    cases h
    case inr h =>
      have hk : (s.node call.callee).rf.Keeps rf := by
        cases h.right
        case inl h => exact h.right ▸ .refl _
        case inr h => exact h.right ▸ hk
      apply Quiet.of_finish hk (by simp)
      intro call' r hr
      cases List.mem_singleton.mp hr
      exact ⟨hm, fun _ _ _ hr => by cases hr; exact h.left⟩
    case inl h =>
      have ⟨_, ht, hf, _, hrf⟩ := h
      refine {
        me := ?me, threshold := ?threshold, saved := Node.saved_finish, incarnation :=
          le_rfl, vote := ?vote
        request := by simp, silent := by simp
        reply := fun call' r hr => ?reply, leader := ?leader, received := .inr ⟨rfl, ?received⟩ }
      all_goals simp only [id, Node.finish, hrf]
      case me => exact hk.me
      case threshold => exact hk.majorityThreshold
      case vote =>
        refine hk.vote.imp_right fun h => ⟨h.left, ?_⟩
        rw [h.right] at hf
        exact hf.symm.imp_left Eq.symm
      case reply =>
        cases List.mem_singleton.mp hr
        refine ⟨hm, fun args' _ ha' _ _ => ?_⟩
        cases ha.symm.trans ha'
        exact ⟨rfl, (Raft.observe_currentTerm ht).symm, congrArg some hc⟩
      case leader => exact hk.leader
      case received => exact hk.votesReceived

theorem serve_elections {call : Call n C D} (he : s.Elections) (hm : .request call ∈ s.network) :
    (s.serve call).Elections := by
  cases ha : call.request
  case requestVote => exact serve_requestVote_elections he hm ha
  case appendEntries args =>
    simp only [Cluster.serve, ha, Raft.serve]
    have h := (s.node call.callee).rf.appendEntries_keeps args
    cases hx : (s.node call.callee).rf.appendEntries args <;> rw [hx] at h
    case error c => exact (Quiet.of_crash he h.left.vote h.right).elections he
    case ok r    => exact (Quiet.of_finish h (by simp) (by simp +contextual [hm, ha])).elections he
  case installSnapshot args =>
    simp only [Cluster.serve, ha, Raft.serve]
    have ⟨_, hx, _⟩ := (s.node call.callee).rf.installSnapshot_ok args
    have hk := Raft.installSnapshot_keeps hx
    rw [hx]
    exact (Quiet.of_finish hk (by simp) (by simp +contextual [hm, ha])).elections he

theorem Won.of_countVotes {rf : Raft n C D} (hv : ∀ v, rf.votesReceived v = true → s.Voted v t c)
    (h : (n + 1) / 2 ≤ rf.countVotes) : s.Won t c :=
  ⟨Finset.univ.filter (rf.votesReceived · = true), rf.countVotes_eq ▸ h, by simpa using hv⟩

theorem returned_requestVote_elections {args r k} (he : s.Elections)
    (hm : .reply ⟨p, q, k, .requestVote args⟩ (.requestVote r) ∈ s.network)
    (hk : k = (s.node p).incarnation) :
    (s.update p ((s.node p).finish ((s.node p).rf.sendRequestVote q args.term r))
      []).Elections := by
  obtain h | h | h := (s.node p).rf.sendRequestVote_cases q args.term r
  case inl => exact h.right ▸ finish_elections he (.becomeFollower h.left)
  case inr.inl => exact h.symm ▸ finish_elections he (.refl _)
  case inr.inr =>
    have ⟨ht, hg, hl, h⟩ := h
    have hr := hk ▸ he.requested _ _ hm
    have hv (v) (hv : ((s.node p).rf.receiveVote q).votesReceived v = true) :
        s.Voted v (s.node p).rf.currentTerm p := by
      simp only [Raft.receiveVote, Function.update_apply] at hv
      split at hv
      case isTrue hq  => exact .inr ⟨k, args, r, ht.symm, hg, hq ▸ hm⟩
      case isFalse hq => exact he.tally p ⟨q, args, ht.symm, hr⟩ v hv
    cases h
    case inl h =>
      rw [h]
      have hb : s.Ballot p ((s.node p).finish ((s.node p).rf.receiveVote q)) [] := {
        me := rfl, threshold := rfl, saved := Node.saved_finish, incarnation := le_rfl
        vote := .inr ⟨rfl, .inl rfl⟩, request := by simp, reply := by simp }
      exact hb.elections he (fun _ v h => (hv v h).mono Ballot.network_subset) (absurd · hl)
    case inr h =>
      rw [h.right]
      have hb : s.Ballot p ((s.node p).finish ((s.node p).rf.receiveVote q).becomeLeader) [] := {
        me := rfl, threshold := rfl, saved := Node.saved_finish, incarnation := le_rfl
        vote := .inr ⟨rfl, .inl rfl⟩, request := by simp, reply := by simp }
      apply hb.elections he fun _ v h => (hv v h).mono Ballot.network_subset
      exact fun _ => (Won.of_countVotes hv (he.threshold p ▸ h.left)).mono Ballot.network_subset

theorem returned_elections {call : Call n C D} {r} (he : s.Elections)
    (hm : .reply call r ∈ s.network) (h : s.returned call r = some s') : s'.Elections := by
  obtain ⟨p, q, k, request⟩ := call
  simp only [Cluster.returned] at h
  split at h
  case isTrue => cases h
  case isFalse hk =>
    have ⟨x, hx, h⟩ := Option.map_eq_some_iff.mp h
    subst h
    match request, r with
    | .requestVote args, .requestVote r =>
      cases hx
      exact returned_requestVote_elections he hm (not_not.mp hk)
    | .appendEntries args, .appendEntries r =>
      have hk := ((s.node p).rf.sendEntries_ends q args r).imp fun _ => Raft.Answered.keeps
      cases hx
      cases hx : (s.node p).rf.sendEntries q args r <;> rw [hx] at hk
      case error => exact crash_elections he hk
      case ok    => exact finish_elections he hk
    | .installSnapshot args, .installSnapshot r =>
      have hk := ((s.node p).rf.sendInstallSnapshot_ends q args r).imp fun _ => Raft.Answered.keeps
      cases hx
      cases hx : (s.node p).rf.sendInstallSnapshot q args r <;> rw [hx] at hk
      case error => exact crash_elections he hk
      case ok    => exact finish_elections he hk

theorem start_elections {command : C} (he : s.Elections) : (s.start p command).Elections := by
  have h := (s.node p).rf.start_keeps command
  unfold Cluster.start
  cases hx : (s.node p).rf.start command <;> simp only [hx] at h ⊢
  case error => exact crash_elections he h
  case ok r =>
    have ⟨rf, sent, out⟩ := r
    refine (Quiet.of_finish h (fun call hm => ?_) fun call r hm => ?_).elections he
    all_goals have ⟨q, request, hr, hc⟩ := mem_calls hm; cases hc
    exact ⟨rfl, rfl, Raft.start_ne_requestVote hx hr⟩

theorem heartbeat_elections (he : s.Elections) (h : s.heartbeat p = some s') : s'.Elections := by
  simp only [Cluster.heartbeat] at h
  split at h
  case isTrue => cases h
  case isFalse =>
    cases hx : (s.node p).rf.startSendEntries <;> simp only [hx] at h <;> cases h
    case error c =>
      have ⟨_, hs, _⟩ := Raft.startSendEntries_error hx
      exact (Quiet.of_saved he fun q args hm =>
        Raft.sendTo_ne_requestVote (hs q _ hm).right args rfl).elections he
    case ok sent =>
      refine (Quiet.of_keeps (.refl _) rfl (he.saved p) (fun call hm => ?_) fun call r hm =>
        ?_).elections he
      all_goals have ⟨q, request, hr, hc⟩ := mem_calls hm; cases hc
      exact ⟨rfl, rfl, Raft.sendTo_ne_requestVote (Raft.startSendEntries_ok hx hr).right⟩

theorem snapshot_elections {data : D} (he : s.Elections) (h : s.snapshot p data = some s') :
    s'.Elections := by
  have ⟨index, _, h⟩ := Option.map_eq_some_iff.mp h
  have hk := (s.node p).rf.makeSnapshot_keeps index data
  subst h
  cases hx : (s.node p).rf.makeSnapshot index data <;> simp only [hx] at hk ⊢
  case error => exact crash_elections he hk
  case ok    => exact finish_elections he hk

theorem applyTicker_elections (he : s.Elections) (h : s.applyTicker p = some s') :
    s'.Elections := by
  have ⟨x, hx, h⟩ := Option.map_eq_some_iff.mp h
  have hk := Raft.applyTicker_keeps hx
  have hp := Raft.applyTicker_persist hx
  subst h
  cases x
  case error c =>
    exact (Quiet.of_saved he fun _ _ => List.not_mem_nil : s.Quiet p _ (s.calls p [])).elections he
  case ok r =>
    have hk : (s.node p).rf.Keeps r.1 := hk
    change (s.update p { s.node p with rf := r.1, applier := r.2 } []).Elections
    refine keeps_elections he hk rfl ?_
    have hs := he.saved p
    simp only [Node.Saved, hk.me] at hs ⊢
    exact hs.trans hp.symm

theorem receive_elections (he : s.Elections) (h : s.receive p = some s') : s'.Elections := by
  unfold Cluster.receive at h
  split at h <;> cases h
  exact keeps_elections he (.refl _) rfl (he.saved p)

theorem failed_elections {call : Call n C D} (he : s.Elections) (h : s.failed call = some s') :
    s'.Elections := by
  unfold Cluster.failed at h
  split at h
  case isTrue => cases h
  case isFalse =>
    split at h <;> cases h
    case _ => exact he
    case _ => exact finish_elections he (.refl _)

theorem restart_elections (he : s.Elections) : (s.restart p).Elections :=
  (Quiet.of_saved he fun _ _ => List.not_mem_nil : s.Quiet p _ (s.calls p [])).elections he

theorem init_not_voted : ¬(init n C D).Voted v t c
  | .inl ⟨_, _, _, _, _, h⟩    => List.not_mem_nil h
  | .inr ⟨_, _, _, _, _, h⟩ => List.not_mem_nil h

theorem init_elections : (init n C D).Elections where
  me _            := rfl
  threshold _     := rfl
  saved _         := Node.saved_boot
  incarnation     := nofun
  candidate       := nofun
  requested       := nofun
  backed _ _ _    := (absurd · init_not_voted)
  unique _ _ _ _  := (absurd · init_not_voted)
  tally           := nofun
  leader          := nofun

variable [DecidableEq C] [DecidableEq D]

theorem next_elections {a : Event n C D} (he : s.Elections) (h : s.next a = some s') :
    s'.Elections := by
  cases a <;> simp only [next] at h
  case start              => cases h; exact start_elections he
  case startElection      => cases h; exact startElection_elections he
  case heartbeat          => exact heartbeat_elections he h
  case snapshot           => exact snapshot_elections he h
  case applyTicker        => exact applyTicker_elections he h
  case receive            => exact receive_elections he h
  case restart            => cases h; exact restart_elections he
  all_goals split at h <;> try cases h
  case serve.isTrue hm    => exact serve_elections he hm
  case returned.isTrue hm => exact returned_elections he hm h
  case failed.isTrue      => exact failed_elections he h

-- A step updates one server. What it sends are requests of that server, or the reply to the request
-- that the server has served.
theorem next_update {a : Event n C D} (h : s.next a = some s') :
    (s' = s) ∨ (∃ p nd requests, s' = s.update p nd (s.calls p requests)) ∨
    (∃ call rf r, (s.node call.callee).rf.serve call.request = .ok (rf, r) ∧
      s' = s.update call.callee ((s.node call.callee).finish rf) [.reply call r]) := by
  cases a <;> simp only [next] at h
  case start p c =>
    cases h
    unfold start
    split <;> exact .inr <| .inl ⟨_, _, _, rfl⟩
  case startElection p =>
    cases h
    unfold startElection
    split <;> exact .inr <| .inl ⟨_, _, _, rfl⟩
  case heartbeat p =>
    unfold heartbeat at h
    split at h
    · cases h
    · split at h <;> cases h <;> exact .inr <| .inl ⟨_, _, _, rfl⟩
  case snapshot p d =>
    have ⟨_, _, h⟩ := Option.map_eq_some_iff.mp h
    subst h
    split
    · exact .inr <| .inl ⟨_, _, [], rfl⟩
    · exact .inr <| .inl ⟨_, _, _, rfl⟩
  case applyTicker p =>
    have ⟨_, _, h⟩ := Option.map_eq_some_iff.mp h
    subst h
    split <;> exact .inr <| .inl ⟨_, _, [], rfl⟩
  case receive p =>
    unfold receive at h
    split at h <;> cases h
    exact .inr <| .inl ⟨_, _, [], rfl⟩
  case restart => cases h; exact .inr <| .inl ⟨_, _, [], rfl⟩
  all_goals split at h <;> try cases h
  case serve.isTrue call _ =>
    unfold serve
    split
    case _ rf r hx => exact .inr <| .inr ⟨call, rf, r, hx, rfl⟩
    case _         => exact .inr <| .inl ⟨_, _, _, rfl⟩
  case returned.isTrue =>
    unfold returned at h
    split at h
    · cases h
    · have ⟨_, _, h⟩ := Option.map_eq_some_iff.mp h
      subst h
      split
      · exact .inr <| .inl ⟨_, _, [], rfl⟩
      · exact .inr <| .inl ⟨_, _, _, rfl⟩
  case failed.isTrue =>
    unfold failed at h
    split at h
    · cases h
    · split at h <;> cases h
      · exact .inl rfl
      · exact .inr <| .inl ⟨_, _, [], rfl⟩

theorem next_network {a : Event n C D} (h : s.next a = some s') :
    ∀ m ∈ s.network, m ∈ s'.network := by
  intro m hm
  obtain h | ⟨_, _, _, h⟩ | ⟨_, _, _, _, h⟩ := next_update h
  case inl => exact h ▸ hm
  all_goals exact h ▸ Ballot.network_subset m hm

-- A new reply is the one that the callee has just given.
theorem next_reply {a : Event n C D} (h : s.next a = some s') {call : Call n C D} {r : Reply}
    (hm : .reply call r ∈ s'.network) (hn : .reply call r ∉ s.network) :
    (s.node call.callee).rf.serve call.request = .ok ((s'.node call.callee).rf, r) := by
  obtain h | ⟨p, nd, requests, h⟩ | ⟨call', rf, r', hx, h⟩ := next_update h <;> subst h
  case inl => exact absurd hm hn
  case inr.inl =>
    have ⟨_, _, _, hc⟩ := mem_calls ((mem_update_network.mp hm).resolve_left hn)
    cases hc
  case inr.inr =>
    cases List.mem_singleton.mp ((mem_update_network.mp hm).resolve_left hn)
    rw [update_node_self]
    exact hx

end Cluster

namespace Execution

open Cluster

variable [DecidableEq C] [DecidableEq D]

theorem elections (e : Execution n C D) (i : Nat) : (e.state i).Elections :=
  e.invariant init_elections (fun _ _ _ _ h he => next_elections he h) i

theorem network_mono (e : Execution n C D) {i j : Nat} (h : i ≤ j) :
    ∀ m ∈ (e.state i).network, m ∈ (e.state j).network :=
  e.rel_of_le (r := fun s s' => ∀ m ∈ s.network, m ∈ s'.network) (fun _ _ => id)
    (fun _ _ _ h₁ h₂ m hm => h₂ m (h₁ m hm)) (fun _ _ _ _ => next_network) h

-- The leaders of a term at any two moments are the same server.
theorem leader_unique (hn : Odd n) (e : Execution n C D) {i j : Nat} {p q : Fin n}
    (hp : ((e.state i).node p).rf.state = .leader) (hq : ((e.state j).node q).rf.state = .leader)
    (ht : ((e.state i).node p).rf.currentTerm = ((e.state j).node q).rf.currentTerm) : p = q := by
  have hp := ((elections e i).leader p hp).mono <| network_mono e (Nat.le_max_left i j)
  have hq := ((elections e j).leader q hq).mono <| network_mono e (Nat.le_max_right i j)
  exact (elections e (max i j)).won_unique hn hp (ht ▸ hq)

-- Server 1 has voted for server 0, which is still the leader of term 1 after a heartbeat.
theorem leader_unique_three : ∃ e : Execution 3 Nat Unit, ∃ p,
    ((e.state 3).node p).rf.state = .leader ∧ ((e.state 4).node p).rf.state = .leader ∧ p = 0 := by
  let call : Call 3 Nat Unit := ⟨0, 1, 0, .requestVote ⟨1, 0, 0, 0⟩⟩
  let e : Execution 3 Nat Unit := .ofActions (raft 3 Nat Unit)
    [.startElection 0, .serve call, .returned call (.requestVote ⟨0, true⟩), .heartbeat 0]
      (by decide +kernel)
  have h₁ : ((e.state 3).node 0).rf.state = .leader := by decide +kernel
  have h₂ : ((e.state 4).node 0).rf.state = .leader := by decide +kernel
  exact ⟨e, 0, h₁, h₂, leader_unique (by decide) e h₁ h₂ (by decide +kernel)⟩

end Execution
