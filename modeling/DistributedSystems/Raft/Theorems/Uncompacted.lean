import DistributedSystems.Raft.Theorems.Safety

open TermLog

variable {n : Nat} {C D : Type} {w : Logs n C}

-- Without calls of `Snapshot` no log is ever compacted, and no snapshot is ever sent.
structure Cluster.Uncompacted (s : Cluster n C D) : Prop where
  base     : ∀ p, (s.node p).rf.snapshotLastIndex = 0
  requests : ∀ call args, .request call ∈ s.network → call.request ≠ .installSnapshot args

namespace Cluster.Uncompacted

variable {s s' : Cluster n C D} {a : Event n C D} [DecidableEq C] [DecidableEq D]

theorem not_outdated (h : s.Uncompacted) (hs : s.next a = some s') : ¬s.Outdated a := by
  cases a
  case serve call =>
    simp only [Cluster.next] at hs
    split at hs <;> cases hs
    case _ hm =>
      obtain ⟨_, _, _, request⟩ := call
      cases request
      case installSnapshot args => exact absurd rfl (h.requests _ args hm)
      all_goals exact id
  all_goals exact id

theorem next_base (h : s.Uncompacted) (he : s.Elections) (hs : s.next a = some s')
    (hp : s.panics a = false) (ha : ∀ p data, a ≠ .snapshot p data) (q : Fin n) :
    (s'.node q).rf.snapshotLastIndex = 0 := by
  rw [←h.base q]
  cases Cluster.next_proceeds hs q
  case inr hb =>
    obtain ⟨persister, hb, hx⟩ := hb
    have hv := he.saved q
    rw [Node.Saved, he.me, ←hx hp] at hv
    rw [hb, he.me]
    simp only [Raft.persist, Persister.mk.injEq, Option.some.injEq, RaftStateBytes.mk.injEq] at hv
    exact hv.left.right.right.right.left
  case inl hc =>
    generalize s'.node q = nd at hc
    cases hc
    case same hsame _ _    => exact hsame.snapshotLastIndex
    case receives          => rfl
    case ticks _ ht        =>
      obtain ⟨b, hb⟩ := (s.node q).rf.settle_eq (s.node q).applier
      rw [hb] at ht
      cases ht <;> rfl
    case stores hst _      =>
      cases a <;> simp only [Cluster.Stores] at hst
      case snapshot => exact absurd rfl (ha _ _)
      case serve call =>
        obtain ⟨_, args, hr, _⟩ := hst
        simp only [Cluster.next] at hs
        split at hs <;> cases hs
        case _ hm => exact absurd hr (h.requests call args hm)

theorem next (h : s.Uncompacted) (hr : s.Refines w) (hs : s.next a = some s') (he : s'.Elections)
    (ha : ∀ p data, a ≠ .snapshot p data) : s'.Uncompacted := by
  have ⟨hp, p, nd, msgs, w', hu, ans⟩ := hr.next_answers hs he (h.not_outdated hs)
  have hbase := h.next_base hr.elections hs hp ha
  refine { base := hbase, requests call args hm hc := ?_ }
  subst hu
  cases Cluster.mem_update_network.mp hm
  case inl hm => exact h.requests call args hm hc
  case inr hm =>
    have ⟨_, _, hl, hsend⟩ := ans.leads call args.term hm (by rw [hc]; rfl)
    have hnext := ((ans.node.leader hl).nextIndex call.callee).left
    have hb := hbase p
    rw [Cluster.update_node_self] at hb
    cases (Raft.sendTo_cases hsend).right
    case inl hx => have ⟨_, hx, _⟩ := hx; cases hc.symm.trans hx
    case inr hx => omega

end Cluster.Uncompacted

namespace Execution

variable [DecidableEq C] [DecidableEq D] {e : Execution n C D}

def NoSnapshots (e : Execution n C D) : Prop :=
  ∀ i p data, e.label i ≠ some (.snapshot p data)

theorem NoSnapshots.uncompacted (hs : e.NoSnapshots) (hn : Odd n) (i : Nat) :
    (e.state i).Uncompacted := by
  have h := e.invariant (I := fun s => s.Uncompacted ∧ ∃ w, s.Refines w)
    ⟨⟨fun _ => rfl, nofun⟩, _, Cluster.init_refines hn⟩ fun i a s' ha hx ⟨hu, w, hr⟩ => by
      have ⟨w', _, hr'⟩ := hr.next_refines hx (hu.not_outdated hx)
      exact ⟨hu.next hr hx hr'.elections fun p data hc => hs i p data (hc ▸ ha), w', hr'⟩
  exact (h i).left

theorem NoSnapshots.guarded (hs : e.NoSnapshots) (hn : Odd n) : e.Guarded := by
  intro i a ha
  exact (hs.uncompacted hn i).not_outdated (e.next_of_label ha)

end Execution

-- Log matching

structure LogMatching (node : Fin n → Node n C D) : Prop where
  matching : ∀ (p q : Fin n) (k : Nat) (a b : LogEntry C), (node p).rf.log[k]? = some a →
    (node q).rf.log[k]? = some b → a.term = b.term →
    ∀ j ≤ k, (node p).rf.log[j]? = (node q).rf.log[j]?
  sorted   : ∀ p, (node p).rf.log.Pairwise (·.term ≤ ·.term)
  bound    : ∀ p, ∀ a ∈ (node p).rf.log, a.term ≤ (node p).rf.currentTerm

namespace Execution

variable [DecidableEq C] [DecidableEq D] {e : Execution n C D}

theorem NoSnapshots.logMatching (hs : e.NoSnapshots) (hn : Odd n) (i : Nat) :
    LogMatching (e.state i).node := by
  have hu := hs.uncompacted hn i
  have ⟨w, h⟩ := (hs.guarded hn).shadowed hn
  have v := (h.refines i).valid
  have N := (h.refines i).node
  have hterm p := (N p).log.map_term (hu.base p)
  refine {
    matching p q k a b ha hb ht j hj := ?matching
    sorted p := ?sorted, bound p a ha := ?bound }
  case matching =>
    have entry {p a} (ha : ((e.state i).node p).rf.log[k]? = some a) :
        ∃ a', ((w i).log p)[k]? = some a' ∧ a'.term = a.term := by
      have := congrArg (·[k]?) (hterm p)
      simp only [List.getElem?_map, ha, Option.map_some] at this
      exact Option.map_eq_some_iff.mp this.symm
    have ⟨a', ha', hta⟩ := entry ha
    have ⟨b', hb', htb⟩ := entry hb
    have hx := (v.log_coherent p).matching (v.log_coherent q) ha' hb'
      (hta.trans (ht.trans htb.symm))
    refine (N p).log.getElem?_congr (N q).log (hu.base p) (hu.base q) ?_
    have hj := Nat.lt_succ_of_le hj
    rw [←List.getElem?_take_of_lt hj, hx, List.getElem?_take_of_lt hj]
  case sorted =>
    have := List.pairwise_map.mpr (v.log_sorted p)
    exact List.pairwise_map.mp ((hterm p).symm ▸ this)
  case bound =>
    have : a.term ∈ ((w i).log p).map (·.term) := (hterm p) ▸ List.mem_map_of_mem ha
    have ⟨a', ha', ht⟩ := List.mem_map.mp this
    rw [←ht, ←(N p).term]
    exact v.log_bound p a' ha'

end Execution

-- Leader completeness

namespace History

-- Some leader has had a commit index of at least `c` by moment `i`.
def Covered (h : History n C D) (i c : Nat) : Prop :=
  c = 0 ∨ ∃ j ≤ i, ∃ p, (h j p).rf.state = .leader ∧ c ≤ (h j p).rf.commitIndex

-- An entry that some server has committed has been committed by a leader, and the leaders of all
-- later terms have it from their election on.
structure LeaderComplete (h : History n C D) : Prop where
  covered : ∀ i p, ∀ index ≤ (h i p).rf.commitIndex, h.Covered i index
  kept    : ∀ i p index entry, index ≤ (h i p).rf.commitIndex →
    (h i p).rf.log[index]? = some entry →
    ∀ j l, (h j l).rf.state = .leader → index ≤ (h j l).rf.commitIndex →
    ∀ k q, (h k q).rf.state = .leader → (h j l).rf.currentTerm < (h k q).rf.currentTerm →
    ∀ m, k ≤ m → (h m q).rf.currentTerm = (h k q).rf.currentTerm →
      (h m q).rf.log[index]? = some entry

namespace Covered

variable {h : History n C D} {i j c d : Nat}

theorem mono (hc : h.Covered i c) (hi : i ≤ j) : h.Covered j c :=
  hc.imp_right fun ⟨k, hk, hx⟩ => ⟨k, hk.trans hi, hx⟩

theorem restrict (hc : h.Covered i c) (hd : d ≤ c) : h.Covered i d := by
  cases hc
  case inl h => exact .inl (by omega)
  case inr h =>
    obtain ⟨k, hk, p, hl, hc⟩ := h
    exact .inr ⟨k, hk, p, hl, hd.trans hc⟩

end Covered
end History

namespace Execution

variable [DecidableEq C] [DecidableEq D] {e : Execution n C D}

-- Every commit index can be traced back to a leader, and so can every one on its way.
theorem covered (hn : Odd n) (hg : e.Guarded) (i : Nat) :
    (∀ p, e.history.Covered i ((e.state i).node p).rf.commitIndex) ∧
    ∀ c, (e.state i).Announced c → e.history.Covered i c := by
  induction i
  case zero =>
    rw [e.start]
    exact ⟨fun _ => .inl rfl, fun _ ⟨_, _, hm, _⟩ => nomatch hm⟩
  case succ i hi =>
    have ⟨h₁, h₂⟩ := hi
    cases e.step_cases i
    case inl hx =>
      rw [hx]
      exact ⟨fun p => (h₁ p).mono (Nat.le_succ i), fun c hc => (h₂ c hc).mono (Nat.le_succ i)⟩
    case inr hx =>
      have ⟨a, ha, hx⟩ := hx
      have ⟨w, h⟩ := hg.shadowed hn
      have ⟨_, p, nd, msgs, w', hu, ans⟩ :=
        (h.refines i).next_answers hx (h.refines (i + 1)).elections (hg i a ha)
      have hnd : (e.state (i + 1)).node p = nd := by rw [hu, Cluster.update_node_self]
      have leads {c} (hl : nd.rf.state = .leader) (hc : c ≤ nd.rf.commitIndex) :
          e.history.Covered (i + 1) c :=
        .inr ⟨i + 1, le_rfl, p, (congrArg (·.rf.state) hnd).trans hl,
          hc.trans (congrArg (·.rf.commitIndex) hnd).ge⟩
      refine ⟨fun q => ?commit, fun c hc => ?announced⟩
      case commit =>
        by_cases hq : q = p
        case neg =>
          rw [hu, Cluster.update_node_ne hq]
          exact (h₁ q).mono (Nat.le_succ i)
        case pos =>
          rw [hq, hnd]
          obtain hc | hc | hc := ans.commit
          case inl     => exact ((h₁ p).restrict hc).mono (Nat.le_succ i)
          case inr.inl => exact leads hc le_rfl
          case inr.inr => exact (h₂ _ hc).mono (Nat.le_succ i)
      case announced =>
        have ⟨call, d, hm, hd, hc⟩ := hc
        rw [hu] at hm
        cases Cluster.mem_update_network.mp hm
        case inl hm => exact (h₂ c ⟨call, d, hm, hd, hc⟩).mono (Nat.le_succ i)
        case inr hm =>
          have ⟨t, ht⟩ : ∃ t, call.request.leaderTerm = some t := by
            cases hr : call.request <;> simp [hr, Request.committed, Request.leaderTerm] at hd ⊢
          have ⟨_, _, hl, hs⟩ := ans.leads call t hm ht
          refine (leads hl ?_).restrict hc
          cases (Raft.sendTo_cases hs).right
          case inl hx => have ⟨_, _, hx⟩ := hx; exact (Option.some.inj (hd.symm.trans hx)).le
          case inr hx => exact (Option.some.inj (hd.symm.trans hx.right)).le.trans ans.node.base

namespace Shadowed

variable {w : Nat → Logs n C} (h : e.Shadowed w) {i j k : Nat} {p q : Fin n}

include h

-- A leader has the log of its term for as long as it stays in that term.
theorem leaderLog (hq : ((e.state i).node q).rf.state = .leader) (hij : i ≤ j)
    (ht : ((e.state j).node q).rf.currentTerm = ((e.state i).node q).rf.currentTerm)
    (h₀ : ((e.state i).node q).rf.currentTerm ≠ 0) :
    (w j).leaderLog ((e.state i).node q).rf.currentTerm = some ((w j).log q) := by
  have R := h.refines j
  have ⟨k, hk, _⟩ := (h.grows hij).leader _ _ (((h.refines i).node q).leader hq).log
  have ⟨q', hw, hl⟩ := R.elected _ _ hk h₀
  have hw' := ((h.refines i).elections.leader q hq).mono (e.network_mono hij)
  cases R.elections.won_unique R.odd hw' hw
  rw [hl ((R.node q).term.trans ht), hk]

-- A leader has all that was committed by the leader of an earlier term.
theorem complete (hc : k ≤ ((e.state i).node p).rf.commitIndex)
    (hq : (w j).leaderLog ((e.state j).node q).rf.currentTerm = some ((w j).log q))
    (ht : ((e.state i).node p).rf.currentTerm < ((e.state j).node q).rf.currentTerm) :
    ((w j).log q)[k]? = ((w i).log p)[k]? := by
  have N := (h.refines i).node p
  have hdec := (h.grows (Nat.le_max_left i j)).decided N.decided le_rfl
  have ⟨l, hl, _⟩ := (h.grows (Nat.le_max_right i j)).leader _ _ hq
  have hp := (h.refines _).valid.decided_prefix_leader hdec hl (N.term ▸ ht.le)
  have hp := (h.grows (Nat.le_max_right i j)).prefix_leader hq hl hp fun a ha =>
    ((h.refines i).valid.log_bound p a (List.mem_of_mem_take ha)).trans_lt (N.term ▸ ht)
  have hk : k < (((w i).log p).take (((e.state i).node p).rf.commitIndex + 1)).length := by
    have := N.commit
    rw [List.length_take]
    omega
  rw [List.prefix_iff_getElem?.mp hp k hk, ←List.getElem?_eq_getElem hk,
    List.getElem?_take_of_lt (Nat.lt_succ_of_le hc)]

end Shadowed

theorem NoSnapshots.leaderComplete (hs : e.NoSnapshots) (hn : Odd n) :
    e.history.LeaderComplete := by
  have hg := hs.guarded hn
  have ⟨w, h⟩ := hg.shadowed hn
  refine {
    covered i p _ hc := ((covered hn hg i).left p).restrict hc
    kept i p index entry hc he j l _ hl k q hq ht m hm hx := ?_ }
  have hlog := h.leaderLog hq hm hx (Nat.ne_zero_of_lt ht)
  have hcom := h.complete hl (hx ▸ hlog) (hx ▸ ht)
  rw [h.committed_eq hl hc] at hcom
  rw [←he]
  exact ((h.refines m).node q).log.getElem?_congr ((h.refines i).node p).log
    ((hs.uncompacted hn m).base q) ((hs.uncompacted hn i).base p) hcom

end Execution
