import DistributedSystems.Library.Majority
import DistributedSystems.Raft.Theorems.Handlers

variable {n : Nat} {C D : Type}

namespace Raft

theorem countVotes_eq (rf : Raft n C D) :
    rf.countVotes = (Finset.univ.filter (rf.votesReceived · = true)).card := by
  rw [countVotes, List.countP_eq_length_filter, ←List.toFinset_card_of_nodup]
  · congr 1; ext v; simp
  · exact (List.nodup_finRange n).filter _

theorem make_majorityThreshold (me : Fin n) (persister : Persister n C D) :
    (make me persister).majorityThreshold = (n + 1) / 2 := by
  cases persister with | mk raftstate _ => cases raftstate <;> rfl

-- The median of the match indices

theorem le_median_iff (hn : 0 < n) (m : Fin n → Nat) (c : Nat) :
    c ≤ median m ↔ Majority (Finset.univ.filter (c ≤ m ·)) := by
  have ⟨v, hv, hc⟩ := exists_lowerMedian hn m
  have hm : median m = (lowerMedian m).getD 0 := rfl
  rw [hm, hv, Option.getD_some]
  exact hc c

theorem median_mono (hn : 0 < n) {m m' : Fin n → Nat} (h : ∀ q, m q ≤ m' q) :
    median m ≤ median m' := by
  apply (le_median_iff hn _ _).mpr
  apply ((le_median_iff hn _ _).mp le_rfl).mono
  intro q hq
  simp only [Finset.mem_filter] at hq ⊢
  exact ⟨hq.left, hq.right.trans (h q)⟩

theorem median_lt (hn : 0 < n) {m : Fin n → Nat} {b : Nat} (h : ∀ q, m q < b) : median m < b := by
  have ⟨q, hq⟩ := ((le_median_iff hn m _).mp le_rfl).nonempty
  simp only [Finset.mem_filter] at hq
  exact hq.right.trans_lt (h q)

theorem le_median (hn : 0 < n) {m : Fin n → Nat} {b : Nat} (h : ∀ q, b ≤ m q) : b ≤ median m := by
  have : Nonempty (Fin n) := ⟨⟨0, hn⟩⟩
  apply (le_median_iff hn m b).mpr
  simp [h, Majority.univ]

-- Quorums

-- The votes of `Q` let `sendRequestVote` declare the election of a server started by `Make` won.
def Elects (me : Fin n) (persister : Persister n C D) (Q : Finset (Fin n)) : Prop :=
  let rf := { make me persister with votesReceived := (· ∈ Q) }
  rf.majorityThreshold ≤ rf.countVotes

instance (me : Fin n) (persister : Persister n C D) : DecidablePred (Elects me persister) :=
  fun _ => inferInstanceAs (Decidable (_ ≤ _))

-- The match indices of `Q` let `updateCommitIndex` commit a new index.
def Commits (rf : Raft n C D) (Q : Finset (Fin n)) : Prop :=
  ∃ rf', rf.updateCommitIndex = .ok rf' ∧ rf'.commitIndex ≠ rf.commitIndex ∧
    ∀ p, rf'.commitIndex ≤ rf.matchIndex p → p ∈ Q

theorem elects_iff {me : Fin n} {persister : Persister n C D} {Q : Finset (Fin n)} :
    Elects me persister Q ↔ (n + 1) / 2 ≤ Q.card := by
  have hc := countVotes_eq { make me persister with votesReceived := (· ∈ Q) }
  simp only [decide_eq_true_eq, Finset.filter_univ_mem] at hc
  rw [←hc, ←make_majorityThreshold me persister]
  rfl

theorem Elects.majority (hn : Odd n) {me : Fin n} {persister : Persister n C D} {Q}
    (h : Elects me persister Q) : Majority Q := by
  have := elects_iff.mp h
  have ⟨k, hk⟩ := hn
  simp only [Majority, Fintype.card_fin]
  omega

-- The lower half of an even number of servers elects a leader, and so does the upper half.
theorem exists_elects_compl (hn : Even n) (me : Fin n) (persister : Persister n C D) :
    ∃ Q : Finset (Fin n), Elects me persister Q ∧ Elects me persister Qᶜ := by
  obtain ⟨k, hk⟩ := hn
  have hc : (Finset.univ.filter fun p : Fin n => p < k).card = k := by
    rw [Fin.card_filter_val_lt]
    omega
  refine ⟨Finset.univ.filter fun p : Fin n => p < k, elects_iff.mpr ?_, elects_iff.mpr ?_⟩
  · omega
  · rw [Finset.card_compl, Fintype.card_fin]
    omega

theorem Commits.majority {rf : Raft n C D} {Q} (h : rf.Commits Q) : Majority Q := by
  have hpos : 0 < n := Nat.zero_lt_of_lt rf.me.isLt
  have ⟨rf', hu, hne, hQ⟩ := h
  have ⟨entry, _, hx⟩ := bind_ok hu
  cases hx
  split_ifs at hne hQ
  case neg => exact absurd rfl hne
  refine ((le_median_iff hpos rf.matchIndex _).mp le_rfl).mono fun p hp => ?_
  exact hQ p (Finset.mem_filter.mp hp).right

-- The threshold for votes is rounded up, but not to more than half of an even number of servers. To
-- commit, more than half of the servers are always needed.
theorem quorums_inter (hn : 1 ≤ n) :
    ((∀ me₁ me₂ (persister₁ persister₂ : Persister n C D) (Q₁ Q₂ : Finset (Fin n)),
      Elects me₁ persister₁ Q₁ → Elects me₂ persister₂ Q₂ → ∃ p, p ∈ Q₁ ∧ p ∈ Q₂) ↔ Odd n) ∧
    ∀ me (persister : Persister n C D) (Q₁ : Finset (Fin n)), Elects me persister Q₁ →
      ∀ (rf : Raft n C D) Q₂, rf.Commits Q₂ → ∃ p, p ∈ Q₁ ∧ p ∈ Q₂ := by
  refine ⟨⟨fun h => ?odd, fun hn _ _ _ _ _ _ h₁ h₂ => ?elections⟩, fun _ _ _ h₁ rf Q₂ h₂ => ?commit⟩
  case odd =>
    by_contra hc
    let me : Fin n := ⟨0, hn⟩
    obtain ⟨Q, h₁, h₂⟩ := exists_elects_compl (Nat.not_odd_iff_even.mp hc) me
      (⟨none, none⟩ : Persister n C D)
    obtain ⟨p, hp, hp'⟩ := h me me _ _ Q Qᶜ h₁ h₂
    exact Finset.mem_compl.mp hp' hp
  case elections => exact (h₁.majority hn).inter (h₂.majority hn)
  case commit =>
    have h₁ := elects_iff.mp h₁
    have h₂ := h₂.majority
    simp only [Majority, Fintype.card_fin] at h₂
    apply exists_mem_inter
    rw [Fintype.card_fin]
    omega

-- A leader of three servers that has replicated its first entry to one of its peers.
def replicated : Raft 3 Nat Unit :=
  { make 0 (⟨none, none⟩ : Persister 3 Nat Unit) with
    state       := .leader
    currentTerm := 1
    log         := [⟨0, none⟩, ⟨1, some 5⟩]
    matchIndex  := ![1, 1, 0] }

theorem quorums_inter_three :
    (∃ p, p ∈ ({0, 1} : Finset (Fin 3)) ∧ p ∈ ({1, 2} : Finset (Fin 3))) ∧
    (∃ p, p ∈ ({1, 2} : Finset (Fin 3)) ∧ p ∈ ({0, 1} : Finset (Fin 3))) :=
  have h : Elects 0 (⟨none, none⟩ : Persister 3 Nat Unit) {0, 1} := by decide
  have h' : Elects 2 (⟨none, none⟩ : Persister 3 Nat Unit) {1, 2} := by decide
  have hr : replicated.Commits {0, 1} := ⟨_, rfl, by decide, by decide⟩
  have hq := quorums_inter (by decide)
  ⟨hq.left.mpr (by decide) _ _ _ _ _ _ h h', hq.right _ _ _ h' _ _ hr⟩

-- In a cluster of four servers each half of them elects a leader of its own.
theorem quorums_disjoint :
    ¬∀ (n : Nat) (me₁ me₂ : Fin n) (persister₁ persister₂ : Persister n Nat Unit)
      (Q₁ Q₂ : Finset (Fin n)), 1 ≤ n → Elects me₁ persister₁ Q₁ → Elects me₂ persister₂ Q₂ →
      ∃ p, p ∈ Q₁ ∧ p ∈ Q₂ := by
  intro h
  have hc := h 4 0 2 ⟨none, none⟩ ⟨none, none⟩ {0, 1} {2, 3} (by decide) (by decide) (by decide)
  revert hc
  decide

-- The commit candidate

-- The match indices of a server are not negative, but what follows holds for all numbers.
theorem median_eq {matchIndex : Fin n → Nat} {m : Int} (hn : 0 < n)
    (hm : ∀ c, c ≤ m ↔ Majority (Finset.univ.filter fun q => c ≤ (matchIndex q : Int))) :
    median matchIndex = m := by
  apply le_antisymm
  · apply (hm _).mpr
    simpa using (le_median_iff hn matchIndex _).mp le_rfl
  · have ht : m.toNat ≤ median matchIndex := by
      apply (le_median_iff hn matchIndex _).mpr
      simpa using (hm m).mp le_rfl
    exact Int.toNat_le.mp ht

theorem median_isGreatest (hn : 0 < n) (matchIndex : Fin n → Int) :
    ∃ m, lowerMedian matchIndex = some m ∧
      IsGreatest {c | n < 2 * (Finset.univ.filter (c ≤ matchIndex ·)).card} m ∧
      (∀ q v, matchIndex q ≤ v → ∃ m', lowerMedian (Function.update matchIndex q v) = some m' ∧
        m ≤ m') ∧
      ∀ rf : Raft n C D, (∀ q, rf.matchIndex q = matchIndex q) → median rf.matchIndex = m ∧
        ∀ rf', rf.updateCommitIndex = .ok rf' → rf' = rf ∨
        rf' = { rf with commitIndex := median rf.matchIndex } := by
  obtain ⟨m, hm, hc⟩ := exists_lowerMedian hn matchIndex
  have hmajority : ∀ c, c ≤ m ↔ n < 2 * (Finset.univ.filter (c ≤ matchIndex ·)).card := by
    simpa [Majority] using hc
  refine ⟨m, hm, ⟨(hmajority m).mp le_rfl, fun c => (hmajority c).mpr⟩, fun q v hv => ?raise,
    fun rf he => ⟨?median, fun rf' hu => ?commit⟩⟩
  case raise =>
    obtain ⟨m', hm', hc'⟩ := exists_lowerMedian hn (Function.update matchIndex q v)
    refine ⟨m', hm', (hc' m).mpr (((hc m).mp le_rfl).mono fun p hp => ?_)⟩
    simp only [Finset.mem_filter, Finset.mem_univ, true_and] at hp ⊢
    by_cases h : p = q
    case pos =>
      subst h
      rw [Function.update_self]
      exact hp.trans hv
    case neg => rwa [Function.update_of_ne h]
  case median =>
    apply median_eq hn
    simpa [he] using hc
  case commit =>
    obtain ⟨entry, _, hx⟩ := bind_ok hu
    cases hx
    split_ifs
    case pos => exact .inr rfl
    case neg => exact .inl rfl

theorem median_isGreatest_replicated :
    IsGreatest
      {c : Int | 3 < 2 * (Finset.univ.filter fun q => c ≤ replicated.matchIndex q).card} 1 ∧
    median replicated.matchIndex = 1 := by
  have ⟨m, hm, hg, _, hr⟩ := median_isGreatest (C := Nat) (D := Unit) (by decide) fun q =>
    (replicated.matchIndex q : Int)
  have he : lowerMedian (fun q => (replicated.matchIndex q : Int)) = some 1 := by decide
  cases hm.symm.trans he
  exact ⟨hg, mod_cast (hr replicated fun _ => rfl).left⟩

end Raft
