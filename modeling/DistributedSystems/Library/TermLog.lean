import DistributedSystems.Library.Majority

-- Replicated logs that are built up in terms: every entry carries the term it was created in, and
-- every term has at most one log, the log of its leader, that is ever extended in it.
--
-- Nothing here speaks of messages. A server that takes over a piece of a leader's log takes over a
-- prefix of it, no matter how long that piece has been on its way.

open Classical

class Termed (E : Type) where
  termOf : E → Nat

namespace TermLog

open Termed

variable {P E : Type}

noncomputable def merge (l m : List E) : List E :=
  if m <+: l then l else m

theorem prefix_merge (l m : List E) : m <+: merge l m := by
  unfold merge
  split
  · assumption
  · exact List.prefix_refl _

theorem merge_eq_left {l m : List E} (h : m <+: l) : merge l m = l :=
  if_pos h

theorem merge_eq_right {l m : List E} (h : ¬(m <+: l)) : merge l m = m :=
  if_neg h

-- What a log shares with the leader survives when more of the leader's log is taken over.
theorem prefix_merge_take {l m k : List E} (hl : k <+: l) (hm : k <+: m) (i : Nat) :
    k <+: merge l (m.take i) := by
  by_cases h : m.take i <+: l
  case pos => rw [merge_eq_left h]; exact hl
  case neg =>
    rw [merge_eq_right h]
    exact (List.prefix_or_prefix_of_prefix hm (List.take_prefix i m)).resolve_right
      fun hc => h (hc.trans hl)

structure World (P E : Type) where
  term      : P → Nat
  log       : P → List E
  leaderLog : Nat → Option (List E)
  acked     : P → Nat → Nat → Prop
  voted     : P → Nat → Nat × Nat → Prop

namespace World

-- All of the leader's log up to index `i` has been acknowledged.
def Acked (w : World P E) (p : P) (t i : Nat) : Prop :=
  ∀ j ≤ i, w.acked p t j

theorem Acked.restrict {w : World P E} {p t i j} (h : w.Acked p t i) (hj : j ≤ i) : w.Acked p t j :=
  fun k hk => h k (hk.trans hj)

-- What can happen to a world

noncomputable def observed (w : World P E) (p : P) (t : Nat) : World P E :=
  if w.term p < t then { w with term := Function.update w.term p t } else w

noncomputable def polled (w : World P E) (p : P) (c : Nat × Nat) : World P E :=
  if w.leaderLog (w.term p) = none
  then { w with voted q t d := w.voted q t d ∨ (q = p ∧ t = w.term p ∧ d = c) }
  else w

noncomputable def accepted (w : World P E) (p : P) (l : List E) (i : Nat) : World P E :=
  { w with
    log := Function.update w.log p (merge (w.log p) (l.take (i + 1)))
    acked q t j := w.acked q t j ∨ (q = p ∧ t = w.term p ∧ j ≤ i) }

-- The leader `p` adds an entry to its log, and acknowledges it at once.
noncomputable def extended (w : World P E) (p : P) (e : E) : World P E :=
  accepted { w with leaderLog := Function.update w.leaderLog (w.term p) (some (w.log p ++ [e])) }
    p (w.log p ++ [e]) (w.log p).length

noncomputable def elected (w : World P E) (p : P) : World P E :=
  { w with leaderLog := Function.update w.leaderLog (w.term p) (some (w.log p)) }

variable {w : World P E} {p q : P} {t i : Nat} {c : Nat × Nat} {l : List E}

@[simp]
theorem observed_log : (w.observed p t).log = w.log := by
  simp only [observed]
  split <;> rfl

@[simp]
theorem observed_leaderLog : (w.observed p t).leaderLog = w.leaderLog := by
  simp only [observed]
  split <;> rfl

theorem observed_term (h : w.term p ≤ t) : (w.observed p t).term p = t := by
  simp only [observed]
  split
  case isTrue  => exact Function.update_self p t w.term
  case isFalse => omega

@[simp]
theorem observed_term_ne (h : q ≠ p) : (w.observed p t).term q = w.term q := by
  simp only [observed]
  split
  case isTrue  => exact Function.update_of_ne h ..
  case isFalse => rfl

@[simp]
theorem polled_log : (w.polled p c).log = w.log := by
  simp only [polled]
  split <;> rfl

@[simp]
theorem polled_leaderLog : (w.polled p c).leaderLog = w.leaderLog := by
  simp only [polled]
  split <;> rfl

@[simp]
theorem polled_term : (w.polled p c).term = w.term := by
  simp only [polled]
  split <;> rfl

theorem polled_voted (w : World P E) (p : P) (c : Nat × Nat) :
    w.leaderLog (w.term p) ≠ none ∨ (w.polled p c).voted p (w.term p) c := by
  simp only [polled]
  split
  case isTrue    => exact .inr <| .inr ⟨rfl, rfl, rfl⟩
  case isFalse h => exact .inl h

@[simp]
theorem accepted_log : (w.accepted p l i).log p = merge (w.log p) (l.take (i + 1)) :=
  Function.update_self p _ w.log

@[simp]
theorem accepted_log_ne (h : q ≠ p) : (w.accepted p l i).log q = w.log q :=
  Function.update_of_ne h ..

@[simp]
theorem accepted_term : (w.accepted p l i).term = w.term :=
  rfl

@[simp]
theorem accepted_leaderLog : (w.accepted p l i).leaderLog = w.leaderLog :=
  rfl

theorem accepted_log_self (hl : l <+: w.log p) : (w.accepted p l i).log p = w.log p := by
  rw [accepted_log, merge_eq_left ((List.take_prefix _ _).trans hl)]

@[simp]
theorem extended_log {e : E} : (w.extended p e).log p = w.log p ++ [e] := by
  rw [extended, accepted_log, List.take_of_length_le (by simp), merge_eq_right]
  intro h
  have := h.length_le
  simp at this

theorem extended_log_ne {e : E} (h : q ≠ p) : (w.extended p e).log q = w.log q :=
  accepted_log_ne h

@[simp]
theorem extended_term {e : E} : (w.extended p e).term = w.term :=
  rfl

theorem extended_leaderLog {e : E} :
    (w.extended p e).leaderLog (w.term p) = some (w.log p ++ [e]) :=
  Function.update_self (w.term p) _ w.leaderLog

theorem extended_leaderLog_ne {e : E} (h : t ≠ w.term p) :
    (w.extended p e).leaderLog t = w.leaderLog t :=
  Function.update_of_ne h ..

theorem elected_leaderLog : (w.elected p).leaderLog (w.term p) = some (w.log p) :=
  Function.update_self (w.term p) _ w.leaderLog

theorem elected_leaderLog_ne (h : t ≠ w.term p) : (w.elected p).leaderLog t = w.leaderLog t :=
  Function.update_of_ne h ..

theorem accepted_acked (w : World P E) (p : P) (l : List E) (i : Nat) :
    (w.accepted p l i).Acked p (w.term p) i :=
  fun _ hj => .inr ⟨rfl, rfl, hj⟩

theorem extended_acked (w : World P E) (p : P) (e : E) :
    (w.extended p e).Acked p (w.term p) (w.log p).length :=
  fun _ hj => .inr ⟨rfl, rfl, hj⟩

end World

variable [Termed E]

-- The term and index of the last entry, by which candidates are compared.
def last (l : List E) : Nat × Nat :=
  (l.getLast?.elim 0 termOf, l.length - 1)

def UpToDate (c d : Nat × Nat) : Prop :=
  d.1 < c.1 ∨ (d.1 = c.1 ∧ d.2 ≤ c.2)

theorem UpToDate.trans {c d e : Nat × Nat} (h₁ : UpToDate c d) (h₂ : UpToDate d e) :
    UpToDate c e := by
  unfold UpToDate at *
  omega

theorem last_upToDate {l m : List E} {i : Nat} {e : E} (hs : l.Pairwise (termOf · ≤ termOf ·))
    (he : m[i]? = some e) (hp : m.take (i + 1) <+: l) : UpToDate (last l) (termOf e, i) := by
  obtain ⟨hi, hg⟩ := List.getElem?_eq_some_iff.mp he
  have hl : i < l.length := by have := hp.length_le; simp only [List.length_take] at this; omega
  have hx : l[i] = e := by
    have := hp.getElem (i := i) (by simp; omega)
    rw [←this, List.getElem_take, hg]
  have hz : l.getLast? = some l[l.length - 1] := by
    rw [List.getLast?_eq_getElem?, List.getElem?_eq_getElem]
  simp only [UpToDate, last, hz, Option.elim]
  cases Nat.lt_or_ge i (l.length - 1)
  case inl h =>
    have := hx ▸ List.pairwise_iff_getElem.mp hs i (l.length - 1) hl (by omega) h
    omega
  case inr h =>
    have : i = l.length - 1 := by omega
    subst this
    simp [hx]

-- Entries of the same term at an index are the same, and so is all that stands before them.
def Matching (l m : List E) : Prop :=
  ∀ ⦃i d e⦄, l[i]? = some d → m[i]? = some e → termOf d = termOf e → l.take (i + 1) = m.take (i + 1)

theorem Matching.initial {l m : List E} (h : l <+: m) : Matching l m := by
  intro i d e hd _ _
  have hi := (List.getElem?_eq_some_iff.mp hd).choose
  exact (List.prefix_iff_eq_take.mp (h.take _)).trans
    (by rw [List.take_take, List.length_take]; congr 1; omega)

theorem Matching.merge_take {l m : List E} (h : Matching l m) (i : Nat) :
    Matching (merge l (m.take i)) m := by
  by_cases hp : m.take i <+: l
  case pos => rwa [merge_eq_left hp]
  case neg =>
    rw [merge_eq_right hp]
    exact .initial (List.take_prefix i m)

namespace World

def Coherent (w : World P E) (l : List E) : Prop :=
  ∀ i e, l[i]? = some e → ∃ m, w.leaderLog (termOf e) = some m ∧ l.take (i + 1) <+: m

theorem Coherent.restrict {w : World P E} {l m : List E} (h : w.Coherent l) (hp : m <+: l) :
    w.Coherent m := by
  intro i e he
  obtain ⟨hi, hg⟩ := List.getElem?_eq_some_iff.mp he
  obtain ⟨n, hn, hn'⟩ := h i e (by rw [List.prefix_iff_getElem?.mp hp i hi, hg])
  exact ⟨n, hn, (hp.take _).trans hn'⟩

theorem Coherent.matching {w : World P E} {l m : List E} (hl : w.Coherent l) (hm : w.Coherent m) :
    Matching l m := by
  intro i d e hd he ht
  have ⟨n, hn₁, hp₁⟩ := hl i d hd
  have ⟨n', hn₂, hp₂⟩ := hm i e he
  cases (ht ▸ hn₁).symm.trans hn₂
  have h₁ := (List.getElem?_eq_some_iff.mp hd).choose
  have h₂ := (List.getElem?_eq_some_iff.mp he).choose
  have hx : (l.take (i + 1)).length = (m.take (i + 1)).length := by simp; omega
  exact (List.prefix_of_prefix_length_le hp₁ hp₂ hx.le).eq_of_length hx

-- Some leader of a term after `t` and up to `u` does not have the log `l` as a prefix.
def Missed (w : World P E) (t u : Nat) (l : List E) : Prop :=
  ∃ v m, t < v ∧ v ≤ u ∧ w.leaderLog v = some m ∧ ¬(l <+: m)

-- What a world can at most lose on its way into a later one: nothing but the ends of server logs.
structure Grows (w₁ w₂ : World P E) : Prop where
  term   : ∀ p, w₁.term p ≤ w₂.term p
  leader : ∀ t l, w₁.leaderLog t = some l →
    ∃ k, w₂.leaderLog t = some (l ++ k) ∧ ∀ e ∈ k, termOf e = t
  acked  : ∀ p t i, w₁.acked p t i → w₂.acked p t i
  voted  : ∀ p t c, w₁.voted p t c → w₂.voted p t c

namespace Grows

variable {w w₁ w₂ w₃ : World P E}

theorem refl (w : World P E) : Grows w w where
  term _        := le_rfl
  leader _ _ h  := ⟨[], by simpa using h, nofun⟩
  acked _ _ _ h := h
  voted _ _ _ h := h

theorem trans (g₁ : Grows w₁ w₂) (g₂ : Grows w₂ w₃) : Grows w₁ w₃ where
  term p        := (g₁.term p).trans (g₂.term p)
  acked _ _ _ h := g₂.acked _ _ _ (g₁.acked _ _ _ h)
  voted _ _ _ h := g₂.voted _ _ _ (g₁.voted _ _ _ h)
  leader t l h  := by
    have ⟨k₁, h₁, hk₁⟩ := g₁.leader t l h
    have ⟨k₂, h₂, hk₂⟩ := g₂.leader t _ h₁
    refine ⟨k₁ ++ k₂, by simpa using h₂, fun e he => ?_⟩
    exact (List.mem_append.mp he).elim (hk₁ e) (hk₂ e)

theorem no_leader (g : Grows w₁ w₂) {t} (h : w₂.leaderLog t = none) : w₁.leaderLog t = none := by
  by_contra hc
  have ⟨l, hl⟩ := Option.ne_none_iff_exists'.mp hc
  have ⟨_, hk, _⟩ := g.leader t l hl
  cases h.symm.trans hk

theorem coherent (g : Grows w₁ w₂) {l} (h : w₁.Coherent l) : w₂.Coherent l := by
  intro i e he
  have ⟨m, hm, hp⟩ := h i e he
  have ⟨k, hk, _⟩ := g.leader _ _ hm
  exact ⟨m ++ k, hk, hp.trans <| List.prefix_append _ _⟩

-- All that a leader can still add to its log are entries of its own term.
theorem prefix_leader (g : Grows w₁ w₂) {t l m m'} (hm : w₁.leaderLog t = some m)
    (hm' : w₂.leaderLog t = some m') (hp : l <+: m') (hb : ∀ e ∈ l, termOf e < t) : l <+: m := by
  have ⟨k, hk, hkt⟩ := g.leader _ _ hm
  cases hm'.symm.trans hk
  cases List.prefix_or_prefix_of_prefix hp (List.prefix_append m k)
  case inl h => exact h
  case inr h =>
    obtain ⟨_ | ⟨e, r⟩, rfl⟩ := h
    · simp
    · have he : e ∈ k := ((List.prefix_append_right_inj m).mp hp).subset (List.mem_cons_self ..)
      have := hkt e he
      have := hb e (by simp)
      omega

-- A leader that lacks a log of an older term never gets it.
theorem missed (g : Grows w₁ w₂) {t u v l} (h : w₁.Missed t u l) (hb : ∀ e ∈ l, termOf e ≤ t)
    (huv : u ≤ v) : w₂.Missed t v l := by
  have ⟨x, m, h₁, h₂, h₃, h₄⟩ := h
  have ⟨k, hk, _⟩ := g.leader _ _ h₃
  refine ⟨x, m ++ k, h₁, h₂.trans huv, hk, fun hp => h₄ ?_⟩
  exact g.prefix_leader h₃ hk hp fun e he => (hb e he).trans_lt h₁

end Grows

theorem Grows.ackedUpTo {w₁ w₂ : World P E} (g : Grows w₁ w₂) {p t i} (h : w₁.Acked p t i) :
    w₂.Acked p t i :=
  fun j hj => g.acked p t j (h j hj)

variable [Fintype P]

-- A majority of the servers has acknowledged the entry at index `i` in the term it was created in.
def Chosen (w : World P E) (t i : Nat) : Prop :=
  ∃ l e, w.leaderLog t = some l ∧ l[i]? = some e ∧ termOf e = t ∧
    ∃ Q : Finset P, Majority Q ∧ ∀ q ∈ Q, w.acked q t i

-- The log `l` is a prefix of what has been chosen up to term `t`.
def Decided (w : World P E) (t : Nat) (l : List E) : Prop :=
  ∃ u i m, u ≤ t ∧ w.Chosen u i ∧ w.leaderLog u = some m ∧ l <+: m.take (i + 1)

theorem Decided.restrict {w : World P E} {t l m} (h : w.Decided t l) (hp : m <+: l) :
    w.Decided t m :=
  have ⟨u, i, n, h₁, h₂, h₃, h₄⟩ := h
  ⟨u, i, n, h₁, h₂, h₃, hp.trans h₄⟩

theorem Grows.chosen {w₁ w₂ : World P E} (g : Grows w₁ w₂) {t i} (h : w₁.Chosen t i) :
    w₂.Chosen t i := by
  have ⟨l, e, hl, he, het, Q, hQ, ha⟩ := h
  have ⟨k, hk, _⟩ := g.leader _ _ hl
  have hi : i < l.length := (List.getElem?_eq_some_iff.mp he).choose
  exact ⟨l ++ k, e, hk, by rwa [List.getElem?_append_left hi], het, Q, hQ,
    fun q hq => g.acked _ _ _ <| ha q hq⟩

theorem Grows.decided {w₁ w₂ : World P E} (g : Grows w₁ w₂) {t u l} (h : w₁.Decided t l)
    (htu : t ≤ u) : w₂.Decided u l := by
  have ⟨x, i, m, hx, hc, hm, hp⟩ := h
  have ⟨k, hk, _⟩ := g.leader _ _ hm
  exact ⟨x, i, m ++ k, hx.trans htu, g.chosen hc, hk, hp.trans <| (List.prefix_append m k).take _⟩

inductive Move (w : World P E) : World P E → Prop
  | advance {p t} : (w.term p < t) → Move w { w with term := Function.update w.term p t }
  | vote {p c} :
    (w.leaderLog (w.term p) = none) → (UpToDate c (last (w.log p))) →
    Move w { w with voted q t d := w.voted q t d ∨ (q = p ∧ t = w.term p ∧ d = c) }
  | elect {p Q} :
    (w.leaderLog (w.term p) = none) → (Majority Q) →
    (∀ q ∈ Q, w.voted q (w.term p) (last (w.log p))) →
    Move w { w with leaderLog := Function.update w.leaderLog (w.term p) (some (w.log p)) }
  | extend {t l e} :
    (w.leaderLog t = some l) → (termOf e = t) →
    Move w { w with leaderLog := Function.update w.leaderLog t (some (l ++ [e])) }
  | accept {p l i} :
    (w.leaderLog (w.term p) = some l) → (i < l.length) →
    Move w { w with
      log := Function.update w.log p (merge (w.log p) (l.take (i + 1)))
      acked q t j := w.acked q t j ∨ (q = p ∧ t = w.term p ∧ j ≤ i) }

theorem Move.grows {w₁ w₂ : World P E} (m : Move w₁ w₂) : Grows w₁ w₂ := by
  cases m
  case advance p t h =>
    refine { Grows.refl w₁ with term := fun q => ?_ }
    by_cases hq : q = p
    · subst hq; simpa using h.le
    · simp [hq]
  case vote  => exact { Grows.refl w₁ with voted := fun _ _ _ h => .inl h }
  case elect p Q hn _ _ =>
    refine { Grows.refl w₁ with leader := fun t l h => ?_ }
    have hne : t ≠ w₁.term p := fun hc => by simp [hc ▸ hn] at h
    exact ⟨[], by simpa [Function.update_of_ne hne] using h, nofun⟩
  case extend t l e hl he =>
    refine { Grows.refl w₁ with leader := fun u m h => ?_ }
    by_cases hu : u = t
    case pos =>
      subst hu
      cases hl.symm.trans h
      exact ⟨[e], by simp, by simpa using he⟩
    case neg => exact ⟨[], by simpa [Function.update_of_ne hu] using h, nofun⟩
  case accept => exact { Grows.refl w₁ with acked := fun _ _ _ h => .inl h }

structure Valid (w : World P E) : Prop where
  log_nonempty    : ∀ p, w.log p ≠ []
  log_coherent    : ∀ p, w.Coherent (w.log p)
  log_sorted      : ∀ p, (w.log p).Pairwise (termOf · ≤ termOf ·)
  log_bound       : ∀ p, ∀ e ∈ w.log p, termOf e ≤ w.term p
  leader_coherent : ∀ t l, w.leaderLog t = some l → w.Coherent l
  leader_sorted   : ∀ t l, w.leaderLog t = some l → l.Pairwise (termOf · ≤ termOf ·)
  leader_bound    : ∀ t l, w.leaderLog t = some l → ∀ e ∈ l, termOf e ≤ t
  leader_elected  : ∀ t l, w.leaderLog t = some l → t ≠ 0 →
    ∃ l₀ Q, l₀ ≠ [] ∧ l₀ <+: l ∧ (∀ e ∈ l₀, termOf e < t) ∧
      Majority Q ∧ ∀ q ∈ Q, w.voted q t (last l₀)
  ack_log         : ∀ p t i, w.acked p t i → t ≤ w.term p ∧ ∃ l, w.leaderLog t = some l ∧
    i < l.length ∧ (l.take (i + 1) <+: w.log p ∨ w.Missed t (w.term p) (l.take (i + 1)))
  vote_term       : ∀ p t c, w.voted p t c → t ≤ w.term p
  vote_log        : ∀ p u c t i l e, w.voted p u c → w.acked p t i → t < u →
    w.leaderLog t = some l → l[i]? = some e → termOf e = t →
    UpToDate c (t, i) ∨ w.Missed t (u - 1) (l.take (i + 1))

namespace Valid

variable {w w₁ w₂ : World P E}

-- Leader completeness: by strong induction on the later term. A server that acknowledged the entry
-- and voted for the later leader has either seen a log at most as recent as the one it voted for,
-- or has lost the entry to a leader in between, for which the claim already holds.
theorem chosen_prefix_leader (v : w.Valid) {t i u l m} (hc : w.Chosen t i)
    (hl : w.leaderLog t = some l) (hm : w.leaderLog u = some m) (htu : t ≤ u) :
    l.take (i + 1) <+: m := by
  induction u using Nat.strongRecOn generalizing m
  case _ u hi =>
    cases Nat.eq_or_lt_of_le htu
    case inl h =>
      cases h
      cases hl.symm.trans hm
      exact List.take_prefix _ _
    case inr h =>
      have ⟨l', e, hl', he, het, Q, hQ, hack⟩ := hc
      cases hl.symm.trans hl'
      have ⟨m₀, Q', hn, hp, hlt, hQ', hv⟩ := v.leader_elected u m hm (by omega)
      have ⟨q, hq, hq'⟩ := hQ.inter hQ'
      cases v.vote_log q u _ t i l e (hv q hq') (hack q hq) h hl he het
      case inr hx =>
        have ⟨x, m', h₁, h₂, h₃, h₄⟩ := hx
        exact absurd (hi x (by omega) h₃ h₁.le) h₄
      case inl hx =>
        have ⟨k, hk⟩ : ∃ k, m₀.length = k + 1 := ⟨m₀.length - 1, by
          have := List.length_pos_iff.mpr hn; omega⟩
        have hk' : k < m.length := by have := hp.length_le; omega
        have ha : m₀ = m.take (k + 1) := by rw [←hk]; exact (List.prefix_iff_eq_take.mp hp)
        have hz : m₀.getLast? = some m[k] := by
          rw [List.getLast?_eq_getElem?, hk, ha]; simp [List.getElem?_eq_getElem hk']
        have hb : m[k] ∈ m₀ := List.mem_of_getLast? hz
        have ⟨n, hn₁, hn₂⟩ := v.leader_coherent u m hm k m[k] (List.getElem?_eq_getElem hk')
        rw [←ha] at hn₂
        simp only [UpToDate, last, hz, Option.elim, hk] at hx
        cases hx
        case inr hx =>
          -- The last entry was created in term `t` itself, so the log belongs to that term's
          -- leader.
          rw [←hx.left, hl] at hn₁
          cases hn₁
          have hs : l.take (i + 1) <+: m₀ :=
            List.prefix_of_prefix_length_le (List.take_prefix _ _) hn₂ (by
              simp only [List.length_take]; omega)
          exact hs.trans hp
        case inl hx =>
          have hs := hi _ (hlt _ hb) hn₁ hx.le
          cases List.prefix_or_prefix_of_prefix hs hn₂
          case inl hs => exact hs.trans hp
          case inr hs =>
            have := v.leader_bound t l hl m[k] (List.mem_of_mem_take (hs.subset hb))
            omega

theorem decided_prefix_leader (v : w.Valid) {t u l m} (h : w.Decided t l)
    (hm : w.leaderLog u = some m) (htu : t ≤ u) : l <+: m :=
  have ⟨_, _, _, hx, hc, hl, hp⟩ := h
  hp.trans <| v.chosen_prefix_leader hc hl hm (hx.trans htu)

-- Two decided logs never contradict each other.
theorem decided_comparable (v : w.Valid) {t u l m} (h₁ : w.Decided t l) (h₂ : w.Decided u m) :
    l <+: m ∨ m <+: l := by
  have ⟨x₁, i₁, l₁, _, hc₁, hl₁, hp₁⟩ := h₁
  have ⟨x₂, i₂, l₂, _, hc₂, hl₂, hp₂⟩ := h₂
  have go₁ := v.chosen_prefix_leader hc₁ hl₁ hl₂
  have go₂ := v.chosen_prefix_leader hc₂ hl₂ hl₁
  cases Nat.le_total x₁ x₂
  case inl h =>
    exact List.prefix_or_prefix_of_prefix (hp₁.trans <| go₁ h) (hp₂.trans <| List.take_prefix _ _)
  case inr h =>
    exact List.prefix_or_prefix_of_prefix (hp₁.trans <| List.take_prefix _ _) (hp₂.trans <| go₂ h)

theorem decided_getElem? (v : w.Valid) {t u l m i} (h₁ : w.Decided t l) (h₂ : w.Decided u m)
    (hl : i < l.length) (hm : i < m.length) : l[i]? = m[i]? := by
  cases v.decided_comparable h₁ h₂
  case inl h => rw [List.prefix_iff_getElem?.mp h i hl, List.getElem?_eq_getElem hl]
  case inr h => rw [List.prefix_iff_getElem?.mp h i hm, List.getElem?_eq_getElem hm]

theorem ack_grows (v : w₁.Valid) (g : Grows w₁ w₂) {p t i l} (ha : w₁.acked p t i)
    (hl : w₂.leaderLog t = some l) :
    ∃ m, w₁.leaderLog t = some m ∧ i < m.length ∧ l[i]? = m[i]? ∧
    l.take (i + 1) = m.take (i + 1) := by
  have ⟨_, m, hm, hi, _⟩ := v.ack_log p t i ha
  have ⟨k, hk, _⟩ := g.leader _ _ hm
  cases hl.symm.trans hk
  exact ⟨m, hm, hi, List.getElem?_append_left hi, List.take_append_of_le_length hi⟩

theorem take_bound (v : w.Valid) {t l} (hl : w.leaderLog t = some l) (i : Nat) :
    ∀ e ∈ l.take i, termOf e ≤ t :=
  fun e he => v.leader_bound t l hl e (List.mem_of_mem_take he)

-- Acknowledgements and votes that are already there survive as long as no server log is touched.
theorem ack_log_grows (v : w₁.Valid) (g : Grows w₁ w₂) (h : w₂.log = w₁.log) {p t i}
    (ha : w₁.acked p t i) : t ≤ w₂.term p ∧ ∃ l, w₂.leaderLog t = some l ∧
    i < l.length ∧ (l.take (i + 1) <+: w₂.log p ∨ w₂.Missed t (w₂.term p) (l.take (i + 1))) := by
  have ⟨ht, l, hl, hi, hd⟩ := v.ack_log p t i ha
  have ⟨k, hk, _⟩ := g.leader _ _ hl
  refine ⟨ht.trans (g.term p), l ++ k, hk, by simp; omega, ?_⟩
  rw [List.take_append_of_le_length hi, h]
  exact hd.imp_right fun hd => g.missed hd (v.take_bound hl _) (g.term p)

theorem vote_log_grows (v : w₁.Valid) (g : Grows w₁ w₂) {p u c t i l e} (hv : w₁.voted p u c)
    (ha : w₁.acked p t i) (ht : t < u) (hl : w₂.leaderLog t = some l) (he : l[i]? = some e)
    (het : termOf e = t) : UpToDate c (t, i) ∨ w₂.Missed t (u - 1) (l.take (i + 1)) := by
  have ⟨m, hm, hi, hx, hy⟩ := v.ack_grows g ha hl
  rw [hy]
  exact (v.vote_log p u c t i m e hv ha ht hm (hx ▸ he) het).imp_right
    fun hd => g.missed hd (v.take_bound hm _) le_rfl

theorem elected_grows (v : w₁.Valid) (g : Grows w₁ w₂) {t l k}
    (hl : w₁.leaderLog t = some l) (ht : t ≠ 0) : ∃ l₀ Q, l₀ ≠ [] ∧ l₀ <+: l ++ k ∧
      (∀ e ∈ l₀, termOf e < t) ∧ Majority Q ∧ ∀ q ∈ Q, w₂.voted q t (last l₀) := by
  have ⟨l₀, Q, h₁, h₂, h₃, h₄, h₅⟩ := v.leader_elected t l hl ht
  exact ⟨l₀, Q, h₁, h₂.trans (List.prefix_append _ _), h₃, h₄, fun q hq => g.voted _ _ _ (h₅ q hq)⟩

theorem advance (v : w.Valid) {p t} (h : w.term p < t) :
    Valid { w with term := Function.update w.term p t } := by
  have g := Move.advance h |>.grows
  exact { v with
    log_bound q e he     := (v.log_bound q e he).trans (g.term q)
    ack_log _ _ _ ha     := v.ack_log_grows g rfl ha
    vote_term q u c hv   := (v.vote_term q u c hv).trans (g.term q) }

theorem vote (v : w.Valid) {p c} (hn : w.leaderLog (w.term p) = none)
    (hc : UpToDate c (last (w.log p))) :
    Valid { w with voted q t d := w.voted q t d ∨ (q = p ∧ t = w.term p ∧ d = c) } := by
  have g := Move.vote hn hc |>.grows
  refine { v with leader_elected t l hl ht := ?elected, vote_term q t d hd := ?term,
                  vote_log := ?log }
  case elected => simpa using v.elected_grows (k := []) g hl ht
  case term => exact hd.elim (v.vote_term q t d) fun ⟨hq, ht, _⟩ => by rw [hq, ht]
  case log =>
    intro q u d t i l e hd ha ht hl he het
    cases hd
    case inl hd => exact v.vote_log_grows g hd ha ht hl he het
    case inr hd =>
      obtain ⟨rfl, rfl, rfl⟩ := hd
      have ⟨_, m, hm, _, hx⟩ := v.ack_log _ _ _ ha
      cases hl.symm.trans hm
      cases hx
      case inl hx => exact .inl <| hc.trans <| het ▸ last_upToDate (v.log_sorted _) he hx
      case inr hx =>
        -- The leader that missed the log is one of an earlier term, as this term has none yet.
        have ⟨x, n, h₁, h₂, h₃, h₄⟩ := hx
        have hne : x ≠ w.term q := fun h => by simp [h, hn] at h₃
        exact .inr ⟨x, n, h₁, by omega, h₃, h₄⟩

theorem elect (v : w.Valid) {p Q} (hn : w.leaderLog (w.term p) = none) (hQ : Majority Q)
    (hv : ∀ q ∈ Q, w.voted q (w.term p) (last (w.log p))) :
    Valid { w with leaderLog := Function.update w.leaderLog (w.term p) (some (w.log p)) } := by
  have g := Move.elect hn hQ hv |>.grows
  have cases {t l} (h : Function.update w.leaderLog (w.term p) (some (w.log p)) t = some l) :
      (t = w.term p ∧ l = w.log p) ∨ w.leaderLog t = some l := by
    by_cases ht : t = w.term p
    · subst ht; simp at h; exact .inl ⟨rfl, h.symm⟩
    · rw [Function.update_of_ne ht] at h; exact .inr h
  refine { v with
    log_coherent q             := g.coherent (v.log_coherent q)
    leader_coherent t l hl     := g.coherent ?coherent
    leader_sorted t l hl       := ?sorted
    leader_bound t l hl        := ?bound
    leader_elected t l hl ht   := ?elected
    ack_log _ _ _ ha           := v.ack_log_grows g rfl ha
    vote_log _ _ _ _ _ _ _     := v.vote_log_grows g }
  all_goals cases cases hl
  case coherent.inl h => exact h.right ▸ v.log_coherent p
  case coherent.inr h => exact v.leader_coherent t l h
  case sorted.inl h   => exact h.right ▸ v.log_sorted p
  case sorted.inr h   => exact v.leader_sorted t l h
  case bound.inl h    => exact h.left ▸ h.right ▸ v.log_bound p
  case bound.inr h    => exact v.leader_bound t l h
  case elected.inr h  => simpa using v.elected_grows (k := []) g h ht
  case elected.inl h =>
    obtain ⟨rfl, rfl⟩ := h
    refine ⟨_, Q, v.log_nonempty p, List.prefix_refl _, fun e he => ?_, hQ, hv⟩
    have ⟨i, hi, hx⟩ := List.mem_iff_getElem.mp he
    have ⟨m, hm, _⟩ := v.log_coherent p i e (hx ▸ List.getElem?_eq_getElem hi)
    refine Nat.lt_of_le_of_ne (v.log_bound p e he) fun hc => ?_
    simp [hc, hn] at hm

theorem extend (v : w.Valid) {t l e} (hl : w.leaderLog t = some l) (he : termOf e = t) :
    Valid { w with leaderLog := Function.update w.leaderLog t (some (l ++ [e])) } := by
  have g := Move.extend hl he |>.grows
  have cases {u m} (h : Function.update w.leaderLog t (some (l ++ [e])) u = some m) :
      (u = t ∧ m = l ++ [e]) ∨ w.leaderLog u = some m := by
    by_cases hu : u = t
    · subst hu; simp at h; exact .inl ⟨rfl, h.symm⟩
    · rw [Function.update_of_ne hu] at h; exact .inr h
  refine { v with
    log_coherent q             := g.coherent (v.log_coherent q)
    leader_coherent u m hm     := ?coherent
    leader_sorted u m hm       := ?sorted
    leader_bound u m hm        := ?bound
    leader_elected u m hm hu   := ?elected
    ack_log _ _ _ ha           := v.ack_log_grows g rfl ha
    vote_log _ _ _ _ _ _ _     := v.vote_log_grows g }
  all_goals cases cases hm
  case coherent.inr h => exact g.coherent <| v.leader_coherent u m h
  case sorted.inr h   => exact v.leader_sorted u m h
  case bound.inr h    => exact v.leader_bound u m h
  case elected.inr h  => simpa using v.elected_grows (k := []) g h hu
  all_goals obtain ⟨rfl, rfl⟩ := ‹_ ∧ _›
  case elected.inl => exact v.elected_grows g hl hu
  case sorted.inl =>
    refine List.pairwise_append.mpr ⟨v.leader_sorted u l hl, by simp, fun a ha b hb => ?_⟩
    simp only [List.mem_singleton] at hb
    exact hb ▸ he ▸ v.leader_bound u l hl a ha
  case bound.inl =>
    intro a ha
    cases List.mem_append.mp ha
    case inl ha => exact v.leader_bound u l hl a ha
    case inr ha => simp at ha; simp [ha, he]
  case coherent.inl =>
    intro i a ha
    by_cases hi : i < l.length
    case pos =>
      rw [List.getElem?_append_left hi] at ha
      rw [List.take_append_of_le_length hi]
      exact g.coherent (v.leader_coherent u l hl) i a ha
    case neg =>
      have hx : i = l.length := by
        have := (List.getElem?_eq_some_iff.mp ha).choose
        simp at this; omega
      subst hx
      simp at ha
      subst ha
      exact ⟨l ++ [e], by simp [he], List.take_prefix _ _⟩

theorem accept (v : w.Valid) {p l i} (hl : w.leaderLog (w.term p) = some l) (hi : i < l.length) :
    Valid { w with
      log := Function.update w.log p (merge (w.log p) (l.take (i + 1)))
      acked q t j := w.acked q t j ∨ (q = p ∧ t = w.term p ∧ j ≤ i) } := by
  have g := Move.accept hl hi |>.grows
  have hnil : l.take (i + 1) ≠ [] := by cases l <;> simp_all
  have lift (I : P → List E → Prop) (h : ∀ q, I q (w.log q)) (hp : I p (l.take (i + 1))) (q : P) :
      I q (Function.update w.log p (merge (w.log p) (l.take (i + 1))) q) := by
    by_cases hq : q = p
    · subst hq
      simp only [Function.update_self, merge]
      split
      · exact h q
      · exact hp
    · rw [Function.update_of_ne hq]; exact h q
  refine { v with
    log_nonempty := lift (fun _ m => m ≠ []) v.log_nonempty hnil
    log_coherent := lift (fun _ m => w.Coherent m) v.log_coherent <|
      (v.leader_coherent _ _ hl).restrict (List.take_prefix _ _)
    log_sorted   := lift (fun _ m => m.Pairwise _) v.log_sorted <|
      (v.leader_sorted _ _ hl).sublist (List.take_sublist _ _)
    log_bound    := lift (fun q m => ∀ e ∈ m, termOf e ≤ w.term q) v.log_bound (v.take_bound hl _)
    ack_log q t j ha := ?ack
    vote_log q u c t j m e hv ha ht hm he het := ?vote }
  case vote =>
    cases ha
    case inl ha => exact v.vote_log_grows g hv ha ht hm he het
    case inr ha =>
      have := v.vote_term q u c hv
      have := ha.left ▸ ha.right.left
      omega
  case ack =>
    cases ha
    case inr ha =>
      obtain ⟨rfl, rfl, hj⟩ := ha
      refine ⟨le_rfl, l, hl, by omega, .inl ?_⟩
      simp only [Function.update_self]
      exact (List.take_prefix_take_left (by omega)).trans (prefix_merge _ _)
    case inl ha =>
      have ⟨ht, m, hm, hj, hx⟩ := v.ack_log q t j ha
      refine ⟨ht, m, hm, hj, ?_⟩
      by_cases hq : q = p
      case neg => simp only [Function.update_of_ne hq]; exact hx
      case pos =>
        subst hq
        simp only [Function.update_self, merge]
        split
        case isTrue => exact hx
        case isFalse hc =>
          -- The server gives up its own log. What it had acknowledged is either in the log it takes
          -- over or else is missing from the log of the current leader.
          refine hx.elim (fun hx => ?_) .inr
          by_cases hp : m.take (j + 1) <+: l
          case pos =>
            refine .inl <|
              (List.prefix_or_prefix_of_prefix hp (List.take_prefix (i + 1) l)).resolve_right ?_
            exact fun h => hc (h.trans hx)
          case neg =>
            refine .inr ⟨w.term q, l, Nat.lt_of_le_of_ne ht fun h => hp ?_, le_rfl, hl, hp⟩
            rw [h, hl] at hm
            cases hm
            exact List.take_prefix _ _

end Valid

theorem Move.valid {w₁ w₂ : World P E} (m : Move w₁ w₂) (v : w₁.Valid) : w₂.Valid := by
  cases m
  case advance h        => exact v.advance h
  case vote hn hc       => exact v.vote hn hc
  case elect hn hQ hv   => exact v.elect hn hQ hv
  case extend hl he     => exact v.extend hl he
  case accept hl hi     => exact v.accept hl hi

-- Sequences of moves
abbrev Moves : World P E → World P E → Prop :=
  Relation.ReflTransGen Move

theorem Moves.grows {w₁ w₂ : World P E} (m : Moves w₁ w₂) : Grows w₁ w₂ := by
  induction m
  case refl         => exact .refl w₁
  case tail _ m hi  => exact hi.trans m.grows

theorem Moves.valid {w₁ w₂ : World P E} (m : Moves w₁ w₂) (v : w₁.Valid) : w₂.Valid := by
  induction m
  case refl         => exact v
  case tail _ m hi  => exact m.valid hi

-- Each function is a move, or leaves the world as it is

section

variable {w : World P E} {p q : P} {t i : Nat} {c : Nat × Nat} {l : List E} {e : E}

theorem moves_observed (w : World P E) (p : P) (t : Nat) : Moves w (w.observed p t) := by
  simp only [observed]
  split
  case isTrue h => exact .single (.advance h)
  case isFalse  => exact .refl

theorem moves_polled (h : UpToDate c (last (w.log p))) : Moves w (w.polled p c) := by
  simp only [polled]
  split
  case isTrue hn => exact .single (.vote hn h)
  case isFalse   => exact .refl

theorem moves_accepted (hl : w.leaderLog (w.term p) = some l) (hi : i < l.length) :
    Moves w (w.accepted p l i) :=
  .single (.accept hl hi)

theorem moves_extended (hl : w.leaderLog (w.term p) = some (w.log p)) (he : termOf e = w.term p) :
    Moves w (w.extended p e) :=
  .trans (.single (.extend hl he)) <|
    moves_accepted (Function.update_self (w.term p) _ w.leaderLog) (by simp)

theorem moves_elected {Q : Finset P} (hn : w.leaderLog (w.term p) = none) (hQ : Majority Q)
    (hv : ∀ q ∈ Q, w.voted q (w.term p) (last (w.log p))) : Moves w (w.elected p) :=
  .single (.elect hn hQ hv)

end

-- The world in which every server holds the one entry `e` that all logs start with.
def genesis (P : Type) (e : E) : World P E where
  term _        := 0
  log _         := [e]
  leaderLog t   := if t = 0 then some [e] else none
  acked _ t i   := t = 0 ∧ i = 0
  voted _ _ _   := False

theorem genesis_valid {e : E} (he : termOf e = 0) : (genesis P e).Valid where
  log_nonempty        := by simp [genesis]
  log_coherent _      := genesis_coherent he
  log_sorted          := by simp [genesis]
  log_bound           := by simp [genesis, he]
  leader_coherent t l := by
    simp only [genesis]; split <;> simp; rintro rfl; exact genesis_coherent he
  leader_sorted t l   := by simp only [genesis]; split <;> simp; rintro rfl; simp
  leader_bound t l    := by simp only [genesis]; split <;> simp; rintro rfl; simp [he]
  leader_elected t l  := by simp only [genesis]; split <;> simp_all
  ack_log             := by simp [genesis]
  vote_term           := by simp [genesis]
  vote_log            := by simp [genesis]
where
  genesis_coherent {e : E} (he : termOf e = 0) : (genesis P e).Coherent [e] := by
    rintro (_ | i) d hd <;> simp at hd
    subst hd
    exact ⟨[e], by simp [genesis, he], by simp⟩

theorem genesis_decided [Nonempty P] {e : E} (he : termOf e = 0) : (genesis P e).Decided 0 [e] := by
  refine ⟨0, 0, [e], le_rfl, ⟨[e], e, rfl, rfl, he, Finset.univ, .univ, fun _ _ => ⟨rfl, rfl⟩⟩, rfl,
    ?_⟩
  exact List.prefix_refl _

end World
end TermLog
