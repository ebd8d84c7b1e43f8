import Mathlib.Tactic

-- Histories of the operations that concurrent clients perform on one object. A history is
-- linearizable if it looks as if each operation had been executed at once, at some moment between
-- its call and its return.
namespace Linearizability

variable {P S T I O K : Type}

structure Operation (I O : Type) where
  input  : I
  output : O
  call   : Nat
  ret    : Nat
  deriving DecidableEq

-- Whether the object may answer an input with an output, and its state afterwards.
structure Model (S I O : Type) where
  init : S
  step : S → I → O → Bool × S

def Model.run (M : Model S I O) : S → List (Operation I O) → Option S
  | s, []        => some s
  | s, op :: ops =>
    match M.step s op.input op.output with
    | (true, s') => M.run s' ops
    | (false, _) => none

def Operation.Precedes (a b : Operation I O) : Prop :=
  a.ret < b.call

def Linearizable (M : Model S I O) (history : List (Operation I O)) : Prop :=
  ∃ l, l.Perm history ∧ l.Pairwise (fun a b => ¬b.Precedes a) ∧ (M.run M.init l).isSome

-- Operations that have not returned yet may have taken effect. They are given by their inputs and
-- the times of their calls.
def Completable (M : Model S I O) (history : List (Operation I O)) (pending : P → Option (I × Nat))
    (now : Nat) : Prop :=
  ∃ late : List (P × Operation I O), (late.map Prod.fst).Nodup ∧
    (∀ x ∈ late, pending x.fst = some (x.snd.input, x.snd.call) ∧ x.snd.ret = now) ∧
    Linearizable M (history ++ late.map Prod.snd)

theorem Completable.linearizable {M : Model S I O} {history : List (Operation I O)} {now : Nat}
    {pending : P → Option (I × Nat)} (h : Completable M history pending now)
    (hp : ∀ p, pending p = none) : Linearizable M history := by
  obtain ⟨late, -, hl, h⟩ := h
  cases late
  case nil       => simpa using h
  case cons x xs =>
    have hx := (hl x (List.mem_cons_self ..)).left
    simp [hp] at hx

namespace Model

variable {M : Model S I O} {N : Model T I O} {ops : List (Operation I O)}

theorem run_cons_iff {s s' : S} {op : Operation I O} :
    M.run s (op :: ops) = some s' ↔
    ∃ s'', M.step s op.input op.output = (true, s'') ∧ M.run s'' ops = some s' := by
  rw [run]
  rcases h : M.step s op.input op.output with ⟨_ | _, s''⟩ <;> simp

-- A model that accepts all steps of another one accepts all of its runs.
theorem run_map (f : S → T)
    (hs : ∀ op ∈ ops, ∀ s s', M.step s op.input op.output = (true, s') →
      N.step (f s) op.input op.output = (true, f s'))
    {s s' : S} (h : M.run s ops = some s') : N.run (f s) ops = some (f s') := by
  induction ops generalizing s
  case nil            => cases h; rfl
  case cons op ops hi =>
    have ⟨s'', h₁, h₂⟩ := run_cons_iff.mp h
    refine run_cons_iff.mpr ⟨f s'', hs op (List.mem_cons_self ..) s s'' h₁, ?_⟩
    exact hi (fun op hm => hs op (List.mem_cons_of_mem _ hm)) h₂

-- One object for each key.
def each [DecidableEq K] (M : Model S I O) (key : I → K) : Model (K → S) I O where
  init _     := M.init
  step s i o :=
    let (ok, s') := M.step (s (key i)) i o
    (ok, Function.update s (key i) s')

variable [DecidableEq K] {key : I → K}

theorem each_step {s s' : K → S} {i : I} {o : O} (h : (M.each key).step s i o = (true, s')) :
    M.step (s (key i)) i o = (true, s' (key i)) ∧ ∀ k ≠ key i, s' k = s k := by
  simp only [each, Prod.mk.injEq] at h
  obtain ⟨ho, rfl⟩ := h
  refine ⟨?_, fun k hk => Function.update_of_ne hk ..⟩
  rw [Function.update_self, ←ho]

theorem run_each (k : K) {s s' : K → S} (h : (M.each key).run s ops = some s') :
    M.run (s k) (ops.filter (key ·.input = k)) = some (s' k) := by
  induction ops generalizing s
  case nil            => cases h; rfl
  case cons op ops hi =>
    have ⟨s'', h₁, h₂⟩ := run_cons_iff.mp h
    have ⟨ht, hn⟩ := each_step h₁
    by_cases hk : key op.input = k
    case pos =>
      subst hk
      rw [List.filter_cons_of_pos (by simp)]
      exact run_cons_iff.mpr ⟨_, ht, hi h₂⟩
    case neg =>
      rw [List.filter_cons_of_neg (by simpa using hk), ←hn k (Ne.symm hk)]
      exact hi h₂

end Model

namespace Linearizable

variable {M : Model S I O} {N : Model T I O} {ops : List (Operation I O)}

theorem map (f : S → T) (hi : N.init = f M.init)
    (hs : ∀ op ∈ ops, ∀ s s', M.step s op.input op.output = (true, s') →
      N.step (f s) op.input op.output = (true, f s'))
    (h : Linearizable M ops) : Linearizable N ops := by
  have ⟨l, hp, ho, hr⟩ := h
  have ⟨s, hr⟩ := Option.isSome_iff_exists.mp hr
  refine ⟨l, hp, ho, ?_⟩
  rw [hi, Model.run_map f (fun op hm => hs op (hp.mem_iff.mp hm)) hr]
  rfl

-- The operations on one key of a linearizable history.
theorem filter [DecidableEq K] {key : I → K} (h : Linearizable (M.each key) ops) (k : K) :
    Linearizable M (ops.filter (key ·.input = k)) := by
  have ⟨l, hp, ho, hr⟩ := h
  have ⟨s, hr⟩ := Option.isSome_iff_exists.mp hr
  refine ⟨l.filter (key ·.input = k), hp.filter _, ho.filter _, ?_⟩
  have hr := Model.run_each k hr
  exact Option.isSome_iff_exists.mpr ⟨_, hr⟩

end Linearizable

-- An operation in progress. It takes effect at one step of the object, from one state to another.
structure Invocation (S I : Type) where
  input  : I
  call   : Nat
  effect : Option (S × S)

-- The object with its clients, of which each has at most one operation in progress.
structure Atomic (P S I O : Type) where
  state   : S
  now     : Nat
  pending : P → Option (Invocation S I)
  history : List (Operation I O)

namespace Atomic

def init (M : Model S I O) : Atomic P S I O where
  state     := M.init
  now       := 0
  pending _ := none
  history   := []

variable [DecidableEq P]

def set (a : Atomic P S I O) (p : P) (inv : Option (Invocation S I)) : Atomic P S I O :=
  { a with pending := Function.update a.pending p inv }

inductive Step (M : Model S I O) (a : Atomic P S I O) : Atomic P S I O → Prop
  | tick : Step M a { a with now := a.now + 1 }
  | invoke (p) (i) : (a.pending p = none) → Step M a (a.set p (some ⟨i, a.now, none⟩))
  -- An effect that has not changed anything may be replaced by a later one.
  | effect (p) {inv o after} :
    (a.pending p = some inv) → (∀ e ∈ inv.effect, e.fst = e.snd) →
    (M.step a.state inv.input o = (true, after)) →
    Step M a { a.set p (some { inv with effect := some (a.state, after) }) with state := after }
  | respond (p) (o) {inv before after} :
    (a.pending p = some inv) → (inv.effect = some (before, after)) →
    (M.step before inv.input o = (true, after)) →
    Step M a { a.set p none with history := a.history ++ [⟨inv.input, o, inv.call, a.now⟩] }

abbrev Steps (M : Model S I O) : Atomic P S I O → Atomic P S I O → Prop :=
  Relation.ReflTransGen (Step M)

end Atomic

-- Where in the order of all effects an operation has its own. It has returned or is the one of `p`.
structure Point (P S I O : Type) where
  op     : Operation I O ⊕ P
  time   : Nat
  before : S
  after  : S

namespace Point

-- The effects lead from one state to the other.
def Chain : S → List (Point P S I O) → S → Prop
  | s, [], s'     => s = s'
  | s, x :: l, s' => x.before = s ∧ Chain x.after l s'

theorem chain_append {s s' : S} {l l' : List (Point P S I O)} :
    Chain s (l ++ l') s' ↔ ∃ s'', Chain s l s'' ∧ Chain s'' l' s' := by
  induction l generalizing s
  case nil          => simp [Chain]
  case cons x l hi  => simp [Chain, hi, and_assoc]

theorem Chain.concat {s s' : S} {l : List (Point P S I O)} {x : Point P S I O} (h : Chain s l s')
    (hx : x.before = s') : Chain s (l ++ [x]) x.after :=
  chain_append.mpr ⟨s', h, hx, rfl⟩

-- An effect that does not change anything can be taken out.
theorem Chain.erase {s s' : S} {l l' : List (Point P S I O)} {x : Point P S I O}
    (h : Chain s (l ++ x :: l') s') (hx : x.before = x.after) : Chain s (l ++ l') s' := by
  have ⟨s'', h₁, h₂, h₃⟩ := chain_append.mp h
  exact chain_append.mpr ⟨s'', h₁, h₂ ▸ hx ▸ h₃⟩

theorem Chain.replace {s s' : S} {l l' : List (Point P S I O)} {x y : Point P S I O}
    (h : Chain s (l ++ x :: l') s') (hb : y.before = x.before) (ha : y.after = x.after) :
    Chain s (l ++ y :: l') s' := by
  have ⟨s'', h₁, h₂, h₃⟩ := chain_append.mp h
  exact chain_append.mpr ⟨s'', h₁, hb.trans h₂, ha ▸ h₃⟩

end Point

-- An order of the effects that accounts for everything that has happened to the object.
structure Explains (M : Model S I O) (a : Atomic P S I O) (l : List (Point P S I O)) : Prop where
  chain    : Point.Chain M.init l a.state
  sorted   : l.Pairwise (·.time ≤ ·.time)
  past     : ∀ x ∈ l, x.time ≤ a.now
  called   : ∀ p inv, a.pending p = some inv → inv.call ≤ a.now
  returned : (l.filterMap (·.op.getLeft?)).Perm a.history
  sound    : ∀ x ∈ l, ∀ op, x.op = .inl op →
    op.call ≤ x.time ∧ x.time ≤ op.ret ∧ M.step x.before op.input op.output = (true, x.after)
  owned    : ∀ x ∈ l, ∀ p, x.op = .inr p → ∃ inv o, a.pending p = some inv ∧ inv.call ≤ x.time ∧
    inv.effect = some (x.before, x.after) ∧ M.step x.before inv.input o = (true, x.after)
  effected : ∀ p inv e, a.pending p = some inv → inv.effect = some e → ∃ x ∈ l, x.op = .inr p
  single   : (l.filterMap (·.op.getRight?)).Nodup

namespace Explains

variable {M : Model S I O} {a a' : Atomic P S I O} {l : List (Point P S I O)}

theorem init : Explains M (.init M : Atomic P S I O) [] := by
  constructor <;> simp [Atomic.init, Point.Chain]

theorem tick (h : Explains M a l) : Explains M { a with now := a.now + 1 } l :=
  { h with
    past   := fun x hx => Nat.le_succ_of_le (h.past x hx)
    called := fun p inv hp => Nat.le_succ_of_le (h.called p inv hp) }

-- A client without an effect has no place in the order.
theorem not_owned (h : Explains M a l) {p : P}
    (hp : ∀ inv, a.pending p = some inv → inv.effect = none) {x : Point P S I O} (hx : x ∈ l) :
    x.op ≠ .inr p := by
  intro ho
  have ⟨inv, _, hi, _, he, _⟩ := h.owned x hx p ho
  simp [hp inv hi] at he

-- The client of a place is the only one there.
theorem eq_of_owner (h : Explains M a l) {l₁ l₂ : List (Point P S I O)} {x y : Point P S I O}
    {p : P} (hl : l = l₁ ++ x :: l₂) (hx : x.op = .inr p) (hy : y ∈ l₁ ++ l₂) : y.op ≠ .inr p := by
  intro ho
  have hs := h.single
  rw [hl, List.filterMap_append, List.filterMap_cons_some (by rw [hx]; rfl)] at hs
  have hs := (List.nodup_middle.mp hs).notMem
  rw [←List.filterMap_append] at hs
  exact hs (List.mem_filterMap.mpr ⟨y, hy, by rw [ho]; rfl⟩)

variable [DecidableEq P]

theorem invoke (h : Explains M a l) {p : P} (hn : a.pending p = none) (i : I) :
    Explains M (a.set p (some ⟨i, a.now, none⟩)) l := by
  refine { h with called := ?called, owned := ?owned, effected := ?effected }
  case called =>
    intro q inv hq
    by_cases hqp : q = p
    case pos =>
      subst hqp
      obtain rfl : _ = inv := by simpa [Atomic.set] using hq
      exact le_rfl
    case neg => exact h.called q inv (by simpa [Atomic.set, hqp] using hq)
  case owned =>
    intro x hx q ho
    have ⟨inv, o, hi, hr⟩ := h.owned x hx q ho
    have hqp : q ≠ p := by
      rintro rfl
      simp [hn] at hi
    exact ⟨inv, o, by simpa [Atomic.set, hqp] using hi, hr⟩
  case effected =>
    intro q inv e hq he
    by_cases hqp : q = p
    case pos =>
      subst hqp
      obtain rfl : _ = inv := by simpa [Atomic.set] using hq
      cases he
    case neg => exact h.effected q inv e (by simpa [Atomic.set, hqp] using hq) he

-- The effect is the last one for now.
theorem concat (h : Explains M a l) {p : P} {inv : Invocation S I} {o : O} {after : S}
    (hp : a.pending p = some inv) (hl : ∀ x ∈ l, x.op ≠ .inr p)
    (hs : M.step a.state inv.input o = (true, after)) :
    Explains M { a.set p (some { inv with effect := some (a.state, after) }) with state := after }
      (l ++ [⟨.inr p, a.now, a.state, after⟩]) where
  chain      := h.chain.concat rfl
  sorted     :=
    List.pairwise_append.mpr ⟨h.sorted, List.pairwise_singleton .., by simpa using h.past⟩
  past       := by simpa [or_imp, forall_and, Atomic.set] using h.past
  called q i hq := by
    by_cases hqp : q = p
    case pos =>
      subst hqp
      obtain rfl : _ = i := by simpa [Atomic.set] using hq
      exact h.called q inv hp
    case neg => exact h.called q i (by simpa [Atomic.set, hqp] using hq)
  returned   := by simpa [List.filterMap_cons, Atomic.set] using h.returned
  sound x hx := by
    rcases List.mem_append.mp hx with hx | hx
    · exact h.sound x hx
    · obtain rfl := List.mem_singleton.mp hx
      exact nofun
  owned x hx q ho := by
    rcases List.mem_append.mp hx with hx | hx
    · have ⟨i, o', hi, hr⟩ := h.owned x hx q ho
      have hqp : q ≠ p := fun he => hl x hx (he ▸ ho)
      exact ⟨i, o', by simpa [Atomic.set, hqp] using hi, hr⟩
    · obtain rfl := List.mem_singleton.mp hx
      cases ho
      exact ⟨_, o, Function.update_self .., h.called p inv hp, rfl, hs⟩
  effected q i e hq he := by
    by_cases hqp : q = p
    case pos => exact ⟨_, List.mem_append_right _ (List.mem_singleton_self _), hqp ▸ rfl⟩
    case neg =>
      have ⟨x, hx, ho⟩ := h.effected q i e (by simpa [Atomic.set, hqp] using hq) he
      exact ⟨x, List.mem_append_left _ hx, ho⟩
  single     := by
    rw [List.filterMap_append]
    refine List.nodup_append.mpr ⟨h.single, List.nodup_singleton p, fun q hq r hr => ?_⟩
    obtain rfl : r = p := by simpa using hr
    rintro rfl
    have ⟨x, hx, ho⟩ := List.mem_filterMap.mp hq
    exact hl x hx (Sum.getRight?_eq_some_iff.mp ho)

-- An effect that has not changed anything is forgotten.
theorem forget (h : Explains M a l) {p : P} {inv : Invocation S I} {s : S}
    (hp : a.pending p = some inv) (he : inv.effect = some (s, s)) :
    ∃ l', Explains M (a.set p (some { inv with effect := none })) l' := by
  obtain ⟨x, hx, ho⟩ := h.effected p inv _ hp he
  obtain ⟨l₁, l₂, rfl⟩ := List.append_of_mem hx
  have hsub : List.Sublist (l₁ ++ l₂) (l₁ ++ x :: l₂) :=
    (List.sublist_cons_self x l₂).append_left l₁
  have hne (y) (hy : y ∈ l₁ ++ l₂) : y.op ≠ .inr p := h.eq_of_owner rfl ho hy
  have ⟨i, o, hi, hc, hie, hs⟩ := h.owned x hx p ho
  obtain rfl := Option.some.inj (hp.symm.trans hi)
  obtain ⟨rfl, hxa⟩ := Prod.mk.inj (Option.some.inj (he.symm.trans hie))
  refine ⟨l₁ ++ l₂, ?_⟩
  refine {
    chain      := h.chain.erase hxa
    sorted     := h.sorted.sublist hsub
    past y hy  := h.past y (hsub.mem hy)
    called     := ?called
    returned   := ?returned
    sound y hy := h.sound y (hsub.mem hy)
    owned      := ?owned
    effected   := ?effected
    single     := h.single.sublist (hsub.filterMap _)
  }
  case called =>
    intro q i hq
    by_cases hqp : q = p
    case pos =>
      subst hqp
      obtain rfl : _ = i := by simpa [Atomic.set] using hq
      exact h.called q inv hp
    case neg => exact h.called q i (by simpa [Atomic.set, hqp] using hq)
  case returned => simpa [ho, Atomic.set] using h.returned
  case owned =>
    intro y hy q hq
    have ⟨i, o', hi, hr⟩ := h.owned y (hsub.mem hy) q hq
    have hqp : q ≠ p := fun he => hne y hy (he ▸ hq)
    exact ⟨i, o', by simpa [Atomic.set, hqp] using hi, hr⟩
  case effected =>
    intro q i e hq he
    by_cases hqp : q = p
    case pos =>
      subst hqp
      obtain rfl : _ = i := by simpa [Atomic.set] using hq
      cases he
    case neg =>
      have ⟨y, hy, hyo⟩ := h.effected q i e (by simpa [Atomic.set, hqp] using hq) he
      have hyx : y ≠ x := by
        rintro rfl
        cases hyo.symm.trans ho
        exact hqp rfl
      exact ⟨y, by simpa [hyx] using hy, hyo⟩

theorem effect (h : Explains M a l) {p : P} {inv : Invocation S I} {o : O} {after : S}
    (hp : a.pending p = some inv) (he : ∀ e ∈ inv.effect, e.fst = e.snd)
    (hs : M.step a.state inv.input o = (true, after)) :
    ∃ l', Explains M
      { a.set p (some { inv with effect := some (a.state, after) }) with state := after } l' := by
  cases hi : inv.effect
  case none =>
    refine ⟨_, h.concat hp (fun x hx => h.not_owned (fun i hq => ?_) hx) hs⟩
    rwa [←Option.some.inj (hp.symm.trans hq)]
  case some e =>
    -- It is forgotten first, then the client is like one without an effect.
    obtain ⟨s, s'⟩ := e
    obtain rfl : s = s' := he _ hi
    obtain ⟨l', h'⟩ := h.forget hp hi
    have hp' : (a.set p (some { inv with effect := none })).pending p =
        some { inv with effect := none } :=
      Function.update_self ..
    have hn (x) (hx : x ∈ l') : x.op ≠ .inr p := by
      refine h'.not_owned (fun i hq => ?_) hx
      rw [←Option.some.inj (hp'.symm.trans hq)]
    have h'' := h'.concat hp' hn hs
    simp only [Atomic.set, Function.update_idem] at h'' ⊢
    exact ⟨_, h''⟩

theorem respond (h : Explains M a l) {p : P} {inv : Invocation S I} {o : O} {before after : S}
    (hp : a.pending p = some inv) (he : inv.effect = some (before, after))
    (hs : M.step before inv.input o = (true, after)) :
    ∃ l', Explains M
      { a.set p none with history := a.history ++ [⟨inv.input, o, inv.call, a.now⟩] } l' := by
  obtain ⟨x, hx, ho⟩ := h.effected p inv _ hp he
  obtain ⟨l₁, l₂, rfl⟩ := List.append_of_mem hx
  have hne (y) (hy : y ∈ l₁ ++ l₂) : y.op ≠ .inr p := h.eq_of_owner rfl ho hy
  have ⟨i, o', hi, hc, hie, _⟩ := h.owned x hx p ho
  obtain rfl := Option.some.inj (hp.symm.trans hi)
  obtain ⟨rfl, rfl⟩ := Prod.mk.inj (Option.some.inj (he.symm.trans hie))
  let y : Point P S I O := { x with op := .inl ⟨inv.input, o, inv.call, a.now⟩ }
  have hmem {z} : z ∈ l₁ ++ y :: l₂ ↔ z = y ∨ z ∈ l₁ ++ l₂ := by simp; tauto
  have hold {z} (hz : z ∈ l₁ ++ l₂) : z ∈ l₁ ++ x :: l₂ := by simp at hz ⊢; tauto
  refine ⟨l₁ ++ y :: l₂, ?_⟩
  refine {
    chain    := h.chain.replace rfl rfl
    sorted   := ?sorted
    past     := ?past
    called   := ?called
    returned := ?returned
    sound    := ?sound
    owned    := ?owned
    effected := ?effected
    single   := ?single
  }
  case sorted =>
    have hs := h.sorted
    simpa [List.pairwise_append, y] using hs
  case past =>
    intro z hz
    rcases hmem.mp hz with rfl | hz
    · exact h.past x hx
    · exact h.past z (hold hz)
  case called =>
    intro q i hq
    have hqp : q ≠ p := by
      rintro rfl
      simp [Atomic.set] at hq
    exact h.called q i (by simpa [Atomic.set, hqp] using hq)
  case returned =>
    have hr := h.returned
    simp only [List.filterMap_append, List.filterMap_cons, ho, Sum.getLeft?, y] at hr ⊢
    exact List.perm_middle.trans ((hr.cons _).trans (List.perm_append_singleton _ _).symm)
  case sound =>
    intro z hz op hop
    rcases hmem.mp hz with rfl | hz
    · cases hop
      exact ⟨hc, h.past x hx, hs⟩
    · exact h.sound z (hold hz) op hop
  case owned =>
    intro z hz q hq
    rcases hmem.mp hz with rfl | hz
    · cases hq
    · have ⟨i, o', hi, hr⟩ := h.owned z (hold hz) q hq
      have hqp : q ≠ p := fun he => hne z hz (he ▸ hq)
      exact ⟨i, o', by simpa [Atomic.set, hqp] using hi, hr⟩
  case effected =>
    intro q i e hq he
    have hqp : q ≠ p := by
      rintro rfl
      simp [Atomic.set] at hq
    have ⟨z, hz, hzo⟩ := h.effected q i e (by simpa [Atomic.set, hqp] using hq) he
    have hzx : z ≠ x := by
      rintro rfl
      cases hzo.symm.trans ho
      exact hqp rfl
    exact ⟨z, hmem.mpr (.inr (by simpa [hzx] using hz)), hzo⟩
  case single =>
    have hs := h.single
    simp only [List.filterMap_append, List.filterMap_cons, ho, Sum.getRight?, y] at hs ⊢
    exact hs.sublist ((List.sublist_cons_self ..).append_left _)

theorem step (h : Explains M a l) (hs : a.Step M a') : ∃ l', Explains M a' l' := by
  cases hs
  case tick                  => exact ⟨l, h.tick⟩
  case invoke p i hn         => exact ⟨l, h.invoke hn i⟩
  case effect p hp he ho     => exact h.effect hp he ho
  case respond p o hp he ho  => exact h.respond hp he ho

end Explains

-- What an operation looks like if those in progress return now.
structure Point.Completed (M : Model S I O) (a : Atomic P S I O) (x : Point P S I O)
    (op : Operation I O) : Prop where
  called   : op.call ≤ x.time
  returns  : x.time ≤ op.ret
  accepted : M.step x.before op.input op.output = (true, x.after)
  kind     : x.op = .inl op ∨
    ∃ p inv, x.op = .inr p ∧ a.pending p = some inv ∧ op.input = inv.input ∧ op.call = inv.call ∧
      op.ret = a.now

namespace Explains

variable {M : Model S I O} {a : Atomic P S I O} {l : List (Point P S I O)}
  {ops : List (Operation I O)}

theorem completed (h : Explains M a l) : ∃ ops, List.Forall₂ (Point.Completed M a) l ops := by
  have he (x) (hx : x ∈ l) : ∃ op, x.Completed M a op := by
    cases ho : x.op
    case inl op =>
      have ⟨hc, hr, hs⟩ := h.sound x hx op ho
      exact ⟨op, hc, hr, hs, .inl ho⟩
    case inr p =>
      have ⟨inv, o, hp, hc, _, hs⟩ := h.owned x hx p ho
      exact ⟨⟨inv.input, o, inv.call, a.now⟩, hc, h.past x hx, hs,
        .inr ⟨p, inv, ho, hp, rfl, rfl, rfl⟩⟩
  clear h
  induction l
  case nil         => exact ⟨[], .nil⟩
  case cons x l hi =>
    have ⟨op, ho⟩ := he x (List.mem_cons_self ..)
    have ⟨ops, hs⟩ := hi fun y hy => he y (List.mem_cons_of_mem _ hy)
    exact ⟨op :: ops, .cons ho hs⟩

theorem run_completed {s s' : S} (hc : Point.Chain s l s')
    (ho : List.Forall₂ (Point.Completed M a) l ops) : M.run s ops = some s' := by
  induction ho generalizing s
  case nil          => cases hc; rfl
  case cons hx _ hi =>
    obtain ⟨rfl, hc⟩ := hc
    exact Model.run_cons_iff.mpr ⟨_, hx.accepted, hi hc⟩

theorem le_ret_completed {t : Nat} (ht : ∀ x ∈ l, t ≤ x.time)
    (ho : List.Forall₂ (Point.Completed M a) l ops) : ∀ op ∈ ops, t ≤ op.ret := by
  induction ho
  case nil          => simp
  case cons hx _ hi =>
    rw [List.forall_mem_cons] at ht ⊢
    exact ⟨ht.left.trans hx.returns, hi ht.right⟩

theorem ordered_completed (hs : l.Pairwise (·.time ≤ ·.time))
    (ho : List.Forall₂ (Point.Completed M a) l ops) : ops.Pairwise fun a b => ¬b.Precedes a := by
  induction ho
  case nil                      => exact .nil
  case cons x op l ops hx hl hi =>
    have ⟨hxl, hs⟩ := List.pairwise_cons.mp hs
    refine List.pairwise_cons.mpr ⟨fun op' hm => ?_, hi hs⟩
    exact not_lt.mpr (hx.called.trans (le_ret_completed hxl hl op' hm))

-- Those in progress stand apart.
theorem split_completed (ho : List.Forall₂ (Point.Completed M a) l ops) :
    ∃ late : List (P × Operation I O),
      ops.Perm (l.filterMap (·.op.getLeft?) ++ late.map Prod.snd) ∧
      late.map Prod.fst = l.filterMap (·.op.getRight?) ∧
      ∀ x ∈ late, (a.pending x.fst).map (fun inv => (inv.input, inv.call)) =
        some (x.snd.input, x.snd.call) ∧ x.snd.ret = a.now := by
  induction ho
  case nil => exact ⟨[], by simp⟩
  case cons x op l ops hx hl hi =>
    obtain ⟨late, hp, hf, hl⟩ := hi
    rcases hx.kind with ho | ⟨p, inv, ho, hi, hin, hc, hr⟩
    · refine ⟨late, ?_, ?_, hl⟩
      · simpa [List.filterMap_cons, ho] using hp
      · simpa [List.filterMap_cons, ho] using hf
    · refine ⟨(p, op) :: late, ?_, ?_, ?_⟩
      · simpa [List.filterMap_cons, ho] using (hp.cons op).trans List.perm_middle.symm
      · simpa [List.filterMap_cons, ho] using hf
      · simpa [hi, hin, hc, hr] using hl

theorem completable (h : Explains M a l) :
    Completable M a.history
      (fun p => (a.pending p).map fun inv => (inv.input, inv.call)) a.now := by
  have ⟨ops, ho⟩ := h.completed
  have ⟨late, hp, hf, hl⟩ := split_completed ho
  refine ⟨late, hf ▸ h.single, hl, ops, ?_, ordered_completed h.sorted ho, ?_⟩
  · exact hp.trans (h.returned.append_right _)
  · rw [run_completed h.chain ho]
    rfl

end Explains

theorem Atomic.Steps.completable [DecidableEq P] {M : Model S I O} {a : Atomic P S I O}
    (h : Steps M (.init M) a) :
    Completable M a.history
      (fun p => (a.pending p).map fun inv => (inv.input, inv.call)) a.now := by
  have ⟨l, hl⟩ : ∃ l, Explains M a l := by
    induction h
    case refl       => exact ⟨[], .init⟩
    case tail hs hi =>
      have ⟨l, hl⟩ := hi
      exact hl.step hs
  exact hl.completable

end Linearizability
