import DistributedSystems.Library.Behavior

-- The states that are reached without a step that is bad.
inductive System.Reached {σ α : Type} (S : System σ α) (bad : σ → α → Prop) : σ → Prop
  | init : Reached S bad S.init
  | next {s a s'} : (Reached S bad s) → (¬bad s a) → (S.next s a = some s') → Reached S bad s'

namespace System.Reached

variable {σ α : Type} {S : System σ α} {bad : σ → α → Prop}

theorem of_avoids {b : S.Behavior} (hb : b.Avoids bad) (i : Nat) : S.Reached bad (b.state i) := by
  induction i
  case zero      => exact b.start ▸ .init
  case succ i hi =>
    cases b.step_cases i
    case inl h => exact h ▸ hi
    case inr h =>
      have ⟨a, ha, h⟩ := h
      exact .next hi (hb i a ha) h

end System.Reached

-- If each step is answered by a matching step, or by none, then the behavior has a counterpart that
-- is related to it at all times.
theorem System.Behavior.exists_related {σ τ α β : Type} {S : System σ α} {T : System τ β}
    {R : σ → τ → Prop} {M : α → β → Prop} (b : S.Behavior) (h₀ : R S.init T.init)
    (hs : ∀ i a s' t, b.label i = some a → S.next (b.state i) a = some s' → R (b.state i) t →
      R s' t ∨ ∃ a' t', M a a' ∧ T.next t a' = some t' ∧ R s' t') :
    ∃ e : T.Behavior, (∀ i, R (b.state i) (e.state i)) ∧
      ∀ i a', e.label i = some a' → ∃ a, b.label i = some a ∧ M a a' := by
  have step i (t : { t // R (b.state i) t }) : ∃ x : Option β × τ, R (b.state (i + 1)) x.snd ∧
      x.fst.elim (x.snd = t) (T.next t · = some x.snd) ∧
      ∀ a', x.fst = some a' → ∃ a, b.label i = some a ∧ M a a' := by
    obtain ⟨t, ht⟩ := t
    cases b.step_cases i
    case inl h => exact ⟨(none, t), h ▸ ht, rfl, by simp⟩
    case inr h =>
      obtain ⟨a, ha, h⟩ := h
      cases hs i a _ t ha h ht
      case inl hr => exact ⟨(none, t), hr, rfl, by simp⟩
      case inr hr =>
        obtain ⟨a', t', hm, hn, hr⟩ := hr
        exact ⟨(some a', t'), hr, hn, fun _ h => ⟨a, ha, Option.some.inj h ▸ hm⟩⟩
  choose f hf using step
  let t (i : Nat) : { t // R (b.state i) t } :=
    Nat.rec ⟨T.init, b.start ▸ h₀⟩ (fun i t => ⟨(f i t).snd, (hf i t).left⟩) i
  let e : T.Behavior :=
    ⟨fun i => (t i).val, fun i => (f i (t i)).fst, rfl, fun i => (hf i (t i)).right.left⟩
  exact ⟨e, fun i => (t i).property, fun i => (hf i (t i)).right.right⟩

-- What a state leads to without a step that is bad.
abbrev System.Steps {σ α : Type} (S : System σ α) (bad : σ → α → Prop) : σ → σ → Prop :=
  Relation.ReflTransGen fun s s' => ∃ a, ¬bad s a ∧ S.next s a = some s'

-- The action leads to such a state if it is repeated, at most `n` times.
def System.Within {σ α : Type} (S : System σ α) (a : α) (P : σ → Prop) (n : Nat) (s : σ) : Prop :=
  ∃ k ≤ n, ∃ s', S.exec s (.replicate k a) = some s' ∧ P s'

namespace System.Within

variable {σ α : Type} {S : System σ α} {a : α} {P Q : σ → Prop} {n m : Nat} {s s' : σ}

theorem now (h : P s) : S.Within a P n s :=
  ⟨0, n.zero_le, s, rfl, h⟩

theorem mono (h : S.Within a P n s) (hn : n ≤ m) : S.Within a P m s :=
  have ⟨k, hk, s', hs, hp⟩ := h
  ⟨k, hk.trans hn, s', hs, hp⟩

theorem step (hs : S.next s a = some s') (h : S.Within a P n s') : S.Within a P (n + 1) s := by
  have ⟨k, hk, s'', hx, hp⟩ := h
  refine ⟨k + 1, Nat.succ_le_succ hk, s'', ?_, hp⟩
  rw [List.replicate_succ, exec, hs]
  exact hx

theorem trans (h : S.Within a P n s) (hp : ∀ s', P s' → S.Within a Q m s') :
    S.Within a Q (n + m) s := by
  have ⟨k, hk, s', hs, hs'⟩ := h
  have ⟨k', hk', s'', hx, hq⟩ := hp s' hs'
  refine ⟨k + k', Nat.add_le_add hk hk', s'', ?_, hq⟩
  rw [List.replicate_add, exec_append, hs]
  exact hx

end System.Within

-- A server, or many, with all that happens inside. It works on the requests that it has been sent,
-- which are numbered.
structure Backend (σ ε Req Res : Type) where
  init    : σ
  next    : List Req → σ → ε → Option σ
  answers : σ → Nat → Res → Bool

-- The clients. A step of theirs may use up an answer, and sends further requests. They know the
-- number of the first one.
structure Frontend (υ α Req Res : Type) where
  init : υ
  next : υ → Nat → α → Option (Nat × Res) → Option (υ × List Req)

structure Session (υ σ Req : Type) where
  front : υ
  sent  : List Req
  back  : σ

namespace Session

variable {υ σ α ε Req Res : Type}

inductive Event (α ε Res : Type)
  | front (a : α) (answer : Option (Nat × Res))
  | back (e : ε)

def Bad (badF : υ → α → Prop) (badB : List Req → σ → ε → Prop) (s : Session υ σ Req) :
    Event α ε Res → Prop
  | .front a _ => badF s.front a
  | .back e    => badB s.sent s.back e

instance decidableBad {badF : υ → α → Prop} {badB : List Req → σ → ε → Prop}
    [∀ u a, Decidable (badF u a)] [∀ sent s e, Decidable (badB sent s e)] {s : Session υ σ Req} :
    (e : Event α ε Res) → Decidable (Bad badF badB s e)
  | .front a _ => inferInstanceAs (Decidable (badF s.front a))
  | .back e    => inferInstanceAs (Decidable (badB s.sent s.back e))

end Session

def Frontend.session {υ σ α ε Req Res : Type} (F : Frontend υ α Req Res) (B : Backend σ ε Req Res) :
    System (Session υ σ Req) (Session.Event α ε Res) where
  init := ⟨F.init, [], B.init⟩
  next s
    | .front a answer =>
      if answer.all fun (k, r) => B.answers s.back k r then
        (F.next s.front s.sent.length a answer).map fun (front, reqs) =>
          { s with front, sent := s.sent ++ reqs }
      else
        none
    | .back e => (B.next s.sent s.back e).map fun back => { s with back }

namespace Frontend

variable {υ σ α ε Req Res : Type} {F : Frontend υ α Req Res} {B : Backend σ ε Req Res}
  {s s' : Session υ σ Req}

theorem session_front {a : α} {answer : Option (Nat × Res)} :
    (F.session B).next s (.front a answer) = some s' ↔
    (∀ k r, answer = some (k, r) → B.answers s.back k r) ∧
    ∃ front reqs, F.next s.front s.sent.length a answer = some (front, reqs) ∧
      s' = { s with front, sent := s.sent ++ reqs } := by
  rcases answer with _ | ⟨k, r⟩ <;> simp [session, eq_comm (a := s')]

theorem session_back {e : ε} :
    (F.session B).next s (.back e) = some s' ↔
    ∃ back, B.next s.sent s.back e = some back ∧ s' = { s with back } := by
  simp [session, eq_comm (a := s')]

variable {badF : υ → α → Prop} {bad : List Req → σ → ε → Prop}

theorem reached_front {a : α} {answer : Option (Nat × Res)} {front : υ} {reqs : List Req}
    (h : (F.session B).Reached (Session.Bad badF bad) s) (hb : ¬badF s.front a)
    (ha : ∀ k r, answer = some (k, r) → B.answers s.back k r)
    (hn : F.next s.front s.sent.length a answer = some (front, reqs)) :
    (F.session B).Reached (Session.Bad badF bad) { s with front, sent := s.sent ++ reqs } :=
  .next h (by exact hb) (session_front.mpr ⟨ha, front, reqs, hn, rfl⟩)

theorem reached_back {e : ε} {back : σ} (h : (F.session B).Reached (Session.Bad badF bad) s)
    (hb : ¬bad s.sent s.back e) (hn : B.next s.sent s.back e = some back) :
    (F.session B).Reached (Session.Bad badF bad) { s with back } :=
  .next h (by exact hb) (session_back.mpr ⟨back, hn, rfl⟩)

end Frontend

namespace Backend

variable {υ σ τ α ε ζ Req Res : Type}

abbrev Steps (B : Backend σ ε Req Res) (bad : List Req → σ → ε → Prop) (sent : List Req) :
    σ → σ → Prop :=
  Relation.ReflTransGen fun s s' => ∃ e, ¬bad sent s e ∧ B.next sent s e = some s'

-- Whatever happens inside of `B` may as well happen inside of `C`, and the clients get the same
-- answers.
structure Simulation (B : Backend σ ε Req Res) (C : Backend τ ζ Req Res)
    (bad : List Req → σ → ε → Prop) (bad' : List Req → τ → ζ → Prop)
    (R : List Req → σ → τ → Prop) : Prop where
  init    : R [] B.init C.init
  sent    : ∀ sent s t reqs, R sent s t → R (sent ++ reqs) s t
  answers : ∀ sent s t k r, R sent s t → B.answers s k r → C.answers t k r
  next    : ∀ sent s t e s', R sent s t → ¬bad sent s e → B.next sent s e = some s' →
    ∃ t', C.Steps bad' sent t t' ∧ R sent s' t'

variable {F : Frontend υ α Req Res} {B : Backend σ ε Req Res} {C : Backend τ ζ Req Res}
  {bad : List Req → σ → ε → Prop} {bad' : List Req → τ → ζ → Prop} {badF : υ → α → Prop}

theorem Steps.reached {s : Session υ τ Req} (h : (F.session C).Reached (Session.Bad badF bad') s)
    {t : τ} (hs : C.Steps bad' s.sent s.back t) :
    (F.session C).Reached (Session.Bad badF bad') { s with back := t } := by
  induction hs
  case refl             => exact h
  case tail t _ _ hs hi =>
    have ⟨e, hb, hn⟩ := hs
    exact Frontend.reached_back (s := { s with back := t }) hi hb hn

-- So the clients cannot tell the two from each other.
theorem Simulation.reached {R : List Req → σ → τ → Prop} (h : B.Simulation C bad bad' R)
    {s : Session υ σ Req} (hs : (F.session B).Reached (Session.Bad badF bad) s) :
    ∃ t, (F.session C).Reached (Session.Bad badF bad') { s with back := t } ∧
    R s.sent s.back t := by
  induction hs
  case init => exact ⟨C.init, .init, h.init⟩
  case next s a s' _ hb hn hi =>
    obtain ⟨t, ht, hr⟩ := hi
    cases a
    case front a answer =>
      obtain ⟨ha, front, reqs, hf, rfl⟩ := Frontend.session_front.mp hn
      have ha' k r hk := h.answers _ _ _ k r hr (ha k r hk)
      exact ⟨t, Frontend.reached_front ht hb ha' hf, h.sent _ _ _ _ hr⟩
    case back e =>
      obtain ⟨back, he, rfl⟩ := Frontend.session_back.mp hn
      obtain ⟨t', ht', hr'⟩ := h.next _ _ _ e back hr hb he
      exact ⟨t', Steps.reached ht ht', hr'⟩

end Backend
