import Mathlib.Tactic

-- A system is given by its initial state and by what each action makes of a state. An action that
-- is not enabled in a state has no successor.
structure System (σ α : Type) where
  init : σ
  next : σ → α → Option σ

namespace System

variable {σ α : Type} {S : System σ α}

def exec (S : System σ α) : σ → List α → Option σ
  | s, []      => some s
  | s, a :: as => (S.next s a).bind (S.exec · as)

theorem exec_append (s : σ) (as bs : List α) :
    S.exec s (as ++ bs) = (S.exec s as).bind (S.exec · bs) := by
  induction as generalizing s <;> simp only [exec, List.nil_append, List.cons_append]
  case nil         => rfl
  case cons a _ hi => cases S.next s a <;> simp [hi]

-- The states of a run at the moments 0, 1, 2, ... together with the actions that lead from each one
-- to the next. A moment without an action stutters, so that finite runs are behaviors as well.
structure Behavior (S : System σ α) where
  state : Nat → σ
  label : Nat → Option α
  start : state 0 = S.init
  step  : ∀ i, (label i).elim (state (i + 1) = state i) (S.next (state i) · = some (state (i + 1)))

namespace Behavior

variable (b : Behavior S)

theorem step_cases (i : Nat) :
    (b.state (i + 1) = b.state i) ∨
    (∃ a, b.label i = some a ∧ S.next (b.state i) a = some (b.state (i + 1))) := by
  have h := b.step i
  cases ha : b.label i <;> simp only [ha, Option.elim] at h
  case none   => exact .inl h
  case some a => exact .inr ⟨a, rfl, h⟩

theorem next_of_label {i : Nat} {a : α} (h : b.label i = some a) :
    S.next (b.state i) a = some (b.state (i + 1)) := by
  have hs := b.step i
  rwa [h] at hs

-- The induction behind every safety property: what holds initially and is preserved by the steps
-- of the behavior holds at all of its moments.
theorem invariant {I : σ → Prop} (h₀ : I S.init)
    (hs : ∀ i a s', b.label i = some a → S.next (b.state i) a = some s' → I (b.state i) → I s') :
    ∀ i, I (b.state i) := by
  intro i
  induction i
  case zero => exact b.start ▸ h₀
  case succ i hi =>
    cases b.step_cases i
    case inl h => exact h ▸ hi
    case inr h =>
      have ⟨a, ha, h⟩ := h
      exact hs i a _ ha h hi

theorem rel_of_le {r : σ → σ → Prop} (hr : ∀ s, r s s)
    (ht : ∀ s₁ s₂ s₃, r s₁ s₂ → r s₂ s₃ → r s₁ s₃)
    (hs : ∀ i a s', b.label i = some a → S.next (b.state i) a = some s' → r (b.state i) s')
    {i j : Nat} (h : i ≤ j) : r (b.state i) (b.state j) := by
  induction h
  case refl => exact hr _
  case step j _ hi =>
    refine ht _ _ _ hi ?_
    cases b.step_cases j
    case inl h => exact h ▸ hr _
    case inr h =>
      have ⟨a, ha, h⟩ := h
      exact hs j a _ ha h

-- Forward simulation along one behavior: if each step can be answered on the abstract side, then
-- the whole behavior has an abstract counterpart that only ever moves along `le`.
theorem simulate {ω : Type} {R : σ → ω → Prop} {le : ω → ω → Prop} {w₀ : ω} (hr : ∀ w, le w w)
    (h₀ : R S.init w₀)
    (hs : ∀ i a s' w, b.label i = some a → S.next (b.state i) a = some s' → R (b.state i) w →
      ∃ w', le w w' ∧ R s' w') :
    ∃ w : Nat → ω, ∀ i, R (b.state i) (w i) ∧ le (w i) (w (i + 1)) := by
  have step i (w : { w // R (b.state i) w }) : ∃ w', le w.val w' ∧ R (b.state (i + 1)) w' := by
    have ⟨w, hw⟩ := w
    cases b.step_cases i
    case inl h => exact ⟨w, hr _, h ▸ hw⟩
    case inr h =>
      have ⟨a, ha, h⟩ := h
      exact hs i a _ w ha h hw
  choose f hf using step
  let w (i : Nat) : { w // R (b.state i) w } :=
    Nat.rec ⟨w₀, b.start ▸ h₀⟩ (fun i w => ⟨f i w, (hf i w).right⟩) i
  exact ⟨fun i => (w i).val, fun i => ⟨(w i).property, (hf i (w i)).left⟩⟩

-- What does not hold at first but holds in the end has become true for good at some moment.
theorem exists_since {P : Nat → Prop} {i j : Nat} (hij : i ≤ j) (hi : ¬P i) (hj : P j) :
    ∃ k, i ≤ k ∧ k < j ∧ ¬P k ∧ ∀ m, k < m → m ≤ j → P m := by
  induction hij
  case refl => exact absurd hj hi
  case step j hij hind =>
    by_cases h : P j
    case neg =>
      refine ⟨j, hij, Nat.lt_succ_self j, h, fun m h₁ h₂ => ?_⟩
      rwa [Nat.le_antisymm h₂ h₁]
    case pos =>
      have ⟨k, hk, hkj, hn, hm⟩ := hind h
      refine ⟨k, hk, Nat.lt_succ_of_lt hkj, hn, fun m h₁ h₂ => ?_⟩
      cases Nat.le_succ_iff.mp h₂
      case inl h₂ => exact hm m h₁ h₂
      case inr h₂ => exact h₂ ▸ hj

-- Every list of actions that can be executed is a behavior that stutters at its end.
def ofActions (S : System σ α) (as : List α) (h : (S.exec S.init as).isSome) : Behavior S where
  state i := (S.exec S.init (as.take i)).getD S.init
  label i := as[i]?
  start   := by simp [exec]
  step i  := by
    cases ha : as[i]? <;> simp only [Option.elim]
    case none =>
      have hl := List.getElem?_eq_none_iff.mp ha
      rw [List.take_of_length_le hl, List.take_of_length_le (by omega)]
    case some a =>
      have ⟨hl, hg⟩ := List.getElem?_eq_some_iff.mp ha
      have he : as = as.take i ++ a :: as.drop (i + 1) := by
        rw [←hg, ←List.drop_eq_getElem_cons hl, List.take_append_drop]
      have ht : as.take (i + 1) = as.take i ++ [a] := by rw [←hg, List.take_add_one, ha, ←hg]; rfl
      rw [he, exec_append] at h
      rw [ht, exec_append]
      cases hx : S.exec S.init (as.take i) <;> simp [hx, exec] at h ⊢
      case some s => cases hn : S.next s a <;> simp [hn] at h ⊢

theorem state_ofActions_of_le {as : List α} {h : (S.exec S.init as).isSome} {i : Nat}
    (hi : as.length ≤ i) :
    (ofActions S as h).state i = (ofActions S as h).state as.length := by
  simp only [ofActions, List.take_length, List.take_of_length_le hi]

-- What holds at all moments of the list holds forever.
theorem forall_state_ofActions {I : σ → Prop} {as : List α} {h : (S.exec S.init as).isSome}
    (hs : ∀ i : Fin (as.length + 1), I ((ofActions S as h).state i)) (i : Nat) :
    I ((ofActions S as h).state i) := by
  by_cases hi : i < as.length + 1
  case pos => exact hs ⟨i, hi⟩
  case neg =>
    rw [state_ofActions_of_le (by omega)]
    exact hs (.last _)

-- None of the steps is taken in a state in which it is bad.
def Avoids (b : Behavior S) (bad : σ → α → Prop) : Prop :=
  ∀ i a, b.label i = some a → ¬bad (b.state i) a

theorem avoids_ofActions {bad : σ → α → Prop} {as : List α} {h : (S.exec S.init as).isSome}
    (hb : ∀ i : Fin as.length, ¬bad ((ofActions S as h).state i) (as.get i)) :
    (ofActions S as h).Avoids bad := by
  intro i a ha
  have ⟨hi, hx⟩ := List.getElem?_eq_some_iff.mp ha
  exact hx ▸ hb ⟨i, hi⟩

end Behavior
end System
