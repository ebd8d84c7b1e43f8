import Mathlib.Tactic

-- An object that is handed over from site to site, once per epoch at most. Each site has a copy of
-- the object, which it may use if it is active, and the last epoch in which it had to do with it.
--
-- A handover freezes the copy of the old owner, installs it at the new owner and releases it at the
-- old one. All requests carry the epoch that they lead into. They are never forgotten: any one of
-- them may be executed late, and any number of times.

namespace Handover

inductive Status
  | absent
  | frozen
  | active
  deriving DecidableEq

structure Site (δ : Type) where
  status : Status
  epoch  : Nat
  data   : δ

inductive Request (δ : Type)
  | freeze (n : Nat)
  | install (n : Nat) (data : δ)
  | release (n : Nat)

-- How far the handover into the next epoch has come.
inductive Stage
  | settled
  | frozen
  | installed
  | released
  deriving DecidableEq

instance : LE Stage where
  le a b := a.ctorIdx ≤ b.ctorIdx

instance (a b : Stage) : Decidable (a ≤ b) :=
  inferInstanceAs (Decidable (a.ctorIdx ≤ b.ctorIdx))

namespace Stage

theorem le_refl (a : Stage) : a ≤ a :=
  Nat.le_refl _

theorem le_trans {a b c : Stage} (h₁ : a ≤ b) (h₂ : b ≤ c) : a ≤ c :=
  Nat.le_trans h₁ h₂

theorem not_frozen_le_settled : ¬ Stage.frozen ≤ .settled := by
  decide

theorem not_installed_le_settled : ¬ Stage.installed ≤ .settled := by
  decide

theorem not_installed_le_frozen : ¬ Stage.installed ≤ .frozen := by
  decide

def join (a b : Stage) : Stage :=
  if a ≤ b then b else a

theorem le_join_left (a b : Stage) : a ≤ a.join b := by
  cases a <;> cases b <;> decide

theorem le_join_right (a b : Stage) : b ≤ a.join b := by
  cases a <;> cases b <;> decide

end Stage

variable {Γ δ : Type}

namespace Request

def epoch : Request δ → Nat
  | freeze n    => n
  | install n _ => n
  | release n   => n

-- The stage in which the request leaves the handover that it belongs to.
def goal : Request δ → Stage
  | freeze _    => .frozen
  | install _ _ => .installed
  | release _   => .released

end Request

namespace Site

def refuses (x : Site δ) (n : Nat) : Prop :=
  n < x.epoch ∨ x.status = .absent

instance (x : Site δ) (n : Nat) : Decidable (x.refuses n) :=
  inferInstanceAs (Decidable (_ ∨ _))

def exec [Inhabited δ] (x : Site δ) : Request δ → Site δ
  | .freeze n       => if x.refuses n then x else { x with status := .frozen, epoch := n }
  | .install n data => if n ≤ x.epoch then x else ⟨.active, n, data⟩
  | .release n      => if n < x.epoch then x else ⟨.absent, n, default⟩

-- What a freeze returns.
def copy (x : Site δ) (n : Nat) : Option δ :=
  if x.refuses n then none else some x.data

theorem exec_of_lt [Inhabited δ] {x : Site δ} {r : Request δ} (h : r.epoch < x.epoch) :
    x.exec r = x := by
  cases r <;> simp only [Request.epoch] at h
  case freeze n    => exact if_pos <| .inl h
  case install n _ => exact if_pos h.le
  case release n   => exact if_pos h

end Site

structure World (Γ δ : Type) where
  site  : Γ → Site δ
  owner : Nat → Γ
  -- The last epoch whose owner is fixed, and the last one that has been entered.
  bound : Nat
  epoch : Nat
  stage : Stage
  value : δ

namespace World

-- A request that belongs to one of the handovers so far. What it presupposes about the current one
-- are the requests that have been answered before it was sent.
def Allows (w : World Γ δ) (g : Γ) (r : Request δ) : Prop :=
  1 ≤ r.epoch ∧ r.epoch ≤ w.bound ∧ w.owner (r.epoch - 1) ≠ w.owner r.epoch ∧
  match r with
  | .freeze n       => g = w.owner (n - 1)
  | .install n data => g = w.owner n ∧
    (n = w.epoch + 1 → .frozen ≤ w.stage ∧ (w.stage = .frozen → data = w.value))
  | .release n      => g = w.owner (n - 1) ∧ (n = w.epoch + 1 → .installed ≤ w.stage)

def plan (w : World Γ δ) (owner : Nat → Γ) : World Γ δ :=
  { w with owner, bound := w.epoch + 1 }

def enter (w : World Γ δ) : World Γ δ :=
  { w with epoch := w.epoch + 1, stage := .settled }

-- What has become of a world.
structure Advances (w w' : World Γ δ) : Prop where
  bound : w.bound ≤ w'.bound
  owner : ∀ n ≤ w.bound, w'.owner n = w.owner n
  epoch : w.epoch ≤ w'.epoch
  stage : w'.epoch = w.epoch → w.stage ≤ w'.stage
  value : w'.epoch = w.epoch → w.stage = .frozen → w'.stage = .frozen → w'.value = w.value

namespace Advances

variable {w w' : World Γ δ}

theorem refl (w : World Γ δ) : w.Advances w where
  bound       := le_rfl
  owner _ _   := rfl
  epoch       := le_rfl
  stage _     := Stage.le_refl _
  value _ _ _ := rfl

theorem allows (h : w.Advances w') {g r} (ha : w.Allows g r)
    (hb : w.bound ≤ w.epoch + 1) : w'.Allows g r := by
  have ⟨h₁, h₂, h₃, h₄⟩ := ha
  have ho := h.owner _ h₂
  have ho' := h.owner (r.epoch - 1) (by omega)
  have he := h.epoch
  refine ⟨h₁, h₂.trans h.bound, by rwa [ho, ho'], ?_⟩
  -- A request for the next epoch is one for the next epoch already now, unless it has been entered.
  have hn (hx : r.epoch = w'.epoch + 1) : w'.epoch = w.epoch ∧ r.epoch = w.epoch + 1 := by omega
  cases r <;> simp only [Request.epoch] at ho ho' h₄ hn ⊢
  case freeze n  => rw [ho']; exact h₄
  case install n data =>
    refine ⟨ho ▸ h₄.left, fun hx => ?_⟩
    have ⟨hw, hx⟩ := hn hx
    have ⟨hs, hd⟩ := h₄.right hx
    refine ⟨Stage.le_trans hs (h.stage hw), fun hf => ?_⟩
    have hf' : w.stage = .frozen := by
      have hle := h.stage hw
      rw [hf] at hle
      revert hs hle
      cases w.stage <;> decide
    exact (hd hf').trans (h.value hw hf' hf).symm
  case release n =>
    refine ⟨ho' ▸ h₄.left, fun hx => ?_⟩
    have ⟨hw, hx⟩ := hn hx
    exact Stage.le_trans (h₄.right hx) (h.stage hw)

theorem plan (h : w.bound ≤ w.epoch + 1) {owner} (ho : ∀ n ≤ w.bound, owner n = w.owner n) :
    w.Advances (w.plan owner) :=
  { refl w with bound := h, owner := ho }

theorem enter (w : World Γ δ) : w.Advances w.enter where
  bound       := le_rfl
  owner _ _   := rfl
  epoch       := Nat.le_succ _
  stage h     := absurd h (Nat.succ_ne_self _)
  value h     := absurd h (Nat.succ_ne_self _)

end Advances

-- The stage after a request has been executed.
def after (w : World Γ δ) (r : Request δ) : Stage :=
  if r.epoch = w.epoch + 1 then w.stage.join r.goal else w.stage

theorem after_old {w : World Γ δ} {r : Request δ} (h : r.epoch ≤ w.epoch) : w.after r = w.stage :=
  if_neg (by omega)

theorem after_next {w : World Γ δ} {r : Request δ} (h : r.epoch = w.epoch + 1) :
    w.after r = w.stage.join r.goal :=
  if_pos h

theorem goal_le_after {w : World Γ δ} {r : Request δ} (h : r.epoch = w.epoch + 1) :
    r.goal ≤ w.after r :=
  after_next h ▸ Stage.le_join_right _ _

theorem le_after (w : World Γ δ) (r : Request δ) : w.stage ≤ w.after r := by
  simp only [after]
  split
  case isTrue  => exact Stage.le_join_left _ _
  case isFalse => exact Stage.le_refl _

variable [Inhabited δ]

-- A site that does not have the object, and has not had it since its last epoch.
def Retired (w : World Γ δ) (g : Γ) : Prop :=
  ∃ e, w.site g = ⟨.absent, e, default⟩ ∧ e ≤ w.epoch ∧ ∀ n ≤ w.epoch, w.owner n = g → n < e

-- The owner of the current epoch, who got the object in epoch `e`.
def Holds (w : World Γ δ) (x : Site δ) : Stage → Prop
  | .settled   => ∃ e, x = ⟨.active, e, w.value⟩ ∧ e ≤ w.epoch ∧
    ∀ n, e ≤ n → n ≤ w.epoch → w.owner n = w.owner w.epoch
  | .frozen    => x = ⟨.frozen, w.epoch + 1, w.value⟩
  | .installed => ∃ data, x = ⟨.frozen, w.epoch + 1, data⟩
  | .released  => x = ⟨.absent, w.epoch + 1, default⟩

theorem Holds.freeze {w : World Γ δ} {x s} (h : w.Holds x s) :
    w.Holds (x.exec (.freeze (w.epoch + 1))) (s.join .frozen) := by
  cases s <;> simp only [Holds] at h
  case settled =>
    obtain ⟨e, rfl, he, -⟩ := h
    exact if_neg (by simp [Site.refuses]; omega)
  case frozen => rw [h]; exact if_neg (by simp [Site.refuses])
  case installed =>
    obtain ⟨data, rfl⟩ := h
    exact ⟨data, if_neg (by simp [Site.refuses])⟩
  case released => rw [h]; exact if_pos (.inr rfl)

theorem Holds.release {w : World Γ δ} {x s} (h : w.Holds x s) (hs : .installed ≤ s) :
    w.Holds (x.exec (.release (w.epoch + 1))) (s.join .released) := by
  cases s <;> simp only [Holds] at h
  case settled | frozen => exact absurd hs (by decide)
  case installed =>
    obtain ⟨data, rfl⟩ := h
    exact if_neg (by simp)
  case released => rw [h]; exact if_neg (by simp)

structure Valid (w : World Γ δ) : Prop where
  bound  : w.bound = w.epoch ∨ w.bound = w.epoch + 1
  moves  : .frozen ≤ w.stage → w.bound = w.epoch + 1 ∧ w.owner w.epoch ≠ w.owner (w.epoch + 1)
  source : w.Holds (w.site (w.owner w.epoch)) w.stage
  target : .installed ≤ w.stage →
    w.site (w.owner (w.epoch + 1)) = ⟨.active, w.epoch + 1, w.value⟩
  others : ∀ g, g ≠ w.owner w.epoch → (.installed ≤ w.stage → g ≠ w.owner (w.epoch + 1)) →
    w.Retired g

namespace Valid

variable {w : World Γ δ}

theorem bound_le (v : w.Valid) : w.bound ≤ w.epoch + 1 := by
  have := v.bound
  omega

theorem settled (v : w.Valid) (h : w.bound = w.epoch) : w.stage = .settled := by
  by_contra hc
  have ⟨hb, _⟩ := v.moves (by revert hc; cases w.stage <;> decide)
  omega

-- Where the object is active, and with which data.
theorem active (v : w.Valid) {g} (h : (w.site g).status = .active) :
    (w.site g).data = w.value ∧
    ((w.stage = .settled ∧ g = w.owner w.epoch) ∨
      (.installed ≤ w.stage ∧ g = w.owner (w.epoch + 1))) := by
  by_cases ht : .installed ≤ w.stage ∧ g = w.owner (w.epoch + 1)
  case pos =>
    rw [ht.right, v.target ht.left]
    exact ⟨rfl, .inr ⟨ht.left, rfl⟩⟩
  case neg =>
    by_cases hs : g = w.owner w.epoch
    case pos =>
      have hx := v.source
      rw [←hs] at hx
      cases hw : w.stage <;> simp only [hw, Holds] at hx
      case settled =>
        have ⟨e, he, _⟩ := hx
        exact ⟨by rw [he], .inl ⟨rfl, hs⟩⟩
      case frozen    => simp [hx] at h
      case installed =>
        have ⟨_, hx⟩ := hx
        simp [hx] at h
      case released  => simp [hx] at h
    case neg =>
      have ⟨_, hr, _⟩ := v.others g hs fun h hg => ht ⟨h, hg⟩
      simp [hr] at h

theorem active_unique (v : w.Valid) {g₁ g₂} (h₁ : (w.site g₁).status = .active)
    (h₂ : (w.site g₂).status = .active) : g₁ = g₂ := by
  have ⟨_, h₁⟩ := v.active h₁
  have ⟨_, h₂⟩ := v.active h₂
  have hs : w.stage = .settled → ¬ Stage.installed ≤ w.stage := by
    intro h
    rw [h]
    decide
  obtain ⟨_, h₁⟩ | ⟨_, h₁⟩ := h₁ <;> obtain ⟨_, h₂⟩ | ⟨_, h₂⟩ := h₂ <;> simp_all

theorem plan (v : w.Valid) (h : w.bound = w.epoch) {owner}
    (ho : ∀ n ≤ w.epoch, owner n = w.owner n) : (w.plan owner).Valid := by
  have hs := v.settled h
  refine { bound := .inr rfl, moves := ?moves, source := ?source, target := ?target,
           others := ?others }
  case moves | target =>
    intro hc
    simp only [World.plan, hs] at hc
    exact absurd hc (by decide)
  case source =>
    have hx := v.source
    simp only [World.plan, hs, ho _ le_rfl] at hx ⊢
    obtain ⟨e, he, hle, hx⟩ := hx
    refine ⟨e, he, hle, fun n h₁ h₂ => ?_⟩
    simp only [ho _ h₂, ho _ le_rfl, hx n h₁ h₂]
  case others =>
    intro g h₁ _
    have ⟨e, he, hle, hx⟩ :=
      v.others g (ho _ le_rfl ▸ h₁) (hs ▸ · |> Stage.not_installed_le_settled.elim)
    exact ⟨e, he, hle, fun n hn hg => hx n hn (ho n hn ▸ hg)⟩

theorem enter (v : w.Valid) (hb : w.bound = w.epoch + 1)
    (hs : w.stage = .released ∨ w.owner w.epoch = w.owner (w.epoch + 1)) : w.enter.Valid := by
  have hr g (h : w.Retired g) (hg : g ≠ w.owner (w.epoch + 1)) : w.enter.Retired g := by
    have ⟨e, he, hle, hx⟩ := h
    refine ⟨e, he, Nat.le_succ_of_le hle, fun n hn ho => ?_⟩
    cases Nat.le_succ_iff.mp hn
    case inl hn => exact hx n hn ho
    case inr hn => exact absurd (hn ▸ ho).symm hg
  refine {
    bound  := .inl hb
    moves  := Stage.not_frozen_le_settled.elim
    source := ?source
    target := Stage.not_installed_le_settled.elim
    others := ?others
  }
  case source =>
    by_cases ho : w.owner w.epoch = w.owner (w.epoch + 1)
    case pos =>
      -- Nothing had to be handed over.
      have hs : w.stage = .settled := by
        by_contra hc
        exact (v.moves (by revert hc; cases w.stage <;> decide)).right ho
      have ⟨e, he, hle, hx⟩ := hs ▸ v.source
      refine ⟨e, ho ▸ he, Nat.le_succ_of_le hle, fun n h₁ h₂ => ?_⟩
      cases Nat.le_succ_iff.mp h₂
      case inl h₂ => exact (hx n h₁ h₂).trans ho
      case inr h₂ => rw [h₂]; rfl
    case neg =>
      have hs := hs.resolve_right ho
      refine ⟨w.epoch + 1, v.target (hs ▸ by decide), le_rfl, fun n h₁ h₂ => ?_⟩
      rw [le_antisymm h₂ h₁]
  case others =>
    intro g hg _
    by_cases ho : g = w.owner w.epoch
    case pos =>
      have hs := hs.resolve_right (ho ▸ hg)
      have hx : w.site (w.owner w.epoch) = ⟨.absent, w.epoch + 1, default⟩ := by
        have hx := v.source
        rwa [hs] at hx
      refine ⟨w.epoch + 1, ho ▸ hx, le_rfl, fun n hn h => ?_⟩
      have hn : n ≤ w.epoch + 1 := hn
      have : n ≠ w.epoch + 1 := fun hn => hg (hn ▸ h).symm
      omega
    case neg => exact hr g (v.others g ho fun _ => hg) hg

-- Requests of past handovers do not change anything any more.
theorem exec_old (v : w.Valid) {g r} (h : w.Allows g r) (hr : r.epoch ≤ w.epoch) :
    (w.site g).exec r = w.site g := by
  obtain ⟨h₁, -, hne, h⟩ := h
  by_cases hn : r.epoch < (w.site g).epoch
  case pos => exact Site.exec_of_lt hn
  by_cases ht : .installed ≤ w.stage ∧ g = w.owner (w.epoch + 1)
  case pos => simp only [ht.right, v.target ht.left] at hn; omega
  by_cases hs : g = w.owner w.epoch
  case pos =>
    have hx := v.source
    rw [←hs] at hx
    cases hw : w.stage <;> simp only [hw, Holds] at hx
    case settled =>
      -- The owner has not changed since it got the object.
      obtain ⟨e, he, -, ho⟩ := hx
      simp only [he] at hn ⊢
      have ho' := ho r.epoch (by omega) hr
      cases r <;> simp only [Request.epoch] at h hn hne ho' hr h₁
      case freeze n  => exact absurd ((h.symm.trans hs).trans ho'.symm) hne
      case release n => exact absurd ((h.left.symm.trans hs).trans ho'.symm) hne
      case install n _ =>
        refine if_pos ?_
        by_contra hc
        exact hne <| (ho (n - 1) (by simp at hc; omega) (by omega)).trans ho'.symm
    case frozen    => simp only [hx] at hn; omega
    case installed =>
      have ⟨_, hx⟩ := hx
      simp only [hx] at hn
      omega
    case released  => simp only [hx] at hn; omega
  case neg =>
    obtain ⟨e, he, -, ho⟩ := v.others g hs fun h hg => ht ⟨h, hg⟩
    simp only [he] at hn ⊢
    cases r <;> simp only [Request.epoch] at h hn hr h₁
    case freeze n  => exact if_pos <| .inr rfl
    case install n _ => exact if_pos (ho n hr h.left.symm).le
    case release n =>
      have := ho (n - 1) (by omega) h.left.symm
      obtain rfl : n = e := by omega
      exact if_neg hn

-- An active copy is never replaced.
theorem install_refused (v : w.Valid) {g n data} (h : w.Allows g (.install n data))
    (ha : (w.site g).status = .active) : n ≤ (w.site g).epoch := by
  by_cases hn : n ≤ w.epoch
  case pos =>
    by_contra hc
    have hx := v.exec_old h hn
    simp only [Site.exec, if_neg hc] at hx
    rw [←hx] at hc
    exact hc le_rfl
  case neg =>
    have hb := v.bound_le
    obtain ⟨-, hle, -, hg, hs⟩ := h
    simp only [Request.epoch] at hle
    have hn : n = w.epoch + 1 := by omega
    obtain ⟨_, ⟨hw, _⟩ | ⟨hw, ht⟩⟩ := v.active ha
    case inl =>
      rw [hw] at hs
      exact absurd (hs hn).left Stage.not_frozen_le_settled
    case inr => rw [ht, v.target hw, hn]

end Valid

variable [DecidableEq Γ]

def serve (w : World Γ δ) (g : Γ) (r : Request δ) : World Γ δ :=
  { w with site := Function.update w.site g ((w.site g).exec r), stage := w.after r }

-- The object is changed where it is active.
def write (w : World Γ δ) (g : Γ) (data : δ) : World Γ δ :=
  { w with site := Function.update w.site g { w.site g with data }, value := data }

theorem serve_eq {w : World Γ δ} {g r} (hx : (w.site g).exec r = w.site g)
    (hs : w.after r = w.stage) : w.serve g r = w := by
  simp only [serve, hx, hs, Function.update_eq_self]

theorem Retired.update {w : World Γ δ} {g g' x} (h : w.Retired g') (hg : g' ≠ g) {stage value} :
    { w with site := Function.update w.site g x, stage, value : World Γ δ }.Retired g' := by
  simpa only [Retired, Function.update_of_ne hg] using h

namespace Valid

variable {w : World Γ δ}

-- The old owner takes its part in the handover into the next epoch.
theorem replace_source (v : w.Valid) (hb : w.bound = w.epoch + 1)
    (ho : w.owner w.epoch ≠ w.owner (w.epoch + 1)) {x s} (hx : w.Holds x s)
    (hs : .installed ≤ s ↔ .installed ≤ w.stage) :
    { w with site := Function.update w.site (w.owner w.epoch) x,
             stage := s : World Γ δ }.Valid where
  bound          := v.bound
  moves _        := ⟨hb, ho⟩
  source         := by
    simp only [Function.update_self]
    cases s <;> exact hx
  target h       := by simpa only [Function.update_of_ne ho.symm] using v.target (hs.mp h)
  others g h₁ h₂ := (v.others g h₁ fun h => h₂ (hs.mpr h)).update h₁

-- The new owner gets the object.
theorem replace_target (v : w.Valid) (hs : w.stage = .frozen) :
    { w with
      site  := Function.update w.site (w.owner (w.epoch + 1)) ⟨.active, w.epoch + 1, w.value⟩
      stage := .installed : World Γ δ }.Valid where
  bound          := v.bound
  moves _        := v.moves (by rw [hs]; decide)
  source         := by
    have hx := v.source
    have ⟨_, ho⟩ := v.moves (by rw [hs]; decide)
    rw [hs] at hx
    exact ⟨w.value, (Function.update_of_ne ho ..).trans hx⟩
  target _       := Function.update_self ..
  others g h₁ h₂ :=
    (v.others g h₁ fun h => absurd h (by rw [hs]; decide)).update (h₂ (Stage.le_refl _))

theorem serve_next (v : w.Valid) {g r} (h : w.Allows g r) (hr : r.epoch = w.epoch + 1) :
    (w.serve g r).Valid := by
  obtain ⟨-, hle, hne, hg⟩ := h
  have hb : w.bound = w.epoch + 1 := le_antisymm v.bound_le (hr ▸ hle)
  simp only [World.serve, after_next hr]
  cases r <;> simp only [Request.epoch, Request.goal] at hr hne hg ⊢ <;> subst hr <;>
    simp only [Nat.add_sub_cancel] at hg hne
  case freeze =>
    subst hg
    refine v.replace_source hb hne v.source.freeze ?_
    cases w.stage <;> decide
  case release =>
    obtain ⟨rfl, hs⟩ := hg
    refine v.replace_source hb hne (v.source.release (hs trivial)) ?_
    revert hs
    cases w.stage <;> decide
  case install data =>
    obtain ⟨rfl, hs⟩ := hg
    obtain ⟨hs, hd⟩ := hs trivial
    by_cases hf : w.stage = .frozen
    case pos =>
      obtain rfl := hd hf
      obtain ⟨e, hx, he, -⟩ := v.others _ hne.symm fun h => absurd h (by rw [hf]; decide)
      have hx : (w.site (w.owner (w.epoch + 1))).exec (.install (w.epoch + 1) w.value) =
          ⟨.active, w.epoch + 1, w.value⟩ := by
        rw [hx]
        exact if_neg (by simp; omega)
      rw [hx, hf]
      exact v.replace_target hf
    case neg =>
      have hi : .installed ≤ w.stage := by
        revert hs hf
        cases w.stage <;> decide
      have hx : (w.site (w.owner (w.epoch + 1))).exec (.install (w.epoch + 1) data) =
          w.site (w.owner (w.epoch + 1)) := by
        rw [v.target hi]
        exact if_pos (by simp)
      have hj : w.stage.join .installed = w.stage := by
        revert hi
        cases w.stage <;> decide
      rw [hx, hj, Function.update_eq_self]
      exact v

theorem serve (v : w.Valid) {g r} (h : w.Allows g r) : (w.serve g r).Valid := by
  by_cases hr : r.epoch ≤ w.epoch
  case pos => exact (serve_eq (v.exec_old h hr) (after_old hr)).symm ▸ v
  case neg =>
    have := v.bound_le
    have := h.right.left
    exact v.serve_next h (by omega)

theorem write (v : w.Valid) {g} (h : (w.site g).status = .active) (data : δ) :
    (w.write g data).Valid := by
  have ⟨hd, ha⟩ := v.active h
  have hn g' (h₁ : g' ≠ w.owner w.epoch) (h₂ : .installed ≤ w.stage → g' ≠ w.owner (w.epoch + 1)) :
      g' ≠ g := by
    rintro rfl
    obtain ⟨_, hg⟩ | ⟨hs, hg⟩ := ha
    · exact h₁ hg
    · exact h₂ hs hg
  refine { bound := v.bound, moves := v.moves, source := ?source, target := ?target,
           others := ?others }
  case source =>
    have hx := v.source
    obtain ⟨hs, rfl⟩ | ⟨hs, rfl⟩ := ha
    case inl =>
      simp only [hs, World.write, Function.update_self] at hx ⊢
      obtain ⟨e, he, ho⟩ := hx
      exact ⟨e, by rw [he], ho⟩
    case inr =>
      have ⟨_, ho⟩ := v.moves (Stage.le_trans (by decide) hs)
      simp only [World.write, Function.update_of_ne ho]
      cases hw : w.stage <;> rw [hw] at hx hs
      case settled | frozen => exact absurd hs (by decide)
      case installed | released => exact hx
  case target =>
    intro hs
    obtain ⟨hs', _⟩ | ⟨_, rfl⟩ := ha
    case inl =>
      simp only [World.write, hs'] at hs
      exact absurd hs (by decide)
    case inr => simp [World.write, v.target hs]
  case others => exact fun g' h₁ h₂ => (v.others g' h₁ h₂).update (hn g' h₁ h₂)

end Valid

namespace Advances

variable {w : World Γ δ}

theorem serve (w : World Γ δ) (g r) : w.Advances (w.serve g r) :=
  { refl w with stage := fun _ => le_after w r, value := fun _ _ _ => rfl }

theorem write (v : w.Valid) {g} (h : (w.site g).status = .active) (data) :
    w.Advances (w.write g data) where
  bound      := le_rfl
  owner _ _  := rfl
  epoch      := le_rfl
  stage _    := Stage.le_refl _
  value _ hf := by
    -- Nobody can change the object while it is frozen.
    obtain ⟨_, ⟨hs, _⟩ | ⟨hs, _⟩⟩ := v.active h <;> rw [hf] at hs
    case inl => cases hs
    case inr => exact absurd hs Stage.not_installed_le_frozen

end Advances

namespace Valid

variable {w : World Γ δ}

-- What a freeze has returned may be installed.
theorem allows_install (v : w.Valid) {g n} (h : w.Allows g (.freeze n)) :
    (w.serve g (.freeze n)).Allows (w.owner n) (.install n (((w.site g).copy n).getD default)) := by
  obtain ⟨h₁, h₂, h₃, hg⟩ := h
  refine ⟨h₁, h₂, h₃, rfl, fun hn => ?_⟩
  change n = w.epoch + 1 at hn
  refine ⟨goal_le_after (r := .freeze n) hn, fun hs => ?_⟩
  simp only [World.serve, after_next (r := .freeze n) hn, Request.goal] at hs
  have hx := v.source
  simp only [hn, Nat.add_sub_cancel] at hg
  rw [hg]
  cases hw : w.stage <;> simp only [hw, Holds] at hx hs
  case settled =>
    obtain ⟨e, he, hle, -⟩ := hx
    rw [he, Site.copy, if_neg (by simp [Site.refuses]; omega)]
    rfl
  case frozen =>
    rw [hx, Site.copy, if_neg (by simp [Site.refuses]; omega)]
    rfl
  case installed | released => exact absurd hs (by decide)

end Valid

theorem Allows.release {w : World Γ δ} {g n data} (h : w.Allows g (.install n data)) :
    (w.serve g (.install n data)).Allows (w.owner (n - 1)) (.release n) := by
  obtain ⟨h₁, h₂, h₃, -⟩ := h
  refine ⟨h₁, h₂, h₃, rfl, fun hn => ?_⟩
  exact goal_le_after (r := .install n data) hn

theorem serve_release {w : World Γ δ} {g n} (hn : n = w.epoch + 1) :
    (w.serve g (.release n)).stage = .released := by
  simp only [World.serve, after_next (r := .release n) hn]
  cases w.stage <;> rfl

end World
end Handover
