import Mathlib.Algebra.BigOperators.Group.Finset.Basic
import Mathlib.Algebra.Order.BigOperators.Group.Finset
import Mathlib.Data.Fintype.Card
import Mathlib.Logic.Relation
import Mathlib.Tactic

-- Items that are assigned to bins. Items without a bin are put into the emptiest one, and then
-- items are moved one by one from the fullest bin to the emptiest one, until all bins are about
-- equally full.

namespace Balancing

open Function

variable {σ γ : Type} [Fintype σ] [DecidableEq γ]

def load (a : σ → γ) (g : γ) : Nat :=
  (Finset.univ.filter (a · = g)).card

def Balanced (G : Finset γ) (a : σ → γ) : Prop :=
  ∀ g ∈ G, ∀ h ∈ G, load a g ≤ load a h + 1

def Fullest (G : Finset γ) (a : σ → γ) (g : γ) : Prop :=
  g ∈ G ∧ ∀ h ∈ G, load a h ≤ load a g

def Emptiest (G : Finset γ) (a : σ → γ) (g : γ) : Prop :=
  g ∈ G ∧ ∀ h ∈ G, load a g ≤ load a h

theorem load_pos {a : σ → γ} {g : γ} : 0 < load a g ↔ ∃ s, a s = g := by
  simp [load, Finset.card_pos, Finset.filter_nonempty_iff]

theorem load_le (a : σ → γ) (g : γ) : load a g ≤ Fintype.card σ :=
  Finset.card_le_univ _

-- The sum of the squares of the loads.
def energy (G : Finset γ) (a : σ → γ) : Nat :=
  ∑ g ∈ G, load a g ^ 2

theorem energy_eq {G : Finset γ} {g h : γ} (hh : h ∈ G) (hg : g ∈ G) (hne : g ≠ h) (a : σ → γ) :
    energy G a = load a h ^ 2 + (load a g ^ 2 + ∑ k ∈ (G.erase h).erase g, load a k ^ 2) := by
  rw [Finset.add_sum_erase _ (load a · ^ 2) (Finset.mem_erase.mpr ⟨hne, hg⟩),
    Finset.add_sum_erase _ (load a · ^ 2) hh, energy]

-- Joining

-- The bins `N` have been added to the bins `O`, which were balanced. Since then items have only
-- been moved into the new bins.
structure Admits (O N : Finset γ) (a₀ a : σ → γ) : Prop where
  old   : Balanced O a
  new   : ∀ g ∈ N, ∀ o ∈ O, load a g ≤ load a o + 1
  moved : ∀ s, a s ≠ a₀ s → a s ∈ N

namespace Admits

variable {O N : Finset γ} {a₀ a : σ → γ} {g : γ}

theorem refl (hb : Balanced O a) (hn : ∀ g ∈ N, load a g = 0) : Admits O N a a where
  old         := hb
  new g hg _ _ := by rw [hn g hg]; exact Nat.zero_le _
  moved _ h   := absurd rfl h

-- A bin that is less full by two than another one is a new one: the old bins are balanced, and no
-- new bin is much fuller than an old one.
theorem target (h : Admits O N a₀ a) {k : γ} (hg : g ∈ O ∪ N) (hk : k ∈ O ∪ N)
    (hd : load a g + 2 ≤ load a k) : g ∈ N := by
  refine (Finset.mem_union.mp hg).resolve_left fun ho => ?_
  have : load a k ≤ load a g + 1 := by
    cases Finset.mem_union.mp hk
    case inl hk => exact h.old k hk g ho
    case inr hk => exact h.new k hk g ho
  omega

end Admits

variable [DecidableEq σ] {a : σ → γ} {s : σ} {g h : γ} {G : Finset γ}

-- Moving an item takes it out of its bin and puts it into the new one.
theorem load_update (a : σ → γ) (s : σ) (g h : γ) :
    load (update a s g) h + (if a s = h then 1 else 0) = load a h + (if g = h then 1 else 0) := by
  have hx (b : σ → γ) :
      load b h = (if b s = h then 1 else 0) + ((Finset.univ.erase s).filter (b · = h)).card := by
    rw [load, Finset.card_filter, Finset.card_filter,
      Finset.add_sum_erase _ (fun t => if b t = h then 1 else 0) (Finset.mem_univ s)]
  have hr : (Finset.univ.erase s).filter (update a s g · = h) = (Finset.univ.erase s).filter
      (a · = h) := by
    apply Finset.filter_congr
    intro t ht
    rw [update_of_ne (Finset.ne_of_mem_erase ht)]
  rw [hx (update a s g), hx a, hr, update_self]
  omega

theorem load_update_self (hs : a s ≠ g) : load (update a s g) g = load a g + 1 := by
  simpa [hs] using load_update a s g g

theorem load_update_source (hs : a s ≠ g) : load (update a s g) (a s) + 1 = load a (a s) := by
  simpa [hs.symm] using load_update a s g (a s)

theorem load_update_of_ne (hs : h ≠ a s) (hg : h ≠ g) : load (update a s g) h = load a h := by
  simpa [hs.symm, hg.symm] using load_update a s g h

-- Filling

-- An item without a bin gets one.
inductive Fill (G : Finset γ) (a : σ → γ) : (σ → γ) → Prop
  | put {s : σ} {g : γ} : (a s ∉ G) → (Emptiest G a g) → Fill G a (update a s g)

namespace Fill

variable {a' : σ → γ}

theorem kept (f : Fill G a a') {s : σ} (hs : a s ∈ G) : a' s = a s := by
  cases f
  case put t g ht _ => exact update_of_ne (by rintro rfl; exact ht hs) ..

theorem balanced (f : Fill G a a') (hb : Balanced G a) : Balanced G a' := by
  cases f
  case put s g hs hg =>
    intro h hh k hk
    have h₁ := load_update a s g h
    have h₂ := load_update a s g k
    have hbal := hb h hh k hk
    have hmin := hg.right k hk
    rw [if_neg (by rintro rfl; exact hs hh)] at h₁
    rw [if_neg (by rintro rfl; exact hs hk)] at h₂
    by_cases hc : g = h
    case neg =>
      rw [if_neg hc] at h₁
      omega
    case pos =>
      subst hc
      rw [if_pos rfl] at h₁
      omega

end Fill

open Relation (ReflTransGen)

theorem kept_of_fills {a' : σ → γ} (f : ReflTransGen (Fill G) a a') {s : σ} (hs : a s ∈ G) :
    a' s = a s := by
  induction f
  case refl         => rfl
  case tail _ f hi  => exact (f.kept (hi ▸ hs)).trans hi

theorem balanced_of_fills {a' : σ → γ} (f : ReflTransGen (Fill G) a a') (hb : Balanced G a) :
    Balanced G a' := by
  induction f
  case refl         => exact hb
  case tail _ f hi  => exact f.balanced hi

-- Evening out

-- An item is moved from a fullest bin to an emptiest one.
inductive Shift (G : Finset γ) (a : σ → γ) : (σ → γ) → Prop
  | move {s : σ} {g : γ} :
    (Fullest G a (a s)) → (Emptiest G a g) → (load a g + 2 ≤ load a (a s)) →
    Shift G a (update a s g)

namespace Shift

variable {a' : σ → γ}

theorem energy_lt (e : Shift G a a') : energy G a' < energy G a := by
  cases e
  case move s g hs hg hd =>
    have hne : a s ≠ g := fun hc => by rw [hc] at hd; omega
    have h₁ := load_update_source hne
    have h₂ := load_update_self hne
    have hr : ∑ k ∈ (G.erase (a s)).erase g, load (update a s g) k ^ 2
        = ∑ k ∈ (G.erase (a s)).erase g, load a k ^ 2 := by
      apply Finset.sum_congr rfl
      intro k hk
      simp only [Finset.mem_erase] at hk
      rw [load_update_of_ne hk.right.left hk.left]
    rw [energy_eq hs.left hg.left hne.symm, energy_eq hs.left hg.left hne.symm, hr, h₂, ←h₁]
    rw [←h₁] at hd
    nlinarith

theorem covered (e : Shift G a a') (hc : ∀ s, a s ∈ G) (s : σ) : a' s ∈ G := by
  cases e
  case move t g _ hg _ =>
    by_cases hs : s = t
    case pos => subst hs; simpa using hg.left
    case neg => simpa [hs] using hc s

end Shift

theorem covered_of_shifts {a' : σ → γ} (h : ReflTransGen (Shift G) a a') (hc : ∀ s, a s ∈ G) :
    ∀ s, a' s ∈ G := by
  induction h
  case refl        => exact hc
  case tail _ h hi => exact h.covered hi

-- Balanced bins are left alone.
theorem eq_of_shifts {a' : σ → γ} (h : ReflTransGen (Shift G) a a') (hb : Balanced G a) :
    a' = a := by
  induction h
  case refl        => rfl
  case tail _ h hi =>
    subst hi
    cases h
    case move s g hs hg hd =>
      have := hb _ hs.left _ hg.left
      omega

namespace Admits

variable {O N : Finset γ} {a₀ a' : σ → γ}

theorem shift (h : Admits O N a₀ a) (hd : Disjoint O N) (e : Shift (O ∪ N) a a') :
    Admits O N a₀ a' := by
  cases e
  case move s g hs hg hlt =>
    have hgN := h.target hg.left hs.left hlt
    have hne : a s ≠ g := fun hc => by rw [hc] at hlt; omega
    have hmax {k : γ} (hk : k ∈ O ∪ N) : load a k ≤ load a (a s) := hs.right k hk
    -- An old bin can only lose an item, and if it does then it was a fullest one.
    have hold {o : γ} (ho : o ∈ O) :
        load (update a s g) o + (if a s = o then 1 else 0) = load a o := by
      have hx := load_update a s g o
      have hgo : g ≠ o := by
        rintro rfl
        exact Finset.disjoint_left.mp hd ho hgN
      rwa [if_neg hgo, Nat.add_zero] at hx
    refine { old k hk l hl := ?old, new k hk o ho := ?new, moved t ht := ?moved }
    case old =>
      have hk' := hold hk
      have hl' := hold hl
      have hm := hmax (Finset.mem_union_left N hk)
      have hb := h.old k hk l hl
      by_cases hc : a s = l
      case pos => rw [if_pos hc] at hl'; rw [hc] at hm; omega
      case neg => rw [if_neg hc] at hl'; omega
    case new =>
      have hk' := load_update a s g k
      have ho' := hold ho
      have hm := hmax (Finset.mem_union_right O hk)
      have hb := h.new k hk o ho
      have he := hg.right o (Finset.mem_union_left N ho)
      by_cases hc : g = k
      case neg =>
        rw [if_neg hc] at hk'
        by_cases hc : a s = o
        case pos => rw [if_pos hc] at ho'; rw [hc] at hm; omega
        case neg => rw [if_neg hc] at ho'; omega
      case pos =>
        subst hc
        rw [if_neg hne, if_pos rfl] at hk'
        by_cases hc : a s = o
        case pos => rw [if_pos hc] at ho'; rw [hc] at hlt; omega
        case neg => rw [if_neg hc] at ho'; omega
    case moved =>
      by_cases hc : t = s
      case pos => subst hc; simpa using hgN
      case neg =>
        rw [update_of_ne hc] at ht ⊢
        exact h.moved t ht

theorem shifts (h : Admits O N a₀ a) (hd : Disjoint O N) (e : ReflTransGen (Shift (O ∪ N)) a a') :
    Admits O N a₀ a' := by
  induction e
  case refl        => exact h
  case tail _ e hi => exact hi.shift hd e

end Admits
end Balancing
