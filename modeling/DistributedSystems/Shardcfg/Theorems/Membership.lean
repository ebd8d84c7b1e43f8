import DistributedSystems.Library.Behavior
import DistributedSystems.Shardcfg.Theorems.Rebalance

namespace Shardcfg

open Balancing Relation

inductive Change
  | join (servers : Groups)
  | leave (gids : List Tgid)

namespace ShardConfig

variable {c c' : ShardConfig} {order : MapOrder} {rounds : Nat} {servers : Groups}
  {gids : List Tgid} {changed : Bool}

-- Joining and leaving

theorem joinGroups_spec (h : joinGroups servers gids changed c = some (c', true)) :
    c'.shards = c.shards ∧ (∀ g, g ∈ c'.groups ↔ g ∈ c.groups ∨ g ∈ gids) ∧
    (∀ g ∈ gids, g ∉ c.groups) ∧ (changed = false → gids ≠ []) := by
  induction gids generalizing c changed <;> simp only [joinGroups] at h
  case nil =>
    split at h <;> cases h
    case isTrue hc => exact ⟨rfl, by simp, nofun, by simp [hc]⟩
  case cons gid gids hi =>
    split_ifs at h with hg hs
    case pos => cases h
    case neg =>
      have ⟨h₁, h₂, h₃, _⟩ := hi h
      refine ⟨h₁, fun g => ?_, fun g hm => ?_, fun _ => List.cons_ne_nil gid gids⟩
      · rw [h₂, Finmap.mem_insert, List.mem_cons]
        tauto
      · cases List.mem_cons.mp hm
        case inl hm => exact hm ▸ hg
        case inr hm => exact fun hc => h₃ g hm (Finmap.mem_insert.mpr (.inr hc))

theorem leaveGroups_spec (h : leaveGroups gids changed c = some (c', true)) :
    c'.shards = c.shards ∧ (∀ g, g ∈ c'.groups ↔ g ∈ c.groups ∧ g ∉ gids) ∧
    (∀ g ∈ gids, g ∈ c.groups) ∧ (changed = false → gids ≠ []) := by
  induction gids generalizing c changed <;> simp only [leaveGroups] at h
  case nil =>
    split at h <;> cases h
    case isTrue hc => exact ⟨rfl, by simp, nofun, by simp [hc]⟩
  case cons gid gids hi =>
    split_ifs at h with hg
    case neg => cases h
    case pos =>
      have ⟨h₁, h₂, h₃, _⟩ := hi h
      refine ⟨h₁, fun g => ?_, fun g hm => ?_, fun _ => List.cons_ne_nil gid gids⟩
      · rw [h₂, Finmap.mem_erase, List.mem_cons]
        tauto
      · cases List.mem_cons.mp hm
        case inl hm => exact hm ▸ hg
        case inr hm => exact (Finmap.mem_erase.mp (h₃ g hm)).right

theorem thenBalance_true {x : Option (ShardConfig × Bool)}
    (h : x.bind (thenBalance order rounds) = some (c', true)) :
    ∃ c₁, x = some (c₁, true) ∧ c₁.rebalance order rounds = some c' := by
  have ⟨⟨c₁, ok⟩, hx, hb⟩ := Option.bind_eq_some_iff.mp h
  cases ok
  case false => cases hb
  case true  =>
    have ⟨c₂, hr, he⟩ := Option.map_eq_some_iff.mp hb
    cases he
    exact ⟨c₁, hx, hr⟩

theorem thenBalance_false {x : Option (ShardConfig × Bool)}
    (h : x.bind (thenBalance order rounds) = some (c', false)) : x = some (c', false) := by
  have ⟨⟨c₁, ok⟩, hx, hb⟩ := Option.bind_eq_some_iff.mp h
  cases ok
  case false => cases hb; exact hx
  case true  =>
    have ⟨c₂, hr, he⟩ := Option.map_eq_some_iff.mp hb
    cases he

-- Runs of successful changes

def change (c : ShardConfig) (order : MapOrder) (rounds : Nat) :
    Change → Option (ShardConfig × Bool)
  | .join servers => c.joinBalance order rounds servers
  | .leave gids   => c.leaveBalance order rounds gids

def Settled (c : ShardConfig) : Prop :=
  c.groups.keys.Nonempty → (∀ s, c.shards s ∈ c.groups.keys) ∧ Balanced c.groups.keys c.shards

theorem rebalance_groups (h : c.rebalance order rounds = some c') : c'.groups = c.groups := by
  by_cases hne : c.groups.keys.Nonempty
  case pos => exact (rebalance_spec hne h).right.left
  case neg =>
    rw [rebalance_of_empty hne] at h
    cases h
    rfl

theorem rebalance_settled (h : c.rebalance order rounds = some c') : c'.Settled := by
  have hg := rebalance_groups h
  intro hne
  rw [hg] at hne ⊢
  have ⟨_, _, hb, hc, _⟩ := rebalance_spec hne h
  exact ⟨hc, hb⟩

theorem change_settled {a : Change} (h : c.change order rounds a = some (c', true)) :
    c'.Settled := by
  cases a
  case join  =>
    have ⟨_, _, hr⟩ := thenBalance_true h
    exact rebalance_settled hr
  case leave =>
    have ⟨_, _, hr⟩ := thenBalance_true h
    exact rebalance_settled hr

-- The old groups keep their shards, except for those that the new groups get.
theorem joinBalance_moved (hs : c.Settled)
    (h : c.joinBalance order rounds servers = some (c', true)) {s : Shard}
    (hm : c'.shards s ≠ c.shards s) : c'.shards s ∈ servers ∧ c'.shards s ∉ c.groups := by
  have ⟨c₁, hj, hr⟩ := thenBalance_true h
  have ⟨h₁, h₂, h₃, h₄⟩ := joinGroups_spec hj
  have hk : c₁.groups.keys = c.groups.keys ∪ servers.keys := by
    ext g
    rw [Finset.mem_union, Finmap.mem_keys, Finmap.mem_keys, Finmap.mem_keys, h₂, order.mem]
  have hd : Disjoint c.groups.keys servers.keys := by
    refine Finset.disjoint_right.mpr fun g hg => ?_
    rw [Finmap.mem_keys] at hg ⊢
    exact h₃ g ((order.mem ..).mpr hg)
  suffices hn : c'.shards s ∈ servers.keys from
    ⟨Finmap.mem_keys.mp hn, mt Finmap.mem_keys.mpr (Finset.disjoint_right.mp hd hn)⟩
  have hne₁ : c₁.groups.keys.Nonempty := by
    have ⟨g, hg⟩ := List.exists_mem_of_ne_nil _ (h₄ rfl)
    exact ⟨g, Finmap.mem_keys.mpr ((h₂ g).mpr (.inr hg))⟩
  have ⟨_, _, _, hcov, shards, hf, hsh⟩ := rebalance_spec hne₁ hr
  rw [hk] at hcov hf hsh
  rw [h₁] at hf
  by_cases hne : c.groups.keys.Nonempty
  case neg =>
    have hx := hcov s
    rwa [Finset.not_nonempty_iff_eq_empty.mp hne, Finset.empty_union] at hx
  case pos =>
    have ⟨hc, hb⟩ := hs hne
    have hkept : shards = c.shards :=
      funext fun t => kept_of_fills hf (Finset.mem_union_left _ (hc t))
    subst hkept
    refine (Admits.shifts (.refl hb fun g hg => ?_) hd hsh).moved s hm
    by_contra hx
    have ⟨t, ht⟩ := load_pos.mp (Nat.pos_of_ne_zero hx)
    exact Finset.disjoint_right.mp hd hg (ht ▸ hc t)

theorem leaveBalance_moved (hs : c.Settled) (h : c.leaveBalance order rounds gids = some (c', true))
    {s : Shard} (hm : c'.shards s ≠ c.shards s) :
    c.shards s ∈ gids ∧ c.shards s ∈ c.groups ∧ c.shards s ∉ c'.groups := by
  have ⟨c₁, hl, hr⟩ := thenBalance_true h
  have ⟨h₁, h₂, h₃, h₄⟩ := leaveGroups_spec hl
  have hne : c.groups.keys.Nonempty := by
    have ⟨g, hg⟩ := List.exists_mem_of_ne_nil _ (h₄ rfl)
    exact ⟨g, Finmap.mem_keys.mpr (h₃ g hg)⟩
  have ⟨hc, hb⟩ := hs hne
  have hcs := Finmap.mem_keys.mp (hc s)
  suffices hn : c.shards s ∉ c₁.groups by
    have hg : c'.groups = c₁.groups := rebalance_groups hr
    refine ⟨?_, hcs, hg ▸ hn⟩
    by_contra hx
    exact hn ((h₂ _).mpr ⟨hcs, hx⟩)
  by_cases hne₁ : c₁.groups.keys.Nonempty
  case neg =>
    rw [←Finmap.mem_keys, Finset.not_nonempty_iff_eq_empty.mp hne₁]
    exact Finset.notMem_empty _
  case pos =>
    have ⟨_, _, _, _, shards, hf, hsh⟩ := rebalance_spec hne₁ hr
    rw [h₁] at hf
    -- The remaining groups are balanced from the start, and stay so while they get the shards of
    -- the others.
    have hb₁ : Balanced c₁.groups.keys c.shards := by
      have hsub {g} (hg : g ∈ c₁.groups.keys) : g ∈ c.groups.keys :=
        Finmap.mem_keys.mpr ((h₂ g).mp (Finmap.mem_keys.mp hg)).left
      exact fun g hg g' hg' => hb g (hsub hg) g' (hsub hg')
    have he := eq_of_shifts hsh (balanced_of_fills hf hb₁)
    intro hx
    exact hm (he ▸ kept_of_fills hf (Finmap.mem_keys.mpr hx))

end ShardConfig

open ShardConfig

-- The configurations that can be reached by successful calls of `JoinBalance` and `LeaveBalance`.
def configurations : System ShardConfig (MapOrder × Nat × Change) where
  init     := .make
  next c a :=
    match c.change a.fst a.snd.fst a.snd.snd with
    | some (c', true) => some c'
    | _               => none

namespace ShardConfig

theorem next_change {c c' : ShardConfig} {a} (h : configurations.next c a = some c') :
    c.change a.fst a.snd.fst a.snd.snd = some (c', true) := by
  simp only [configurations] at h
  split at h
  case h_1 hx => cases h; exact hx
  case h_2    => cases h

-- Two groups with half of the shards each.
def pair : ShardConfig where
  num      := 2
  shards s := if s < 6 then 1 else 2
  groups   := .insert 2 ["b"] (.insert 1 ["a"] ∅)

theorem settled (b : System.Behavior configurations) (i : Nat) : (b.state i).Settled := by
  refine b.invariant (fun hc => ?_) (fun i a c' _ h _ => change_settled (next_change h)) i
  simp [configurations, make] at hc

-- A join moves shards to new groups only, a leave moves shards of the departed groups only.
theorem change_moved (b : System.Behavior configurations) (i : Nat) (order : MapOrder)
    (rounds : Nat) (c' : ShardConfig) :
    (∀ servers, (b.state i).joinBalance order rounds servers = some (c', true) →
      ∀ s, c'.shards s ≠ (b.state i).shards s → c'.shards s ∈ servers ∧
      c'.shards s ∉ (b.state i).groups) ∧
    (∀ gids, (b.state i).leaveBalance order rounds gids = some (c', true) →
      ∀ s, c'.shards s ≠ (b.state i).shards s → (b.state i).shards s ∈ gids ∧
        (b.state i).shards s ∈ (b.state i).groups ∧ (b.state i).shards s ∉ c'.groups) ∧
    (∀ change, (b.state i).change order rounds change = some (c', true) →
      ∀ s, (b.state i).shards s ∈ c'.groups → c'.shards s ∈ (b.state i).groups →
        c'.shards s = (b.state i).shards s) := by
  have hs := settled b i
  refine ⟨fun servers h s => joinBalance_moved hs h, fun gids h s => leaveBalance_moved hs h,
    fun a h s h₁ h₂ => ?_⟩
  by_contra hm
  cases a
  case join  => exact (joinBalance_moved hs h hm).right h₂
  case leave => exact (leaveBalance_moved hs h hm).right.right h₁

-- Two groups join first, and then a third one.
def joins : List (MapOrder × Nat × Change) := [
  (.ascending, 10, .join (.insert 2 ["b"] (.insert 1 ["a"] ∅)))]

theorem change_moved_third :
    ∃ (b : System.Behavior configurations) (c' : ShardConfig),
      (b.state 1).joinBalance .ascending 10 (.insert 3 ["c"] ∅) = some (c', true) ∧
      c'.shards 0 ≠ (b.state 1).shards 0 ∧ c'.shards 0 ∈ (.insert 3 ["c"] ∅ : Groups) ∧
      c'.shards 0 ∉ (b.state 1).groups :=
  let b := System.Behavior.ofActions configurations joins (by decide +kernel)
  have hx : ((b.state 1).joinBalance .ascending 10 (.insert 3 ["c"] ∅)).map
      (fun r => (r.fst.shards 0, r.snd))
      = some (3, true) := by decide +kernel
  have h₀ : (b.state 1).shards 0 = 1 := by decide +kernel
  have ⟨⟨c', _⟩, hj, he⟩ := Option.map_eq_some_iff.mp hx
  have ⟨h₃, hok⟩ := Prod.mk.inj he
  have hj := hj.trans (hok ▸ rfl)
  have hm : c'.shards 0 ≠ (b.state 1).shards 0 := by rw [h₃, h₀]; decide
  ⟨b, c', hj, hm, (change_moved b 1 .ascending 10 c').left _ hj 0 hm⟩

-- Failed changes

theorem joinGroups_subset {ok} (h : joinGroups servers gids changed c = some (c', ok)) {g : Tgid}
    (hg : g ∈ c.groups) : g ∈ c'.groups := by
  induction gids generalizing c changed <;> simp only [joinGroups] at h
  case nil => split at h <;> cases h; exact hg
  case cons gid gids hi =>
    split_ifs at h
    case pos => cases h; exact hg
    case neg => exact hi h (Finmap.mem_insert.mpr (.inr hg))

theorem leaveGroups_subset {ok} (h : leaveGroups gids changed c = some (c', ok)) {g : Tgid}
    (hg : g ∈ c'.groups) : g ∈ c.groups := by
  induction gids generalizing c changed <;> simp only [leaveGroups] at h
  case nil => split at h <;> cases h; exact hg
  case cons gid gids hi =>
    split_ifs at h
    case pos => exact (Finmap.mem_erase.mp (hi h)).right
    case neg => cases h; exact hg

-- A failed call has changed nothing if and only if it has failed at its first group.
theorem change_failed (c c' : ShardConfig) (order : MapOrder) (rounds : Nat) :
    (∀ servers, c.joinBalance order rounds servers = some (c', false) →
      (c' = c ↔ ∃ gid ∈ (order.keys servers 0).head?, gid ∈ c.groups)) ∧
    (∀ gids, c.leaveBalance order rounds gids = some (c', false) →
      (c' = c ↔ ∃ gid ∈ gids.head?, gid ∉ c.groups)) := by
  refine ⟨fun servers h => ?join, fun gids h => ?leave⟩
  case join =>
    replace h := thenBalance_false h
    simp only [join] at h
    cases hk : order.keys servers 0 <;> simp only [hk, joinGroups] at h
    case nil => cases h
    case cons gid gids =>
      simp only [List.head?_cons, Option.mem_some_iff, exists_eq_left']
      split_ifs at h with hg
      case pos => cases h; exact ⟨fun _ => hg, fun _ => rfl⟩
      case neg =>
        have hm := joinGroups_subset h (Finmap.mem_insert.mpr (.inl (Eq.refl gid)))
        exact ⟨fun hc => hc ▸ hm, fun hc => absurd hc hg⟩
  case leave =>
    replace h := thenBalance_false h
    cases gids <;> simp only [leave, leaveGroups] at h
    case nil => cases h
    case cons gid gids =>
      simp only [List.head?_cons, Option.mem_some_iff, exists_eq_left']
      split_ifs at h with hg
      case neg => cases h; exact ⟨fun _ => hg, fun _ => rfl⟩
      case pos =>
        have hm : gid ∉ c'.groups :=
          fun hc => (Finmap.mem_erase.mp (leaveGroups_subset h hc)).left rfl
        exact ⟨fun hc => hc ▸ hm, fun hc => absurd hg hc⟩

-- A member comes first in a join, and a group that is not there comes first in a leave.
theorem change_failed_first :
    (∃ c', pair.joinBalance .ascending 10 (.insert 3 ["c"] (.insert 2 ["b"] ∅)) = some (c', false) ∧
      c' = pair) ∧
    (∃ c', pair.leaveBalance .ascending 10 [9, 1] = some (c', false) ∧ c' = pair) :=
  have h := change_failed pair pair .ascending 10
  have hj := h.left (.insert 3 ["c"] (.insert 2 ["b"] ∅)) (by decide +kernel)
  have hl := h.right [9, 1] (by decide)
  ⟨⟨pair, by decide +kernel, hj.mpr ⟨2, by decide +kernel, by decide⟩⟩,
    ⟨pair, by decide, hl.mpr ⟨9, by decide, by decide⟩⟩⟩

-- A new group comes before one that has joined already, and a member comes before a group that is
-- not there.
theorem change_failed_late :
    (¬∀ (c c' : ShardConfig) (order : MapOrder) (rounds : Nat) (servers : Groups),
      c.joinBalance order rounds servers = some (c', false) → c' = c) ∧
    (¬∀ (c c' : ShardConfig) (order : MapOrder) (rounds : Nat) (gids : List Tgid),
      c.leaveBalance order rounds gids = some (c', false) → c' = c) := by
  constructor
  case left =>
    intro h
    have hc := h pair { pair with groups := .insert 0 ["c"] pair.groups } .ascending 10
      (.insert 0 ["c"] (.insert 2 ["b"] ∅)) (by decide +kernel)
    revert hc
    decide
  case right =>
    intro h
    have hc := h pair { pair with groups := .erase 1 pair.groups } .ascending 10 [1, 9] (by decide)
    revert hc
    decide

end ShardConfig
end Shardcfg
