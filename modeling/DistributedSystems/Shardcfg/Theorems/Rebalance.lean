import DistributedSystems.Library.Balancing
import DistributedSystems.Shardcfg.Basic

namespace Shardcfg

open Balancing Relation

-- Sorting makes up for the order of a `range`.
theorem insertionSort_congr {l₁ l₂ : List Tgid} (h : l₁.Perm l₂) :
    l₁.insertionSort (· ≤ ·) = l₂.insertionSort (· ≤ ·) :=
  (((l₁.perm_insertionSort _).trans h).trans (l₂.perm_insertionSort _).symm).eq_of_pairwise'
    (l₁.pairwise_insertionSort _) (l₂.pairwise_insertionSort _)

theorem MapOrder.perm (order order' : MapOrder) (m : Groups) (k k' : Nat) :
    (order.keys m k).Perm (order'.keys m k') :=
  (List.perm_ext_iff_of_nodup (order.nodup m k) (order'.nodup m k')).mpr fun gid => by
    rw [order.mem, order'.mem]

-- The maps are always run through from the smallest key to the largest one.
def MapOrder.ascending : MapOrder where
  keys m _    := Quot.liftOn m.keys.val (List.insertionSort (· ≤ ·)) fun _ _ => insertionSort_congr
  nodup m _   := by
    have hn := m.keys.nodup
    revert hn
    induction m.keys.val using Quot.inductionOn
    exact fun hn => (List.perm_insertionSort _ _).nodup_iff.mpr hn
  mem m _ gid := by
    rw [←Finmap.mem_keys, ←Finset.mem_val]
    induction m.keys.val using Quot.inductionOn
    exact List.mem_insertionSort _

-- One pass over the groups keeps the first ones with the fewest and with the most shards.
theorem Load.foldl_visit (counts : Tgid → Int) (l : List Tgid) (r : Load) :
    let r' := l.foldl (.visit counts) r
    (r'.ln ≤ r.ln ∧ (∀ g ∈ l, r'.ln ≤ counts g) ∧
      ((r'.lg = r.lg ∧ r'.ln = r.ln) ∨ (r'.lg ∈ l ∧ r'.ln = counts r'.lg))) ∧
    (r.mn ≤ r'.mn ∧ (∀ g ∈ l, counts g ≤ r'.mn) ∧
      ((r'.mg = r.mg ∧ r'.mn = r.mn) ∨ (r'.mg ∈ l ∧ r'.mn = counts r'.mg))) := by
  induction l generalizing r
  case nil => simp
  case cons g l hi =>
    have hv : (r.visit counts g).ln ≤ r.ln ∧ (r.visit counts g).ln ≤ counts g ∧
        (((r.visit counts g).lg = r.lg ∧ (r.visit counts g).ln = r.ln) ∨
          ((r.visit counts g).lg = g ∧ (r.visit counts g).ln = counts g)) ∧
        r.mn ≤ (r.visit counts g).mn ∧ counts g ≤ (r.visit counts g).mn ∧
        (((r.visit counts g).mg = r.mg ∧ (r.visit counts g).mn = r.mn) ∨
          ((r.visit counts g).mg = g ∧ (r.visit counts g).mn = counts g)) := by
      simp only [Load.visit]
      split_ifs <;> simp_all <;> omega
    obtain ⟨v₁, v₂, v₃, v₄, v₅, v₆⟩ := hv
    obtain ⟨⟨h₁, h₂, h₃⟩, h₄, h₅, h₆⟩ := hi (r.visit counts g)
    simp only [List.foldl_cons, List.mem_cons, forall_eq_or_imp]
    refine ⟨⟨h₁.trans v₁, ⟨h₁.trans v₂, h₂⟩, ?_⟩, v₄.trans h₄, ⟨v₅.trans h₄, h₅⟩, ?_⟩
    · grind
    · grind

namespace ShardConfig

variable {c : ShardConfig}

theorem counts_eq (c : ShardConfig) (g : Tgid) : c.counts g = load c.shards g := by
  have hf (l : List Tgid) (f : Tgid → Int) :
      l.foldl (fun counts g => Function.update counts g (counts g + 1)) f g = f g + l.count g := by
    induction l generalizing f
    case nil => simp
    case cons x l hi =>
      rw [List.foldl_cons, hi, List.count_cons]
      by_cases hx : x = g
      case pos => subst hx; simp; omega
      case neg => simp [hx, Function.update_of_ne (Ne.symm hx)]
  have hc : (List.ofFn c.shards).count g = load c.shards g := by
    rw [List.count, List.ofFn_eq_map, List.countP_map, load, List.countP_eq_length_filter,
      ←List.toFinset_card_of_nodup ((List.nodup_finRange 12).filter _)]
    congr 1
    ext s
    simp
  rw [counts, hf, hc, zero_add]

theorem analyze_congr {l₁ l₂ : List Tgid} (h : l₁.Perm l₂) : c.analyze l₁ = c.analyze l₂ := by
  rw [analyze, analyze, insertionSort_congr h]

theorem analyze_spec (hne : c.groups.keys.Nonempty) (order : MapOrder) (k : Nat) :
    let r := c.analyze (order.keys c.groups k)
    (Emptiest c.groups.keys c.shards r.lg ∧ r.ln = load c.shards r.lg) ∧
    (Fullest c.groups.keys c.shards r.mg ∧ r.mn = load c.shards r.mg) := by
  have hm g : g ∈ (order.keys c.groups k).insertionSort (· ≤ ·) ↔ g ∈ c.groups.keys := by
    rw [List.mem_insertionSort, order.mem, Finmap.mem_keys]
  have ⟨g, hg⟩ := hne
  have hle : load c.shards g ≤ 12 := load_le c.shards g
  have ⟨⟨_, hmin, hl⟩, _, hmax, hr⟩ := Load.foldl_visit c.counts
    ((order.keys c.groups k).insertionSort (· ≤ ·)) { mn := -1, mg := -1, ln := 257, lg := -1 }
  simp only [hm, counts_eq] at hmin hl hmax hr
  rw [←analyze] at hmin hl hmax hr
  -- The values that the loop starts with are replaced by those of the first group.
  have hl := hl.resolve_left fun hc => by have := hmin g hg; omega
  have hr := hr.resolve_left fun hc => by have := hmax g hg; omega
  refine ⟨⟨⟨hl.left, fun h hh => ?_⟩, hl.right⟩, ⟨hr.left, fun h hh => ?_⟩, hr.right⟩
  · have := hmin h hh
    omega
  · have := hmax h hh
    omega

-- The first loop

-- What the first loop does when it visits the shards in `l`.
structure Assigned (l : List Shard) (c c' : ShardConfig) : Prop where
  num     : c'.num = c.num
  groups  : c'.groups = c.groups
  fills   : ReflTransGen (Fill c.groups.keys) c.shards c'.shards
  visited : ∀ s ∈ l, c'.shards s ∈ c.groups.keys
  others  : ∀ s ∉ l, c'.shards s = c.shards s

theorem assignShard_assigned (order : MapOrder) {cfg : ShardConfig} (hne : cfg.groups.keys.Nonempty)
    {s : Shard} (hs : cfg.shards s = c.shards s) :
    Assigned [s] cfg (c.assignShard order cfg s) := by
  simp only [assignShard]
  split
  case isTrue hc =>
    refine { num := rfl, groups := rfl, fills := .refl, visited t ht := ?_, others _ _ := rfl }
    rw [List.mem_singleton.mp ht, hs]
    exact Finmap.mem_keys.mpr hc
  case isFalse hc =>
    have ⟨he, _⟩ := (analyze_spec hne order (s + 1)).left
    refine {
      num := rfl, groups := rfl, fills := .single (.put (fun h => hc ?_) he), visited t ht := ?_
      others t ht := Function.update_of_ne (mt List.mem_singleton.mpr ht) .. }
    · exact hs ▸ Finmap.mem_keys.mp h
    · simp only [List.mem_singleton.mp ht, setShard, Function.update_self]
      exact he.left

-- The shards that remain to be visited are still as they were in the copy.
theorem foldl_assigned (order : MapOrder) {l : List Shard} (hl : l.Nodup) {cfg : ShardConfig}
    (hne : cfg.groups.keys.Nonempty) (hs : ∀ s ∈ l, cfg.shards s = c.shards s) :
    Assigned l cfg (l.foldl (c.assignShard order) cfg) := by
  induction l generalizing cfg
  case nil =>
    exact { num := rfl, groups := rfl, fills := .refl, visited := nofun, others _ _ := rfl }
  case cons t l hi =>
    have ⟨ht, hl⟩ := List.nodup_cons.mp hl
    have h₁ := assignShard_assigned order hne (hs t (List.mem_cons_self ..))
    have h₂ : Assigned l (c.assignShard order cfg t) _ := hi hl (h₁.groups ▸ hne) fun s h => by
      rw [h₁.others s (fun hc => ht (List.mem_singleton.mp hc ▸ h))]
      exact hs s (List.mem_cons_of_mem _ h)
    refine {
      num := h₂.num.trans h₁.num, groups := h₂.groups.trans h₁.groups
      fills := h₁.fills.trans (h₁.groups ▸ h₂.fills), visited s h := ?_, others s h := ?_ }
    · by_cases hm : s ∈ l
      case pos => exact h₁.groups ▸ h₂.visited s hm
      case neg =>
        rw [List.foldl_cons, h₂.others s hm]
        exact h₁.visited s (List.mem_singleton.mpr ((List.mem_cons.mp h).resolve_right hm))
    · have ⟨hst, hsl⟩ := not_or.mp (mt List.mem_cons.mpr h)
      rw [List.foldl_cons, h₂.others s hsl, h₁.others s (mt List.mem_singleton.mp hst)]

theorem assign_assigned (order : MapOrder) (hne : c.groups.keys.Nonempty) :
    Assigned (List.finRange 12) c (c.assign order) :=
  foldl_assigned order (List.nodup_finRange 12) hne fun _ _ => rfl

theorem assign_congr (order order' : MapOrder) : c.assign order = c.assign order' := by
  have hx : c.assignShard order = c.assignShard order' := by
    funext cfg s
    simp only [assignShard, least, analyze_congr (order.perm order' cfg.groups (s + 1) (s + 1))]
  rw [assign, assign, hx]

-- The second loop

theorem balanced_of_analyze (hne : c.groups.keys.Nonempty) {order : MapOrder} {k : Nat}
    (h : (c.analyze (order.keys c.groups k)).mn < (c.analyze (order.keys c.groups k)).ln + 2) :
    Balanced c.groups.keys c.shards := by
  have ⟨⟨⟨_, hmin⟩, hl⟩, ⟨_, hmax⟩, hr⟩ := analyze_spec hne order k
  intro g hg g' hg'
  have := hmin g' hg'
  have := hmax g hg
  omega

theorem shift_of_analyze (hne : c.groups.keys.Nonempty) {order : MapOrder} {k : Nat}
    (h : ¬(c.analyze (order.keys c.groups k)).mn < (c.analyze (order.keys c.groups k)).ln + 2) :
    ∃ s gid, c.moveOne (c.analyze (order.keys c.groups k)).mg (c.analyze (order.keys c.groups k)).lg
      = c.setShard s gid ∧ Shift c.groups.keys c.shards (c.setShard s gid).shards := by
  have ⟨⟨hmin, hl⟩, hmax, hr⟩ := analyze_spec hne order k
  have hd : load c.shards (c.analyze (order.keys c.groups k)).lg + 2
      ≤ load c.shards (c.analyze (order.keys c.groups k)).mg := by omega
  -- The group with the most shards has one.
  have ⟨t, ht⟩ := load_pos.mp (Nat.lt_of_lt_of_le (Nat.succ_pos _) hd)
  rw [moveOne]
  cases hs : (List.finRange 12).find? (c.shards · = (c.analyze (order.keys c.groups k)).mg)
  case none =>
    have := List.find?_eq_none.mp hs t (List.mem_finRange t)
    simp [ht] at this
  case some s =>
    have hs : c.shards s = (c.analyze (order.keys c.groups k)).mg := by
      simpa using List.find?_some hs
    exact ⟨s, _, rfl, .move (hs ▸ hmax) hmin (hs ▸ hd)⟩

theorem balance_congr (order order' : MapOrder) (rounds k k' : Nat) :
    balance order rounds k c = balance order' rounds k' c := by
  induction rounds generalizing c k k'
  case zero           => rfl
  case succ rounds hi =>
    simp only [balance, analyze_congr (order.perm order' c.groups k k')]
    rw [hi]

theorem balance_mono {order : MapOrder} {rounds rounds' k : Nat} {c' : ShardConfig}
    (h : balance order rounds k c = some c') (hr : rounds ≤ rounds') :
    balance order rounds' k c = some c' := by
  induction rounds generalizing c k rounds'
  case zero           => cases h
  case succ rounds hi =>
    have ⟨r, hr'⟩ : ∃ r, rounds' = r + 1 := ⟨rounds' - 1, by omega⟩
    subst hr'
    simp only [balance] at h ⊢
    split at h
    case isTrue hc  => rw [if_pos hc]; exact h
    case isFalse hc => rw [if_neg hc]; exact hi h (by omega)

-- Every round brings the loads closer together.
theorem balance_isSome (hne : c.groups.keys.Nonempty) (order : MapOrder) {rounds : Nat} (k : Nat)
    (h : energy c.groups.keys c.shards < rounds) : (balance order rounds k c).isSome := by
  induction rounds generalizing c k
  case zero           => cases h
  case succ rounds hi =>
    simp only [balance]
    split
    case isTrue     => rfl
    case isFalse hc =>
      have ⟨s, gid, hm, hs⟩ := shift_of_analyze hne hc
      rw [hm]
      exact hi (c := c.setShard s gid) hne (k + 1)
        (Nat.lt_of_lt_of_le hs.energy_lt (Nat.le_of_lt_succ h))

theorem balance_spec (hne : c.groups.keys.Nonempty) {order : MapOrder} {rounds k : Nat}
    {c' : ShardConfig} (h : balance order rounds k c = some c') :
    c'.num = c.num ∧ c'.groups = c.groups ∧
    ReflTransGen (Shift c.groups.keys) c.shards c'.shards ∧ Balanced c.groups.keys c'.shards := by
  induction rounds generalizing c k
  case zero           => cases h
  case succ rounds hi =>
    simp only [balance] at h
    split at h
    case isTrue hc  => cases h; exact ⟨rfl, rfl, .refl, balanced_of_analyze hne hc⟩
    case isFalse hc =>
      have ⟨s, gid, hm, hs⟩ := shift_of_analyze hne hc
      have ⟨h₁, h₂, h₃, h₄⟩ := hi (c := c.setShard s gid) hne (hm ▸ h)
      exact ⟨h₁, h₂, h₃.head hs, h₄⟩

-- Rebalance

theorem rebalance_eq (hne : c.groups.keys.Nonempty) (order : MapOrder) (rounds : Nat) :
    c.rebalance order rounds = balance order rounds 13 (c.assign order) :=
  if_neg (Nat.not_lt.mpr (Finset.card_pos.mpr hne))

theorem rebalance_of_empty (he : ¬c.groups.keys.Nonempty) (order : MapOrder) (rounds : Nat) :
    c.rebalance order rounds = some { c with shards := fun _ => 0 } := by
  rw [rebalance, if_pos (by simp [Finset.not_nonempty_iff_eq_empty.mp he])]

theorem rebalance_spec (hne : c.groups.keys.Nonempty) {order : MapOrder} {rounds : Nat}
    {c' : ShardConfig} (h : c.rebalance order rounds = some c') :
    c'.num = c.num ∧ c'.groups = c.groups ∧ Balanced c.groups.keys c'.shards ∧
    (∀ s, c'.shards s ∈ c.groups.keys) ∧
    ∃ shards, ReflTransGen (Fill c.groups.keys) c.shards shards ∧
      ReflTransGen (Shift c.groups.keys) shards c'.shards := by
  have ha := assign_assigned order hne
  rw [rebalance_eq hne] at h
  have ⟨h₁, h₂, h₃, h₄⟩ := balance_spec (c := c.assign order) (ha.groups ▸ hne) h
  rw [ha.groups] at h₂ h₃ h₄
  have hc := covered_of_shifts h₃ fun s => ha.visited s (List.mem_finRange s)
  exact ⟨h₁.trans ha.num, h₂, h₄, hc, _, ha.fills, h₃⟩

-- Balancing ends after some number of rounds with one configuration for all orders.
theorem rebalance_balances (c : ShardConfig) (hne : c.groups ≠ ∅) :
    ∃ c' N, (∀ order rounds, N ≤ rounds → c.rebalance order rounds = some c') ∧
      (∀ s, c'.shards s ∈ c'.groups) ∧
      (∀ g ∈ c'.groups, ∀ g' ∈ c'.groups, c'.counts g ≤ c'.counts g' + 1) ∧
      c'.num = c.num ∧ c'.groups = c.groups := by
  have hne : c.groups.keys.Nonempty := by
    rw [Finset.nonempty_iff_ne_empty]
    intro hc
    refine hne (Finmap.ext_lookup fun g => ?_)
    rw [Finmap.lookup_empty, Finmap.lookup_eq_none, ←Finmap.mem_keys, hc]
    exact Finset.notMem_empty g
  have ha := assign_assigned .ascending hne
  let N := energy (c.assign .ascending).groups.keys (c.assign .ascending).shards + 1
  have ⟨c', h⟩ := Option.isSome_iff_exists.mp <| balance_isSome (c := c.assign .ascending)
    (ha.groups ▸ hne) .ascending 13 (Nat.lt_succ_self _)
  have ⟨h₁, h₂, h₃, h₄, _⟩ := rebalance_spec hne ((rebalance_eq hne .ascending N).trans h)
  refine ⟨c', N, fun order rounds hN => ?_, fun s => ?_, fun g hg g' hg' => ?_, h₁, h₂⟩
  · rw [rebalance_eq hne, assign_congr order .ascending,
      balance_congr order .ascending rounds 13 13]
    exact balance_mono h hN
  · rw [h₂]
    exact Finmap.mem_keys.mp (h₄ s)
  · rw [counts_eq, counts_eq]
    rw [h₂] at hg hg'
    exact_mod_cast h₃ g (Finmap.mem_keys.mpr hg) g' (Finmap.mem_keys.mpr hg')

-- Two groups, one with all shards but those of a third group that has left.
def lopsided : ShardConfig where
  num      := 4
  shards s := if s < 9 then 1 else 3
  groups   := .insert 2 ["b"] (.insert 1 ["a"] ∅)

theorem rebalance_balances_lopsided :
    ∃ c' N, (∀ order rounds, N ≤ rounds → lopsided.rebalance order rounds = some c') ∧
      (∀ s, c'.shards s ∈ c'.groups) ∧
      (∀ g ∈ c'.groups, ∀ g' ∈ c'.groups, c'.counts g ≤ c'.counts g' + 1) ∧
      c'.num = lopsided.num ∧ c'.groups = lopsided.groups :=
  rebalance_balances lopsided (by decide)

example : (lopsided.rebalance .ascending 10).map (fun c => List.ofFn c.shards)
    = some [2, 2, 2, 1, 1, 1, 1, 1, 1, 2, 2, 2] := by
  decide +kernel

end ShardConfig
end Shardcfg
