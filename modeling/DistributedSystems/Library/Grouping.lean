import Mathlib.Data.List.TakeWhile
import Mathlib.Tactic

-- Maps from keys to the lists of their values. The order of the entries has no meaning.
abbrev Groups (α β : Type) :=
  List (α × List β)

namespace Groups

variable {α β γ : Type} [DecidableEq α]

def append : Groups α β → α → β → Groups α β
  | [], a, b           => [(a, [b])]
  | (c, bs) :: m, a, b => if c = a then (c, bs ++ [b]) :: m else (c, bs) :: append m a b

def appendAll (m : Groups α β) (l : List (α × β)) : Groups α β :=
  l.foldl (fun m p => m.append p.fst p.snd) m

-- The values of a key in the order of the list.
def values (l : List (α × β)) (a : α) : List β :=
  (l.filter (·.fst = a)).map Prod.snd

def keys (l : List (α × β)) : List α :=
  (l.map Prod.fst).dedup

variable {m m' : Groups α β} {l l' : List (α × β)} {a c : α} {b : β} {bs : List β}

theorem mem_keys : a ∈ keys l ↔ ∃ b, (a, b) ∈ l := by
  simp [keys]

theorem mem_values : b ∈ values l a ↔ (a, b) ∈ l := by
  simp [values]

theorem values_append : values (l ++ l') a = values l a ++ values l' a := by
  simp [values]

theorem values_nil : values ([] : List (α × β)) a = [] :=
  rfl

theorem values_cons_self : values ((a, b) :: l) a = b :: values l a := by
  simp [values]

theorem values_cons_of_ne (h : c ≠ a) : values ((c, b) :: l) a = values l a := by
  simp [values, h]

theorem values_eq_nil_iff : values l a = [] ↔ a ∉ keys l := by
  simp only [values, List.map_eq_nil_iff, List.filter_eq_nil_iff, decide_eq_true_eq, mem_keys]
  constructor
  · rintro h ⟨b, hb⟩
    exact h _ hb rfl
  · rintro h ⟨_, b⟩ hb rfl
    exact h ⟨b, hb⟩

theorem values_map (f : β → α) (bs : List β) :
    values (bs.map fun b => (f b, b)) a = bs.filter (f · = a) := by
  simp [values, List.filter_map, Function.comp_def]

theorem values_filter (f : α → Bool) :
    values (l.filter (f ·.fst)) a = if f a then values l a else [] := by
  induction l
  case nil => simp [values]
  case cons p l hi => grind [values]

theorem Perm.values (h : l.Perm l') (a : α) : (values l a).Perm (values l' a) :=
  (h.filter _).map _

theorem Perm.keys (h : l.Perm l') : (keys l).Perm (keys l') :=
  (h.map _).dedup

-- What a map of groups has to look like after all elements of the list have been put into it.
structure IsGrouping (m : Groups α β) (l : List (α × β)) : Prop where
  nodup : (m.map Prod.fst).Nodup
  mem   : ∀ a bs, (a, bs) ∈ m ↔ bs ≠ [] ∧ bs = values l a

theorem mem_append (hd : (m.map Prod.fst).Nodup) :
    (c, bs) ∈ m.append a b ↔
      (c ≠ a ∧ (c, bs) ∈ m) ∨
      (c = a ∧ ∃ bs', bs = bs' ++ [b] ∧ ((a, bs') ∈ m ∨ (bs' = [] ∧ a ∉ m.map Prod.fst))) := by
  induction m
  case nil =>
    simp only [append, List.mem_singleton, Prod.mk.injEq, List.not_mem_nil, and_false, false_or,
      List.map_nil, not_false_eq_true, and_true]
    constructor
    · rintro ⟨rfl, rfl⟩
      exact ⟨rfl, [], rfl, rfl⟩
    · rintro ⟨rfl, _, rfl, rfl⟩
      exact ⟨rfl, rfl⟩
  case cons p m hi =>
    obtain ⟨a', bs'⟩ := p
    have ⟨hn, hd⟩ := List.nodup_cons.mp hd
    have hn (bs) : (a', bs) ∉ m := fun h => hn <| List.mem_map.mpr ⟨_, h, rfl⟩
    rw [append]
    split_ifs with he
    case pos =>
      subst he
      grind
    case neg => grind

theorem map_fst_append (m : Groups α β) (a : α) (b : β) :
    (m.append a b).map Prod.fst =
      if a ∈ m.map Prod.fst then m.map Prod.fst else m.map Prod.fst ++ [a] := by
  induction m
  case nil => simp [append]
  case cons p m hi =>
    rw [append]
    split_ifs <;> grind

theorem nodup_append (hd : (m.map Prod.fst).Nodup) (a : α) (b : β) :
    ((m.append a b).map Prod.fst).Nodup := by
  rw [map_fst_append]
  split_ifs with h
  case pos => exact hd
  case neg => exact hd.append (List.nodup_singleton a) (List.disjoint_singleton.mpr h)

namespace IsGrouping

theorem nil : IsGrouping ([] : Groups α β) [] where
  nodup := List.nodup_nil
  mem _ _ := by simp [values]

theorem mem_map_fst (h : IsGrouping m l) : a ∈ m.map Prod.fst ↔ a ∈ keys l := by
  rw [← not_iff_not, ← values_eq_nil_iff]
  constructor
  · intro hn
    by_contra hv
    exact hn <| List.mem_map.mpr ⟨_, (h.mem a _).mpr ⟨hv, rfl⟩, rfl⟩
  · rintro hv hm
    have ⟨⟨_, _⟩, hp, he⟩ := List.mem_map.mp hm
    subst he
    have ⟨hn, he⟩ := (h.mem _ _).mp hp
    exact hn (he.trans hv)

theorem append (h : IsGrouping m l) (a : α) (b : β) :
    IsGrouping (m.append a b) (l ++ [(a, b)]) where
  nodup := nodup_append h.nodup a b
  mem c bs := by
    rw [mem_append h.nodup, h.mem_map_fst, ← values_eq_nil_iff, values_append]
    simp only [h.mem]
    by_cases hc : c = a
    case pos =>
      subst hc
      have hv (bs') :
          (bs' ≠ [] ∧ bs' = values l c) ∨ (bs' = [] ∧ values l c = []) ↔ bs' = values l c := by
        grind
      rw [values_cons_self, values_nil]
      simp only [hv, ne_eq, not_true_eq_false, false_and, true_and, false_or, exists_eq_right]
      simp +contextual
    case neg => simp [hc, values_cons_of_ne (Ne.symm hc), values_nil]

theorem appendAll (h : IsGrouping m l) (l' : List (α × β)) :
    IsGrouping (m.appendAll l') (l ++ l') := by
  induction l' generalizing m l
  case nil => simpa [Groups.appendAll] using h
  case cons p l' hi =>
    rw [List.append_cons]
    exact hi (h.append p.fst p.snd)

-- A grouping is determined by its list up to the order of the entries.
theorem perm (h : IsGrouping m l) : m.Perm ((keys l).map fun a => (a, values l a)) := by
  refine (List.perm_ext_iff_of_nodup h.nodup.of_map ?nodup).mpr ?mem
  case nodup => exact (List.nodup_dedup _).map fun _ _ he => congrArg Prod.fst he
  case mem =>
    rintro ⟨a, bs⟩
    simp only [h.mem, List.mem_map, Prod.mk.injEq]
    constructor
    · rintro ⟨hn, rfl⟩
      exact ⟨a, by_contra (hn <| values_eq_nil_iff.mpr ·), rfl, rfl⟩
    · rintro ⟨_, ha, rfl, rfl⟩
      exact ⟨(values_eq_nil_iff.not_left.mpr ha), rfl⟩

-- Groups remember the values of each key in their order, but nothing else.
theorem values_eq (h : IsGrouping m l) (h' : IsGrouping m l') (a : α) :
    values l a = values l' a := by
  by_cases hv : values l a = []
  case neg => exact ((h'.mem a _).mp ((h.mem a _).mpr ⟨hv, rfl⟩)).right
  case pos =>
    rw [hv, eq_comm, values_eq_nil_iff, ←h'.mem_map_fst, h.mem_map_fst, ←values_eq_nil_iff]
    exact hv

theorem of_perm (h : IsGrouping m l) (hm : m.Perm m') : IsGrouping m' l where
  nodup    := (hm.map _).nodup_iff.mp h.nodup
  mem a bs := hm.mem_iff.symm.trans (h.mem a bs)

-- Groupings are built from chunks which do not share keys.
theorem chunk {t : List (α × β)} (h : IsGrouping m l) (hn : t ≠ []) (ht : ∀ p ∈ t, p.fst = a)
    (ha : a ∉ keys l) : IsGrouping ((a, t.map Prod.snd) :: m) (t ++ l) where
  nodup := List.nodup_cons.mpr ⟨h.mem_map_fst.not.mpr ha, h.nodup⟩
  mem c bs := by
    have hl := values_eq_nil_iff.mpr ha
    by_cases hc : c = a
    case pos =>
      subst hc
      have hv : values t c = t.map Prod.snd := by
        rw [values, List.filter_eq_self.mpr (by simpa using ht)]
      rw [values_append, hv, hl, List.append_nil, List.mem_cons, h.mem, hl]
      grind [List.map_eq_nil_iff]
    case neg =>
      have hv : values t c = [] := by
        rw [values_eq_nil_iff, mem_keys]
        exact fun ⟨_, hp⟩ => hc (ht _ hp)
      simp [values_append, hv, h.mem, hc]

theorem flatMap {m : Nat → Groups α β} {f : α → Nat} {n : Nat} (hn : ∀ p ∈ l, f p.fst < n)
    (hm : ∀ i < n, IsGrouping (m i) (l.filter (f ·.fst = i))) :
    IsGrouping ((List.range n).flatMap m) l where
  nodup := by
    have hk {i a} (hi : i < n) (ha : a ∈ (m i).map Prod.fst) : f a = i := by
      have ⟨_, hb⟩ := mem_keys.mp <| (hm i hi).mem_map_fst.mp ha
      simpa using (List.mem_filter.mp hb).right
    rw [List.map_flatMap, List.nodup_flatMap]
    refine ⟨fun i hi => (hm i <| List.mem_range.mp hi).nodup, ?_⟩
    refine List.nodup_range.pairwise_of_forall_ne fun i hi j hj hne => ?_
    intro a ha ha'
    exact hne <| (hk (List.mem_range.mp hi) ha).symm.trans (hk (List.mem_range.mp hj) ha')
  mem a bs := by
    simp only [List.mem_flatMap, List.mem_range]
    constructor
    · rintro ⟨i, hi, h⟩
      rw [(hm i hi).mem, values_filter (f · = i)] at h
      grind
    · rintro ⟨hb, rfl⟩
      have ⟨b, hp⟩ := mem_keys.mp <| by_contra (hb <| values_eq_nil_iff.mpr ·)
      refine ⟨f a, hn _ hp, ?_⟩
      rw [(hm _ (hn _ hp)).mem, values_filter (f · = f a)]
      simpa using hb

-- What does not depend on the order of the values does not depend on the order of the list.
theorem map_perm {f : α → List β → γ} (hf : ∀ a bs bs', bs.Perm bs' → f a bs = f a bs')
    (h : IsGrouping m l) (h' : IsGrouping m' l') (hl : l.Perm l') :
    (m.map fun g => f g.fst g.snd).Perm (m'.map fun g => f g.fst g.snd) := by
  have he : (keys l).map (fun a => f a (values l a)) = (keys l).map (fun a => f a (values l' a)) :=
    List.map_congr_left fun a _ => hf _ _ _ (Perm.values hl a)
  calc
    List.Perm _ ((keys l).map fun a => f a (values l a)) := by
      simpa [Function.comp_def] using h.perm.map fun g => f g.fst g.snd
    List.Perm _ ((keys l').map fun a => f a (values l' a)) := he ▸ (Perm.keys hl).map _
    List.Perm _ _ := by
      simpa [Function.comp_def] using (h'.perm.map fun g => f g.fst g.snd).symm

end IsGrouping

-- The maximal segments of equal keys, found by scanning the list from the left.
def runs : List (α × β) → Groups α β
  | []     => []
  | p :: l =>
    (p.fst, p.snd :: (l.takeWhile (·.fst = p.fst)).map Prod.snd) ::
      runs (l.dropWhile (·.fst = p.fst))
  termination_by l => l.length
  decreasing_by exact Nat.lt_succ_of_le (List.dropWhile_sublist _).length_le

theorem not_mem_keys_dropWhile {r : α → α → Prop} [Std.Antisymm r] {p : α × β}
    (hp : ∀ q ∈ l, r p.fst q.fst) (hl : l.Pairwise fun q q' => r q.fst q'.fst) :
    p.fst ∉ keys (l.dropWhile (·.fst = p.fst)) := by
  induction l
  case nil => simp [keys]
  case cons q l hi =>
    have ⟨hq, hl⟩ := List.pairwise_cons.mp hl
    by_cases he : q.fst = p.fst
    case pos =>
      rw [List.dropWhile_cons_of_pos (by simpa using he)]
      exact hi (fun q hq => hp q <| List.mem_cons_of_mem _ hq) hl
    case neg =>
      rw [List.dropWhile_cons_of_neg (by simpa using he), mem_keys]
      rintro ⟨b, hb⟩
      cases hb
      case head => exact he rfl
      case tail hb =>
        exact he <| Std.Antisymm.antisymm _ _ (hq (p.fst, b) hb) (hp q List.mem_cons_self)

-- In a sorted list equal keys are adjacent, so that no key has two segments.
theorem runs_isGrouping {r : α → α → Prop} [Std.Antisymm r]
    (hl : l.Pairwise fun q q' => r q.fst q'.fst) : IsGrouping (runs l) l := by
  induction l using runs.induct
  case case1 => simpa [runs] using IsGrouping.nil
  case case2 p l hi =>
    have ⟨hp, hl⟩ := List.pairwise_cons.mp hl
    have hd := hi (hl.sublist <| List.dropWhile_sublist _)
    have ht : ∀ q ∈ p :: l.takeWhile (·.fst = p.fst), q.fst = p.fst := by
      intro q hq
      cases hq
      case head    => rfl
      case tail hq => simpa using List.mem_takeWhile_imp hq
    have hs := hd.chunk (List.cons_ne_nil _ _) ht (not_mem_keys_dropWhile hp hl)
    rw [runs]
    simpa using hs

end Groups
