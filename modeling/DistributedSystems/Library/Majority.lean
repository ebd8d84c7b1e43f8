import Mathlib.Data.Fintype.Card
import Mathlib.Data.List.Sort
import Mathlib.Tactic

variable {P : Type} [Fintype P]

theorem exists_mem_inter [DecidableEq P] {Q₁ Q₂ : Finset P}
    (h : Fintype.card P < Q₁.card + Q₂.card) :
    ∃ p, p ∈ Q₁ ∧ p ∈ Q₂ := by
  by_contra hc
  have hd : Disjoint Q₁ Q₂ := Finset.disjoint_left.mpr fun p h h' => hc ⟨p, h, h'⟩
  have hu := Finset.card_union_of_disjoint hd ▸ Finset.card_le_univ (Q₁ ∪ Q₂)
  omega

def Majority (Q : Finset P) : Prop :=
  Fintype.card P < 2 * Q.card

namespace Majority

theorem inter [DecidableEq P] {Q₁ Q₂ : Finset P} (h₁ : Majority Q₁) (h₂ : Majority Q₂) :
    ∃ p, p ∈ Q₁ ∧ p ∈ Q₂ := by
  unfold Majority at h₁ h₂
  exact exists_mem_inter (by omega)

theorem nonempty {Q : Finset P} (h : Majority Q) : Q.Nonempty := by
  by_contra hc
  simp [Majority, Finset.not_nonempty_iff_eq_empty.mp hc] at h

theorem univ [Nonempty P] : Majority (Finset.univ : Finset P) := by
  have := Fintype.card_pos (α := P)
  simp only [Majority, Finset.card_univ]
  omega

theorem mono {Q₁ Q₂ : Finset P} (h : Majority Q₁) (hs : Q₁ ⊆ Q₂) : Majority Q₂ :=
  Nat.lt_of_lt_of_le h (Nat.mul_le_mul_left 2 (Finset.card_le_card hs))

end Majority

-- Order statistics

-- The elements from position `k` on are the ones that a bound below the `k`-th element lets
-- through.
theorem le_getElem_iff_countP {α : Type} [LinearOrder α] {l : List α}
    (h : l.Pairwise (· ≤ ·)) {k : Nat} (hk : k < l.length) (c : α) :
    c ≤ l[k] ↔ l.length - k ≤ l.countP (c ≤ ·) := by
  have hs := List.pairwise_iff_getElem.mp h
  constructor
  case mp =>
    intro hc
    have ha : (l.drop k).countP (c ≤ ·) = (l.drop k).length := by
      refine List.countP_eq_length.mpr fun a ha => ?_
      have ⟨i, hi, ha⟩ := List.mem_iff_getElem.mp ha
      rw [List.length_drop] at hi
      rw [List.getElem_drop] at ha
      cases Nat.eq_zero_or_pos i
      case inl h => subst h; simpa [←ha] using hc
      case inr h => simpa [←ha] using hc.trans (hs k (k + i) hk (by omega) (by omega))
    rw [List.length_drop] at ha
    exact ha ▸ (List.drop_sublist k l).countP_le
  case mpr =>
    intro hc
    by_contra hn
    have ha : (l.take (k + 1)).countP (c ≤ ·) = 0 := by
      refine List.countP_eq_zero.mpr fun a ha => ?_
      have ⟨i, hi, ha⟩ := List.mem_iff_getElem.mp ha
      rw [List.length_take] at hi
      rw [List.getElem_take] at ha
      cases Nat.lt_or_ge i k
      case inl h => simpa [←ha] using (hs i k (by omega) hk h).trans_lt (not_le.mp hn)
      case inr h =>
        have : i = k := by omega
        subst this
        simpa [←ha] using hn
    have hd := List.countP_le_length (p := (c ≤ ·)) (l := l.drop (k + 1))
    rw [←List.take_append_drop (k + 1) l, List.countP_append, ha, List.take_append_drop] at hc
    rw [List.length_drop] at hd
    omega

section Median

variable {α : Type} [LinearOrder α] {n : Nat}

-- The value in the middle after sorting, of two such values the lower one.
def lowerMedian (m : Fin n → α) : Option α :=
  let tmp := (List.ofFn m).insertionSort (· ≤ ·)
  tmp[(tmp.length - 1) / 2]?

theorem countP_insertionSort_ofFn (m : Fin n → α) (c : α) :
    ((List.ofFn m).insertionSort (· ≤ ·)).countP (c ≤ ·) = (Finset.univ.filter (c ≤ m ·)).card := by
  rw [(List.perm_insertionSort (· ≤ ·) (List.ofFn m)).countP_eq, List.ofFn_eq_map, List.countP_map,
    List.countP_eq_length_filter, ←List.toFinset_card_of_nodup]
  · congr 1; ext v; simp
  · exact (List.nodup_finRange n).filter _

-- What is below the median is below a majority of the values.
theorem exists_lowerMedian (hn : 0 < n) (m : Fin n → α) :
    ∃ v, lowerMedian m = some v ∧ ∀ c, c ≤ v ↔ Majority (Finset.univ.filter (c ≤ m ·)) := by
  have hl : ((List.ofFn m).insertionSort (· ≤ ·)).length = n := by simp
  have hk : (n - 1) / 2 < ((List.ofFn m).insertionSort (· ≤ ·)).length := by omega
  refine ⟨_, by rw [lowerMedian, hl, List.getElem?_eq_getElem hk], fun c => ?_⟩
  rw [le_getElem_iff_countP (List.pairwise_insertionSort _ _) hk, countP_insertionSort_ofFn, hl,
    Majority, Fintype.card_fin]
  omega

end Median
