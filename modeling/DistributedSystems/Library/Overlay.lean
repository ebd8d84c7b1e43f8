import DistributedSystems.Library.TermLog

-- A log over which another one is laid: entries of the same term stay, the first entry of another
-- term gives way together with all that follows it.

namespace TermLog

open Termed

variable {E : Type} [Termed E]

def overlay : List E → List E → List E
  | [],     m      => m
  | l,      []     => l
  | d :: l, e :: m => if termOf d = termOf e then d :: overlay l m else e :: m

-- The first entries have the same terms.
def Aligned : Nat → List E → List E → Prop
  | 0,     _,      _      => True
  | _ + 1, [],     _      => False
  | _ + 1, _,      []     => False
  | k + 1, d :: l, e :: m => termOf d = termOf e ∧ Aligned k l m

variable {l m m' u : List E} {k : Nat} {d e : E}

@[simp]
theorem overlay_nil (l : List E) : overlay l [] = l := by
  cases l <;> rfl

theorem length_le_overlay (l m : List E) : m.length ≤ (overlay l m).length := by
  induction m generalizing l
  case nil => exact Nat.zero_le _
  case cons e m hi =>
    cases l <;> simp only [overlay]
    case nil => exact le_rfl
    case cons d l =>
      split_ifs
      case pos => exact Nat.succ_le_succ (hi l)
      case neg => exact le_rfl

-- What is laid over a log later does not matter if it is contained in what has been laid over it.
theorem overlay_overlay (h : m <+: u) (l : List E) : overlay (overlay l u) m = overlay l u := by
  induction m generalizing l u
  case nil => exact overlay_nil _
  case cons e m hi =>
    have ⟨r, hr⟩ := h
    subst hr
    have hp : m <+: m ++ r := List.prefix_append m r
    -- The entries of the second log only meet themselves.
    have hself : overlay (m ++ r) m = m ++ r := hi hp []
    cases l <;> simp only [List.cons_append, overlay, if_true, hself]
    case cons d l =>
      split_ifs with ht
      case pos => simp only [overlay, ht, if_true, hi hp]
      case neg => simp only [overlay, if_true, hself]

-- Nor does what has been laid over it before.
theorem overlay_overlay_left (h : m <+: u) (l : List E) :
    overlay (overlay l m) u = overlay l u := by
  induction m generalizing l u
  case nil => rw [overlay_nil]
  case cons e m hi =>
    have ⟨r, hr⟩ := h
    subst hr
    have hp : m <+: m ++ r := List.prefix_append m r
    have hself : overlay m (m ++ r) = m ++ r := hi hp []
    cases l <;> simp only [List.cons_append, overlay, if_true, hself]
    case cons d l =>
      split_ifs with ht
      case pos => simp only [overlay, ht, if_true, hi hp]
      case neg => simp only [overlay, if_true, hself]

theorem Aligned.le_length (h : Aligned k l m) : k ≤ l.length := by
  induction k generalizing l m
  case zero => exact Nat.zero_le _
  case succ k hi =>
    cases l <;> cases m
    case cons.cons => exact Nat.succ_le_succ (hi h.right)
    all_goals exact h.elim

theorem Aligned.overlay_eq (h : Aligned k l m) :
    overlay l m = l.take k ++ overlay (l.drop k) (m.drop k) := by
  induction k generalizing l m
  case zero => rfl
  case succ k hi =>
    cases l <;> cases m
    case cons.cons d l e m =>
      have ⟨ht, h⟩ := h
      simp only [overlay, ht, if_true, List.take_succ_cons, List.drop_succ_cons, List.cons_append,
        hi h]
    all_goals exact h.elim

theorem Aligned.overlay (h : Aligned k l m) (hm : m <+: u) (hm' : m' <+: u) :
    Aligned k (overlay l m') m := by
  induction k generalizing l m m' u
  case zero => trivial
  case succ k hi =>
    cases l <;> cases m
    case cons.cons d l e m =>
      cases m'
      case nil => rwa [overlay_nil]
      case cons e' m' =>
        have ⟨r, hr⟩ := hm
        subst hr
        have ⟨he, hm'⟩ := List.cons_prefix_cons.mp hm'
        have ⟨ht, h⟩ := h
        rw [he]
        simp only [TermLog.overlay, ht, if_true]
        exact ⟨ht, hi h (List.prefix_append m r) hm'⟩
    all_goals exact h.elim

theorem Aligned.of_take (h : l.take k = m.take k) (hd : l[k]? = some d) (he : m[k]? = some e)
    (ht : termOf d = termOf e) : Aligned (k + 1) l m := by
  induction k generalizing l m <;> cases l <;> cases m
  case zero.cons.cons =>
    cases hd
    cases he
    exact ⟨ht, trivial⟩
  case succ.cons.cons k hi _ _ _ _ =>
    have ⟨hx, h⟩ := List.cons.inj h
    exact ⟨hx ▸ rfl, hi h hd he⟩
  all_goals simp at hd he

-- Where entries of the same term are the same, nothing of what is laid over a log is lost.
theorem prefix_overlay
    (h : ∀ (i : Nat) d e, l[i]? = some d → m[i]? = some e → termOf d = termOf e → d = e) :
    m <+: overlay l m := by
  induction m generalizing l
  case nil => exact List.nil_prefix
  case cons e m hi =>
    cases l <;> simp only [overlay]
    case nil => exact List.prefix_refl _
    case cons d l =>
      split_ifs with ht
      case neg => exact List.prefix_refl _
      case pos =>
        rw [h 0 d e rfl rfl ht]
        exact List.cons_prefix_cons.mpr ⟨rfl, hi fun i => h (i + 1)⟩

end TermLog
