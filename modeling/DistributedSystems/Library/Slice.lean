import Mathlib.Tactic

-- Slices as Go has them. A variable of slice type lives in an array, and an `append` to it writes
-- into that array if there is room. All other slices of the array then have the new elements as
-- well.

-- The arrays of one variable. It starts at the first cell of the latest array, whose `cells` are
-- those that have been written so far. The arrays that it has `left` are not written any more.
structure Backing (α : Type) where
  left     : List (List α)
  cells    : List α
  capacity : Nat

structure Slice where
  array  : Nat
  offset : Nat
  length : Nat

namespace Backing

variable {α : Type}

def new (capacity : Nat) (value : List α) : Backing α where
  left     := []
  cells    := value
  capacity := capacity

def move (b : Backing α) (capacity : Nat) (value : List α) : Backing α where
  left     := b.left ++ [b.cells]
  cells    := value
  capacity := capacity

-- The assignment `x = append(x[:i], ...)` that gives `x` this value. How large a new array has to
-- be depends on the capacity of the old one and on the length that is needed.
def store (growth : Nat → Nat → Nat) (b : Backing α) (value : List α) : Backing α :=
  if value.length ≤ b.capacity
  then { b with cells := value ++ b.cells.drop value.length }
  else b.move (growth b.capacity value.length) value

-- The expression `x[offset:offset + length]`.
def slice (b : Backing α) (offset length : Nat) : Slice where
  array  := b.left.length
  offset := offset
  length := length

def read (b : Backing α) (s : Slice) (k : Nat) : Option α :=
  if k < s.length then (b.left ++ [b.cells])[s.array]?.bind (·[s.offset + k]?) else none

-- The value of the variable.
def Holds (b : Backing α) (value : List α) : Prop :=
  value <+: b.cells

variable {b : Backing α} {value value' elements : List α} {s : Slice}

theorem holds_store (growth : Nat → Nat → Nat) (b : Backing α) (value : List α) :
    (b.store growth value).Holds value := by
  unfold store
  split
  case isTrue  => exact List.prefix_append ..
  case isFalse => exact List.prefix_rfl

-- The slice has these elements, and it ends before the cells that an `append` to the variable
-- writes.
structure Keeps (b : Backing α) (value : List α) (s : Slice) (elements : List α) : Prop where
  read  : ∀ k, b.read s k = elements[k]?
  bound : s.array < b.left.length ∨ s.array = b.left.length ∧ s.offset + s.length ≤ value.length

theorem Holds.keeps_slice (h : b.Holds value) {offset : Nat} (ho : offset ≤ value.length) :
    b.Keeps value (b.slice offset (value.drop offset).length) (value.drop offset) := by
  refine { read := fun k => ?read, bound := .inr ⟨rfl, ?bound⟩ }
  case bound =>
    simp only [slice, List.length_drop]
    omega
  case read =>
    simp only [Backing.read, slice, List.length_drop, List.getElem?_concat_length, Option.bind_some]
    split
    case isTrue hk =>
      rw [List.getElem?_drop, List.prefix_iff_getElem?.mp h _ (by omega), List.getElem?_eq_getElem]
    case isFalse hk =>
      rw [List.getElem?_eq_none]
      rw [List.length_drop]
      omega

namespace Keeps

variable (h : b.Keeps value s elements)

include h

theorem array_le : s.array ≤ b.left.length := by
  cases h.bound
  case inl h => exact h.le
  case inr h => exact h.left.le

theorem move (capacity : Nat) (value' : List α) :
    (b.move capacity value').Keeps value' s elements := by
  have hs := Nat.lt_succ_of_le h.array_le
  have hl : (b.left ++ [b.cells]).length = b.left.length + 1 := List.length_append
  refine { read := fun k => ?read, bound := .inl (hl ▸ hs) }
  rw [←h.read k]
  simp only [Backing.read, Backing.move]
  rw [List.getElem?_append_left (hl ▸ hs)]

theorem store (growth : Nat → Nat → Nat) (hb : b.Holds value) (hv : value <+: value') :
    (b.store growth value').Keeps value' s elements := by
  unfold Backing.store
  split
  case isFalse => exact h.move ..
  case isTrue =>
    refine { read := fun k => ?read, bound := h.bound.imp_right (.imp_right hv.length_le.trans') }
    rw [←h.read k]
    simp only [Backing.read]
    split
    case isFalse => rfl
    case isTrue hk =>
      cases h.bound
      case inl ha => rw [List.getElem?_append_left ha, List.getElem?_append_left ha]
      case inr ha =>
        -- The cell belongs to the old value of the variable, which is a part of the new one.
        obtain ⟨ha, hl⟩ := ha
        have hx : s.offset + k < value.length := by omega
        have hx' := hx.trans_le hv.length_le
        simp only [ha, List.getElem?_concat_length, Option.bind_some]
        rw [List.getElem?_append_left hx', List.getElem?_eq_getElem hx',
          List.prefix_iff_getElem?.mp hb _ hx, ←List.prefix_iff_getElem?.mp hv _ hx,
          List.getElem?_eq_getElem hx']

end Keeps
end Backing
