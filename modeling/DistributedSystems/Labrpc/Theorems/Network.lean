import DistributedSystems.Labrpc.Network
import Mathlib.Tactic

namespace Labrpc

namespace Rpc

variable {N Res : Type} {rpc rpc' : Rpc N Res} {found : Option (Info N)} {dead : Info N → Bool}
  {reply : Res}

-- All that `processReq` can do.
inductive Stepped (found : Option (Info N)) (dead : Info N → Bool) (rpc : Rpc N Res) :
    Rpc N Res → Prop
  | read (process : Process Res) :
    (rpc.process = .sent) → (process = .delaying ∨ process = .timed none) →
    Stepped found dead rpc { rpc with process, info := found }
  | call : (rpc.process = .delaying) →
    Stepped found dead rpc { rpc with process := .waiting, dispatch := .called }
  | poll : (rpc.process = .waiting) → Stepped found dead rpc rpc
  | receive (reply : Option Res) :
    (rpc.process = .waiting) → (rpc.dispatch = .returned reply) →
    Stepped found dead rpc { rpc with process := .answered reply }
  | pass (reply : Option Res) (info : Info N) (process : Process Res) :
    (rpc.process = .answered reply) → (rpc.info = some info) → (dead info = false) →
    (process = .timed reply ∨ process = .replied reply) →
    Stepped found dead rpc { rpc with process }
  | fail : (rpc.process ≠ .sent) → Stepped found dead rpc { rpc with process := .replied none }
  | timeout (reply : Option Res) :
    (rpc.process = .timed reply) → Stepped found dead rpc { rpc with process := .replied reply }

theorem stepped {a : Step} (h : rpc.next found dead a = some rpc') :
    rpc.Stepped found dead rpc' := by
  cases a <;> simp only [next] at h <;> split at h <;> (try cases h)
  -- The steps in the order of `Step`. All others are not possible.
  · exact .read _ ‹_› (by split_ifs <;> simp)
  · next hp _ =>
    split_ifs at h
    cases h
    exact .fail (by simp [hp])
  · exact .call ‹_›
  · next hp _ =>
    split_ifs
    · exact .fail (by simp [hp])
    · exact .poll hp
  · exact .receive _ ‹_› ‹_›
  · next fate _ _ reply info hp hi =>
    by_cases hd : dead info
    case pos =>
      rw [if_pos hd] at h
      cases h
      exact .fail (by simp [hp])
    case neg =>
      rw [if_neg hd] at h
      have hd := Bool.eq_false_iff.mpr hd
      cases fate <;> simp at h
      case drop  => exact h.right ▸ .fail (by simp [hp])
      case delay => exact h.right ▸ .pass reply info _ hp hi hd (.inl rfl)
      case pass  => exact h ▸ .pass reply info _ hp hi hd (.inr rfl)
  · exact .timeout _ ‹_›

-- The handler has made the reply, and `processReq` will look at the server before it passes it on.
def Holds (rpc : Rpc N Res) (reply : Res) : Prop :=
  rpc.dispatch = .handled reply ∨ rpc.dispatch = .returned (some reply) ∨
  rpc.process = .answered (some reply)

def Passes (rpc : Rpc N Res) (reply : Res) : Prop :=
  rpc.process = .timed (some reply) ∨ rpc.process = .replied (some reply)

namespace Stepped

theorem info (h : rpc.Stepped found dead rpc') :
    rpc'.info = rpc.info ∨ rpc.process = .sent ∧ rpc'.info = found := by
  cases h
  case read hp _ => exact .inr ⟨hp, rfl⟩
  all_goals exact .inl rfl

theorem process_ne_sent (h : rpc.Stepped found dead rpc') : rpc'.process ≠ .sent := by
  cases h
  case read hp          => rcases hp with rfl | rfl <;> simp
  case pass hp          => rcases hp with rfl | rfl <;> simp
  case poll hp          => simp [hp]
  all_goals simp

theorem holds (h : rpc.Stepped found dead rpc') (hr : rpc'.Holds reply) : rpc.Holds reply := by
  rcases hr with hr | hr | hr <;> cases h
  all_goals simp_all [Holds]

-- A reply is only passed on if the server is still there after the handler has returned.
theorem passes (h : rpc.Stepped found dead rpc') (hr : rpc'.Passes reply) :
    rpc.Passes reply ∨ rpc.Holds reply ∧ ∃ info, rpc.info = some info ∧ dead info = false := by
  rcases hr with hr | hr <;> cases h
  all_goals simp_all [Holds, Passes]

end Stepped
end Rpc
end Labrpc
