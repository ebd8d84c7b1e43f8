import DistributedSystems.Clerk.Get
import DistributedSystems.Clerk.Theorems.Call

namespace KvSrv

-- What the `Get`s have in common: they return what the map has answered.
structure Clerk.Reading {σ ι : Type} (C : Clerk σ ι) : Prop where
  start    : ∀ err, C.start ≠ .done err
  answered : ∀ s reply i err, C.proceed s reply i = .done err → reply = some err ∧ err ∉ C.refusals

theorem getClerk_reading : getClerk.Reading where
  start              := nofun
  answered _ reply _ := by cases reply <;> simp [getClerk]

end KvSrv

theorem KvRaft.getClerk_reading {servers : Nat} (leader : Fin servers) :
    (getClerk servers leader).Reading where
  start                    := nofun
  answered _ reply _ err h := by
    cases reply <;> simp only [getClerk] at h
    case none => cases h
    case some =>
      split_ifs at h with he
      cases h
      exact ⟨rfl, by simpa [getClerk] using he⟩

theorem ShardKv.getClerk_reading (servers : Nat) : (getClerk servers).Reading where
  start _                      := Clerk.begin_ne_done
  answered ck reply input err h := by
    simp only [getClerk] at h
    split at h
    case h_1         => cases h
    case h_2         => exact absurd h Clerk.begin_ne_done
    case h_3         => exact absurd h Clerk.begin_ne_done
    case h_4 e he hl =>
      cases h
      have ⟨ha, hw⟩ := Shardgrp.Clerk.loop_some hl
      exact ⟨ha, by simpa [getClerk] using ⟨hw, he⟩⟩
