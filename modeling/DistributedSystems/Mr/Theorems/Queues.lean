import DistributedSystems.Mr.Theorems.Coordinator

-- The coordinator sends to its queues while it has the mutex. There is always room, since each task
-- is either in its queue or has a timer that will put it there.
namespace Mr

variable {t t' : FunctionType} {i j n : Nat} {timers timers' : List Timer} {timer : Timer}

namespace Timer

-- The goroutine of the timer is going to look at the given task.
def Holds (t : FunctionType) (i : Nat) (timer : Timer) : Bool :=
  timer.taskType = t ∧ timer.taskIndex = i ∧ (timer.state = .running ∨ timer.state = .expired)

theorem holds_iff : timer.Holds t i = true ↔
    timer.taskType = t ∧ timer.taskIndex = i ∧
    (timer.state = .running ∨ timer.state = .expired) := by
  simp [Holds]

-- What becomes of the tasks that a timer holds if its state changes.
theorem countP_set (hn : timers[n]? = some timer) (state : TimerState) :
    (timers.set n { timer with state }).countP (Holds t i) + (timer.Holds t i).toNat =
      timers.countP (Holds t i) + (Holds t i { timer with state }).toNat := by
  have ⟨hl, he⟩ := List.getElem?_eq_some_iff.mp hn
  rw [List.countP_set hl, he]
  have hp : timer.Holds t i = true → 0 < timers.countP (Holds t i) :=
    fun h => List.countP_pos_iff.mpr ⟨timer, List.mem_of_getElem? hn, h⟩
  cases h : timer.Holds t i <;> cases Holds t i { timer with state } <;> simp_all

theorem countP_expire (hn : timers[n]? = some timer) (hs : timer.state = .running) :
    (timers.set n { timer with state := .expired }).countP (Holds t i) = timers.countP
      (Holds t i) := by
  have he : Holds t i { timer with state := .expired } = timer.Holds t i := by simp [Holds, hs]
  have hc := countP_set (t := t) (i := i) hn .expired
  rw [he] at hc
  exact Nat.add_right_cancel hc

-- A timer that has done its work does not hold its task any more.
theorem countP_finish (hn : timers[n]? = some timer) :
    (timers.set n { timer with state := .finished }).countP (Holds t i) + (timer.Holds t i).toNat =
      timers.countP (Holds t i) := by
  have hf : Holds t i { timer with state := .finished } = false := by simp [Holds]
  simpa [hf] using countP_set (t := t) (i := i) hn .finished

theorem countP_finish_of_ne (hn : timers[n]? = some timer)
    (h : timer.taskType = t → timer.taskIndex ≠ i) :
    (timers.set n { timer with state := .finished }).countP (Holds t i) = timers.countP
      (Holds t i) := by
  have hh : timer.Holds t i = false := by
    rw [Bool.eq_false_iff, ne_eq, holds_iff]
    exact fun ⟨ht, hi, _⟩ => h ht hi
  simpa [hh] using countP_finish (t := t) (i := i) hn

theorem countP_append (timers : List Timer) :
    (timers ++ [mk t' j .running]).countP (Holds t i) =
      timers.countP (Holds t i) + if t' = t ∧ j = i then 1 else 0 := by
  rw [List.countP_append, List.countP_singleton]
  congr 1
  simp [Holds]

-- The `n`-th timer belongs to the given task.
def At (t : FunctionType) (i : Nat) (timers : List Timer) (n : Nat) : Prop :=
  ∃ timer, timers[n]? = some timer ∧ timer.taskType = t ∧ timer.taskIndex = i

theorem At.set (h : At t i timers j) (hn : timers[n]? = some timer) (state : TimerState) :
    At t i (timers.set n { timer with state }) j := by
  have ⟨timer', hj, ht, hi⟩ := h
  have ⟨hl, _⟩ := List.getElem?_eq_some_iff.mp hj
  by_cases he : n = j
  case pos =>
    subst he
    cases hn.symm.trans hj
    exact ⟨_, List.getElem?_set_self hl, ht, hi⟩
  case neg => exact ⟨timer', (List.getElem?_set_ne he).trans hj, ht, hi⟩

theorem At.append (h : At t i timers n) (timers' : List Timer) : At t i (timers ++ timers') n := by
  have ⟨timer, hn, ht, hi⟩ := h
  have ⟨hl, _⟩ := List.getElem?_eq_some_iff.mp hn
  exact ⟨timer, (List.getElem?_append_left hl).trans hn, ht, hi⟩

theorem at_append_length (t : FunctionType) (i : Nat) (timers : List Timer) :
    At t i (timers ++ [mk t i .running]) timers.length :=
  ⟨mk t i .running, List.getElem?_concat_length, rfl, rfl⟩

end Timer

namespace Pool

variable {pool pool' : Pool} {task : Task} {queue : List Nat}

-- How often a task is in its queue or is held by a timer.
def occurrences (t : FunctionType) (timers : List Timer) (pool : Pool) (i : Nat) : Nat :=
  pool.queue.count i + timers.countP (Timer.Holds t i)

-- A task that is handed out passes from the queue to a timer.
theorem occurrences_handOut (hq : pool.queue = j :: queue) :
    occurrences t (timers ++ [.mk t j .running]) { pool with queue } i =
      pool.occurrences t timers i := by
  simp only [occurrences, Timer.countP_append, hq, List.count_cons, beq_iff_eq, true_and]
  omega

-- A timer that has expired passes its task back to the queue.
theorem occurrences_send (hn : timers[n]? = some timer) (ht : timer.taskType = t)
    (hs : timer.state = .expired) :
    occurrences t (timers.set n { timer with state := .finished })
      { pool with queue := pool.queue ++ [timer.taskIndex] } i = pool.occurrences t timers i := by
  have hc := Timer.countP_finish (t := t) (i := i) hn
  have hh : (timer.Holds t i).toNat = [timer.taskIndex].count i := by
    by_cases hi : timer.taskIndex = i <;> simp [Timer.Holds, ht, hs, hi]
  simp only [occurrences, List.count_append]
  omega

structure Fits (t : FunctionType) (timers : List Timer) (pool : Pool) : Prop where
  length : pool.tasks.length = pool.total
  number : ∀ (i : Nat) task, pool.tasks[i]? = some task → task.taskNumber = i
  bound  : ∀ i ∈ pool.queue, i < pool.total
  known  : ∀ timer ∈ timers, timer.taskType = t → timer.taskIndex < pool.total
  once   : ∀ i, pool.queue.count i + timers.countP (Timer.Holds t i) ≤ 1

namespace Fits

theorem make (t : FunctionType) (files : List String) : (Pool.make files).Fits t [] where
  length := by simp [Pool.make]
  number i task h := by
    simp only [Pool.make, List.getElem?_mapIdx, Option.map_eq_some_iff] at h
    obtain ⟨_, _, rfl⟩ := h
    rfl
  bound  := by simp [Pool.make]
  known  := nofun
  once i := by simpa [Pool.make] using List.nodup_iff_count_le_one.mp List.nodup_range i

-- Neither the number of a task nor where it is depends on its state.
theorem set (h : pool.Fits t timers) {task' : Task} (hi : pool.tasks[i]? = some task)
    (hn : task'.taskNumber = task.taskNumber) : (pool.set i task').Fits t timers where
  length := by simpa [Pool.set] using h.length
  number j task'' hj := by
    obtain ⟨rfl, rfl⟩ | hj := getElem?_set_cases hj
    case inl => exact hn.trans (h.number i task hi)
    case inr => exact h.number j task'' hj
  bound  := h.bound
  known  := h.known
  once   := h.once

theorem found (h : pool.Fits t timers) (hi : i < pool.total) : ∃ task, pool.tasks[i]? = some task :=
  ⟨_, List.getElem?_eq_getElem (h.length ▸ hi)⟩

theorem front_lt (h : pool.Fits t timers) (hq : pool.queue = i :: queue)
    (ht : pool.tasks[i]? = some task) : task.taskNumber < pool.total := by
  rw [h.number i task ht]
  exact h.bound i (by simp [hq])

theorem receive (h : pool.Fits t timers) : ∃ r, pool.receive = some r := by
  rw [Pool.receive]
  split
  case h_1 => exact ⟨_, rfl⟩
  case h_2 i queue hq =>
    obtain ⟨task, ht⟩ := h.found (h.bound i (by simp [hq]))
    exact ⟨_, by rw [ht]; rfl⟩

theorem finish_of_lt (h : pool.Fits t timers) (hn : n < pool.total) :
    ∃ pool', pool.finish n = some pool' := by
  have ⟨task, ht⟩ := h.found hn
  exact ⟨_, by rw [Pool.finish, ht]; rfl⟩

-- A task that a timer holds is not in the queue, so there is room for it.
theorem room (h : pool.Fits t timers) (ht : timer ∈ timers) (hh : timer.Holds t i = true) :
    pool.queue.length < pool.total := by
  have hc : 0 < timers.countP (Timer.Holds t i) := List.countP_pos_iff.mpr ⟨timer, ht, hh⟩
  have hn : i ∉ pool.queue := by
    have := h.once i
    exact List.count_eq_zero.mp (by omega)
  have hd : pool.queue.Nodup := List.nodup_iff_count_le_one.mpr fun j => by
    have := h.once j
    omega
  have hi : i < pool.total := by
    have ⟨htype, hindex, _⟩ := Timer.holds_iff.mp hh
    exact hindex ▸ h.known timer ht htype
  have hs : pool.queue.toFinset ⊆ (Finset.range pool.total).erase i := by
    intro j hj
    have hj := List.mem_toFinset.mp hj
    exact Finset.mem_erase.mpr ⟨fun he => hn (he ▸ hj), Finset.mem_range.mpr (h.bound j hj)⟩
  have hle := Finset.card_le_card hs
  rw [List.toFinset_card_of_nodup hd, Finset.card_erase_of_mem (Finset.mem_range.mpr hi),
    Finset.card_range] at hle
  omega

theorem room_of_expired (h : pool.Fits t timers) (hm : timer ∈ timers) (ht : timer.taskType = t)
    (hs : timer.state = .expired) : pool.queue.length < pool.total :=
  h.room hm (Timer.holds_iff.mpr ⟨ht, rfl, .inr hs⟩)

theorem requeue_of_expired (h : pool.Fits t timers) (hm : timer ∈ timers) (ht : timer.taskType = t)
    (hs : timer.state = .expired) : ∃ pool', pool.requeue timer.taskIndex = some pool' := by
  have ⟨task, htask⟩ := h.found (h.known timer hm ht)
  have hroom := h.room_of_expired hm ht hs
  by_cases hd : task.state = .done <;> simp [Pool.requeue, htask, hd, hroom]

-- The timers change, but hold no other tasks.
theorem mono (h : pool.Fits t timers)
    (hm : ∀ timer' ∈ timers', timer'.taskType = t → timer'.taskIndex < pool.total)
    (hc : ∀ i, timers'.countP (Timer.Holds t i) ≤ timers.countP (Timer.Holds t i)) :
    pool.Fits t timers' where
  length := h.length
  number := h.number
  bound  := h.bound
  known  := hm
  once i := (Nat.add_le_add_left (hc i) _).trans (h.once i)

theorem known_set (h : pool.Fits t timers) (hn : timers[n]? = some timer) (state : TimerState) :
    ∀ timer' ∈ timers.set n { timer with state }, timer'.taskType = t →
    timer'.taskIndex < pool.total := by
  intro timer' hm ht
  cases List.mem_or_eq_of_mem_set hm
  case inl hm => exact h.known timer' hm ht
  case inr he =>
    subst he
    exact h.known timer (List.mem_of_getElem? hn) ht

theorem known_append (h : pool.Fits t timers) (hi : t' = t → i < pool.total) :
    ∀ timer' ∈ timers ++ [.mk t' i .running], timer'.taskType = t →
    timer'.taskIndex < pool.total := by
  intro timer' hm ht
  cases List.mem_append.mp hm
  case inl hm => exact h.known timer' hm ht
  case inr he =>
    cases List.mem_singleton.mp he
    exact hi ht

theorem handOut (h : pool.Fits t timers) (hq : pool.queue = i :: queue) :
    Fits t (timers ++ [.mk t i .running]) { pool with queue } where
  length     := h.length
  number     := h.number
  bound j hj := h.bound j (hq ▸ List.mem_cons_of_mem _ hj)
  known      := h.known_append fun _ => h.bound i (by simp [hq])
  once j     := (occurrences_handOut hq).trans_le (h.once j)

theorem send (h : pool.Fits t timers) (hn : timers[n]? = some timer) (ht : timer.taskType = t)
    (hs : timer.state = .expired) :
    Fits t (timers.set n { timer with state := .finished })
      { pool with queue := pool.queue ++ [timer.taskIndex] } where
  length     := h.length
  number     := h.number
  known      := h.known_set hn .finished
  once i     := (occurrences_send hn ht hs).trans_le (h.once i)
  bound i hi := by
    cases List.mem_append.mp hi
    case inl hi => exact h.bound i hi
    case inr hi =>
      rw [List.mem_singleton.mp hi]
      exact h.known timer (List.mem_of_getElem? hn) ht

end Fits
end Pool
end Mr
