import DistributedSystems.Mr.Theorems.Queues

-- No task is lost: a task that is not done is in its queue or is held by a timer, and never both.
namespace Mr

variable {t t' : FunctionType} {i n total : Nat} {timers timers' : List Timer} {timer : Timer}
variable {files : List String} {nReduce : Nat}

theorem Timer.modify_stop_eq_self (hn : timers[n]? = some timer) (h : timer.state ≠ .running) :
    timers.modify n stop = timers := by
  have hs : timer.stop = timer := if_neg h
  apply List.ext_getElem?
  intro k
  rw [List.getElem?_modify]
  by_cases hk : n = k
  case pos =>
    subst hk
    simp [hn, hs]
  case neg => simp [hk]

namespace Pool

variable {pool pool' : Pool} {task : Task} {queue : List Nat}

structure Kept (t : FunctionType) (total : Nat) (timers : List Timer) (pool : Pool) : Prop
    extends Fits t timers pool where
  size : pool.total = total
  kept : ∀ (i : Nat) task, pool.tasks[i]? = some task → task.state ≠ .done →
    pool.occurrences t timers i = 1
  own  : ∀ (i : Nat) task n, pool.tasks[i]? = some task → task.timer = some n →
    Timer.At t i timers n

namespace Kept

theorem make (t : FunctionType) (files : List String) :
    (Pool.make files).Kept t files.length [] where
  toFits := .make t files
  size   := rfl
  kept i task hi _ := by
    have hl : i < files.length := by
      simpa [Pool.make] using (List.getElem?_eq_some_iff.mp hi).fst
    simp [occurrences, Pool.make, List.count_eq_one_of_mem List.nodup_range (List.mem_range.mpr hl)]
  own i task n hi hn := by
    simp only [Pool.make, List.getElem?_mapIdx, Option.map_eq_some_iff] at hi
    obtain ⟨_, _, rfl⟩ := hi
    cases hn

-- A task whose state changes has to be where a task with its new state belongs.
theorem set (h : pool.Kept t total timers) {task' : Task} (hi : pool.tasks[i]? = some task)
    (hn : task'.taskNumber = task.taskNumber)
    (ht : ∀ n, task'.timer = some n → Timer.At t i timers n)
    (hs : task'.state ≠ .done → pool.occurrences t timers i = 1) :
    (pool.set i task').Kept t total timers where
  toFits := h.toFits.set hi hn
  size   := h.size
  kept j task'' hj hd := by
    obtain ⟨rfl, rfl⟩ | hj := getElem?_set_cases hj
    case inl => exact hs hd
    case inr => exact h.kept j task'' hj hd
  own j task'' m hj hm := by
    obtain ⟨rfl, rfl⟩ | hj := getElem?_set_cases hj
    case inl => exact ht m hm
    case inr => exact h.own j task'' m hj hm

theorem finish (h : pool.Kept t total timers) (hf : pool.finish n = some pool') :
    pool'.Kept t total timers := by
  have ⟨task, ht, hf⟩ := Option.bind_eq_some_iff.mp hf
  cases hf
  have h' : Kept t total timers
      { pool with finished := if task.state ≠ .done then pool.finished + 1 else pool.finished } :=
        { h with }
  exact h'.set ht rfl (h.own n task · ht) (absurd rfl)

-- Tasks may move between the queue and the timers, those that are not done must not disappear.
theorem move (h : pool.Kept t total timers) (hf : Fits t timers' { pool with queue })
    (hs : ∀ i n, Timer.At t i timers n → Timer.At t i timers' n)
    (ho : ∀ (i : Nat) task, pool.tasks[i]? = some task → task.state ≠ .done →
      occurrences t timers' { pool with queue } i = pool.occurrences t timers i) :
    Kept t total timers' { pool with queue } where
  toFits := hf
  size   := h.size
  kept i task hi hd := (ho i task hi hd).trans (h.kept i task hi hd)
  own i task n hi hn := hs i n (h.own i task n hi hn)

-- The timers of other tasks change.
theorem mono (h : pool.Kept t total timers)
    (hm : ∀ timer' ∈ timers', timer'.taskType = t → timer'.taskIndex < pool.total)
    (hs : ∀ i n, Timer.At t i timers n → Timer.At t i timers' n)
    (hc : ∀ i, timers'.countP (Timer.Holds t i) = timers.countP (Timer.Holds t i)) :
    pool.Kept t total timers' :=
  h.move (h.toFits.mono hm fun i => (hc i).le) hs fun i _ _ _ => congrArg _ (hc i)

theorem expire (h : pool.Kept t total timers) (hn : timers[n]? = some timer)
    (hs : timer.state = .running) :
    pool.Kept t total (timers.set n { timer with state := .expired }) :=
  h.mono (h.known_set hn _) (fun _ _ ha => ha.set hn _) fun _ => Timer.countP_expire hn hs

theorem requeue_of_ne (h : pool.Kept t total timers) (hn : timers[n]? = some timer)
    (ht : timer.taskType ≠ t) :
    pool.Kept t total (timers.set n { timer with state := .finished }) :=
  h.mono (h.known_set hn _) (fun _ _ ha => ha.set hn _) fun _ =>
    Timer.countP_finish_of_ne hn (absurd · ht)

theorem requeue (h : pool.Kept t total timers) (hn : timers[n]? = some timer)
    (ht : timer.taskType = t) (hs : timer.state = .expired)
    (hr : pool.requeue timer.taskIndex = some pool') :
    pool'.Kept t total (timers.set n { timer with state := .finished }) := by
  have ⟨task, htask, hr⟩ := Option.bind_eq_some_iff.mp hr
  split_ifs at hr with hd <;> cases hr
  case pos =>
    have hk := h.move (h.toFits.send hn ht hs) (fun _ _ ha => ha.set hn _) fun _ _ _ _ =>
      occurrences_send hn ht hs
    exact hk.set htask rfl (hk.own _ task · htask) fun _ => hk.kept _ task htask hd
  case neg =>
    -- The timer was the last trace of a task that is done.
    have hd := not_not.mp hd
    have hf : pool.Fits t (timers.set n { timer with state := .finished }) :=
      h.toFits.mono (h.known_set hn _) fun i => Nat.le_of_add_right_le (Timer.countP_finish hn).le
    refine h.move hf (fun _ _ ha => ha.set hn _) fun i task' hi hd' =>
      congrArg _ (Timer.countP_finish_of_ne hn ?_)
    rintro _ rfl
    cases htask.symm.trans hi
    exact hd' hd

-- A task that is handed out has no timer left that could be stopped.
theorem scheduleRequeueLocked_eq {c : Coordinator} (h : pool.Kept t total c.timers)
    (hq : pool.queue = i :: queue) (hi : pool.tasks[i]? = some task) :
    c.scheduleRequeueLocked t i task = c.timers ++ [.mk t i .running] := by
  rw [Coordinator.scheduleRequeueLocked]
  cases ht : task.timer
  case none => rfl
  case some n =>
    have ⟨timer, hn, htype, hindex⟩ := h.own i task n hi ht
    have hs : timer.state ≠ .running := by
      intro hs
      have hc : 0 < c.timers.countP (Timer.Holds t i) :=
        List.countP_pos_iff.mpr ⟨timer, List.mem_of_getElem? hn,
          Timer.holds_iff.mpr ⟨htype, hindex, .inl hs⟩⟩
      have ho := h.once i
      rw [hq, List.count_cons_self] at ho
      omega
    rw [Option.elim, Timer.modify_stop_eq_self hn hs]

theorem start {c : Coordinator} (h : pool.Kept t total c.timers) (hq : pool.queue = i :: queue)
    (ht : pool.tasks[i]? = some task) :
    (c.start { pool with queue } t i task).fst.Kept t total
      (c.start { pool with queue } t i task).snd := by
  have hk := h.move (h.toFits.handOut hq) (fun _ _ ha => ha.append _) fun _ _ _ _ =>
    occurrences_handOut hq
  have ho : occurrences t (c.timers ++ [.mk t i .running]) { pool with queue } i = 1 := by
    have hle := h.once i
    rw [occurrences_handOut hq, occurrences]
    rw [hq, List.count_cons_self] at hle ⊢
    omega
  simp only [Coordinator.start, h.scheduleRequeueLocked_eq hq ht]
  refine hk.set ht rfl (fun n hn => ?_) fun _ => ho
  simp only [List.length_append, List.length_singleton, Nat.add_sub_cancel, Option.some.injEq] at hn
  exact hn ▸ Timer.at_append_length t i c.timers

-- The task that is handed out belongs to another pool.
theorem start_of_ne {c : Coordinator} {total' : Nat} (h : pool.Kept t total c.timers)
    (ho : pool'.Kept t' total' c.timers) (hq : pool'.queue = i :: queue)
    (hi : pool'.tasks[i]? = some task) (ht : t' ≠ t) :
    pool.Kept t total (c.start { pool' with queue } t' i task).snd := by
  simp only [Coordinator.start, ho.scheduleRequeueLocked_eq hq hi]
  refine h.mono (h.known_append (absurd · ht)) (fun _ _ ha => ha.append _) fun j => ?_
  rw [Timer.countP_append, if_neg (absurd ·.left ht), Nat.add_zero]

end Kept

-- Where the tasks of a type are, and that the queue has room for what the timers will send.
structure Represented (t : FunctionType) (total : Nat) (timers : List Timer) (pool : Pool) :
    Prop where
  length : pool.tasks.length = total
  active : ∀ (i : Nat) task, pool.tasks[i]? = some task → task.state ≠ .done →
    pool.occurrences t timers i = 1
  done   : ∀ (i : Nat) task, pool.tasks[i]? = some task → task.state = .done →
    pool.occurrences t timers i ≤ 1
  room   : ∀ timer ∈ timers, timer.taskType = t → timer.state = .expired → pool.queue.length < total

theorem Kept.represented (h : pool.Kept t total timers) : pool.Represented t total timers where
  length          := h.length.trans h.size
  active          := h.kept
  done i _ _ _    := h.once i
  room _ hm ht hs := h.size ▸ h.room_of_expired hm ht hs

end Pool

namespace Coordinator

variable {c c' : Coordinator} {call : Call} {reply : GetJobResponse} {args : FinishJobRequest}

structure Kept (files : List String) (nReduce : Nat) (c : Coordinator) : Prop where
  maps    : c.maps.Kept .mapTask files.length c.timers
  reduces : c.reduces.Kept .reduceTask nReduce c.timers

namespace Kept

theorem make (files : List String) (nReduce : Nat) : (make files nReduce).Kept files nReduce where
  maps    := .make _ _
  reduces := by simpa [Coordinator.make] using Pool.Kept.make .reduceTask (.replicate nReduce "")

theorem getJob (h : c.Kept files nReduce) (hg : c.getJob = some (c', reply)) :
    c'.Kept files nReduce := by
  obtain ⟨rfl, _⟩ | hx := getJob_gives hg
  case inl => exact h
  case inr =>
    cases hx
    case map hf hq ht    =>
      exact { maps := h.maps.start hq ht, reduces := h.reduces.start_of_ne h.maps hq ht nofun }
    case reduce hf hq ht =>
      exact { maps := h.maps.start_of_ne h.reduces hq ht nofun, reduces := h.reduces.start hq ht }

theorem onJobFinish (h : c.Kept files nReduce) (hu : c.onJobFinish args = some c') :
    c'.Kept files nReduce := by
  obtain ⟨_, _, hf, rfl⟩ | ⟨_, _, hf, rfl⟩ | ⟨_, rfl⟩ := update_cases hu
  case inl     => exact { maps := h.maps.finish hf, reduces := h.reduces }
  case inr.inl => exact { maps := h.maps, reduces := h.reduces.finish hf }
  case inr.inr => exact h

theorem requeue (h : c.Kept files nReduce) (hn : c.timers[n]? = some timer)
    (hs : timer.state = .expired) (hr : c.requeue n timer = some c') : c'.Kept files nReduce := by
  simp only [Coordinator.requeue] at hr
  obtain ⟨ht, _, hf, rfl⟩ | ⟨ht, _, hf, rfl⟩ | ⟨ht, rfl⟩ := update_cases hr
  case inl =>
    exact { maps := h.maps.requeue hn ht hs hf,
            reduces := h.reduces.requeue_of_ne hn (by simp [ht]) }
  case inr.inl =>
    exact { maps := h.maps.requeue_of_ne hn (by simp [ht]),
            reduces := h.reduces.requeue hn ht hs hf }
  case inr.inr =>
    exact { maps := h.maps.requeue_of_ne hn (by simp [ht]),
            reduces := h.reduces.requeue_of_ne hn (by simp [ht]) }

theorem next (h : c.Kept files nReduce) (hn : c.next call = some c') : c'.Kept files nReduce := by
  cases call <;> simp only [Coordinator.next] at hn
  case getJob =>
    obtain ⟨⟨_, reply⟩, hg, rfl⟩ := Option.map_eq_some_iff.mp hn
    exact h.getJob hg
  case onJobFinish args => exact h.onJobFinish hn
  case expire n =>
    have ⟨timer, ht, hn⟩ := Option.bind_eq_some_iff.mp hn
    split_ifs at hn with hs
    cases hn
    exact { maps := h.maps.expire ht hs, reduces := h.reduces.expire ht hs }
  case requeue n =>
    have ⟨timer, ht, hn⟩ := Option.bind_eq_some_iff.mp hn
    split_ifs at hn with hs
    exact h.requeue ht hs hn

end Kept

-- Whatever the type of the timer is, its goroutine does not block.
theorem requeue_isSome (hm : c.maps.Fits .mapTask c.timers)
    (hr : c.reduces.Fits .reduceTask c.timers) (hn : c.timers[n]? = some timer)
    (hs : timer.state = .expired) : (c.requeue n timer).isSome := by
  have ht := List.mem_of_getElem? hn
  cases htype : timer.taskType
  case mapTask =>
    obtain ⟨maps, hq⟩ := hm.requeue_of_expired ht htype hs
    simp [requeue, update, htype, hq]
  case reduceTask =>
    obtain ⟨reduces, hq⟩ := hr.requeue_of_expired ht htype hs
    simp [requeue, update, htype, hq]
  case sleepTask => simp [requeue, update, htype]

theorem represented_once (files : List String) (nReduce : Nat)
    (b : (coordinator files nReduce).Behavior) (i : Nat) :
    (b.state i).maps.Represented .mapTask files.length (b.state i).timers ∧
    (b.state i).reduces.Represented .reduceTask nReduce (b.state i).timers ∧
    (∀ (n : Nat) timer, (b.state i).timers[n]? = some timer → timer.state = .expired →
      ((b.state i).next (.requeue n)).isSome) := by
  have h : (b.state i).Kept files nReduce :=
    b.invariant (I := Kept files nReduce) (.make files nReduce) (fun _ _ _ _ hn h => h.next hn) i
  refine ⟨h.maps.represented, h.reduces.represented, fun n timer hn hs => ?_⟩
  simpa [Coordinator.next, hn, hs] using requeue_isSome h.maps.toFits h.reduces.toFits hn hs

-- The first task is reported after it was requeued, while the timer of the second one has expired.
def reportedLate : List Call :=
  [.getJob, .getJob, .expire 0, .requeue 0, .onJobFinish ⟨0, .mapTask⟩, .expire 1]

theorem represented_once_reportedLate :
    ∃ b : (coordinator ["a", "b"] 1).Behavior,
      (b.state 6).maps.tasks.map Task.state = [.done, .inProgress] ∧ (b.state 6).maps.queue = [0] ∧
      (b.state 6).maps.Represented .mapTask 2 (b.state 6).timers ∧
      (b.state 6).timers[1]? = some ⟨.mapTask, 1, .expired⟩ ∧
      ((b.state 6).next (.requeue 1)).isSome := by
  refine ⟨.ofActions _ reportedLate (by decide), rfl, rfl, ?_, rfl, ?_⟩
  · exact (represented_once ["a", "b"] 1 _ 6).left
  · exact (represented_once ["a", "b"] 1 _ 6).right.right 1 _ rfl rfl

end Coordinator

namespace State

variable {s s' : State} {e : Event}

-- What a job does is something that its coordinator may do.
theorem Stepped.coordinator (h : Stepped s e s') :
    s'.coordinator = s.coordinator ∨ ∃ call, s.coordinator.next call = some s'.coordinator := by
  cases h
  case sleep                 => exact .inl rfl
  case getJob hg _           => exact .inr ⟨.getJob, by simp [Coordinator.next, hg]⟩
  case onJobFinish args _ hf => exact .inr ⟨.onJobFinish args, hf⟩
  case expire n _ hn         => exact .inr ⟨.expire n, hn⟩
  case requeue n _ hn        => exact .inr ⟨.requeue n, hn⟩

structure Fits (s : State) : Prop where
  maps     : s.coordinator.maps.Fits .mapTask s.coordinator.timers
  reduces  : s.coordinator.reduces.Fits .reduceTask s.coordinator.timers
  assigned : ∀ args ∈ s.assigned,
    (args.taskType = .mapTask ∧ args.taskNumber < s.coordinator.maps.total) ∨
    (args.taskType = .reduceTask ∧ args.taskNumber < s.coordinator.reduces.total)

theorem Stepped.kept (h : Stepped s e s') (hk : s.coordinator.Kept files nReduce) :
    s'.coordinator.Kept files nReduce := by
  cases h.coordinator
  case inl he => exact he ▸ hk
  case inr hn =>
    have ⟨_, hn⟩ := hn
    exact hk.next hn

-- The tasks that the workers know exist.
theorem Fits.next (h : s.Fits) (hk : s.coordinator.Kept files nReduce) (hs : Stepped s e s') :
    s'.Fits := by
  have hk' := hs.kept hk
  refine { maps := hk'.maps.toFits, reduces := hk'.reduces.toFits, assigned := ?_ }
  have ha := h.assigned
  simp only [hk.maps.size, hk.reduces.size] at ha
  simp only [hk'.maps.size, hk'.reduces.size]
  cases hs
  case sleep | expire | requeue => exact ha
  case onJobFinish              => exact fun args hm => ha args (List.mem_of_mem_eraseIdx hm)
  case getJob c reply hg hs     =>
    refine List.forall_mem_append.mpr ⟨ha, List.forall_mem_singleton.mpr ?_⟩
    obtain ⟨_, rfl⟩ | hx := Coordinator.getJob_gives hg
    case inl => exact absurd rfl hs
    case inr =>
      cases hx
      case map hf hq ht    => exact .inl ⟨rfl, hk.maps.size ▸ h.maps.front_lt hq ht⟩
      case reduce hf hq ht => exact .inr ⟨rfl, hk.reduces.size ▸ h.reduces.front_lt hq ht⟩

theorem Fits.getJob (h : s.Fits) : s.coordinator.getJob.isSome := by
  have ⟨⟨_, received⟩, hm⟩ := h.maps.receive
  have ⟨⟨_, received'⟩, hr⟩ := h.reduces.receive
  rw [Coordinator.getJob]
  split_ifs
  case pos => cases received <;> simp [hm]
  case neg => cases received' <;> simp [hr]

theorem Fits.onJobFinish (h : s.Fits) {k : Nat} (hk : k < s.assigned.length) :
    (s.next (.onJobFinish k)).isSome := by
  have ha : s.assigned[k]? = some s.assigned[k] := List.getElem?_eq_getElem hk
  cases h.assigned _ (List.getElem_mem hk)
  case inl hx =>
    obtain ⟨maps, hf⟩ := h.maps.finish_of_lt hx.right
    simp [State.next, ha, Coordinator.onJobFinish, Coordinator.update, hx.left, hf]
  case inr hx =>
    obtain ⟨reduces, hf⟩ := h.reduces.finish_of_lt hx.right
    simp [State.next, ha, Coordinator.onJobFinish, Coordinator.update, hx.left, hf]

theorem Fits.requeue (h : s.Fits) (hn : s.coordinator.timers[n]? = some timer)
    (ht : timer.state = .expired) :
    (s.next (.requeue n)).isSome := by
  have ⟨c, hr⟩ := Option.isSome_iff_exists.mp <| Coordinator.requeue_isSome h.maps h.reduces hn ht
  simp [State.next, Coordinator.next, hn, ht, hr]

-- No call of the coordinator panics, and no goroutine keeps the mutex forever.
theorem never_blocks (b : (job files nReduce).Behavior) (i : Nat) :
    (b.state i).coordinator.getJob.isSome ∧
    (∀ k < (b.state i).assigned.length, ((b.state i).next (.onJobFinish k)).isSome) ∧
    (∀ (n : Nat) timer, (b.state i).coordinator.timers[n]? = some timer → timer.state = .expired →
      ((b.state i).next (.requeue n)).isSome) := by
  have h : (b.state i).Fits ∧ (b.state i).coordinator.Kept files nReduce := by
    refine b.invariant (I := fun s => s.Fits ∧ s.coordinator.Kept files nReduce)
      ⟨?init, .make _ _⟩ ?step i
    case init => exact { maps := .make _ _, reduces := .make _ _, assigned := nofun }
    case step =>
      intro _ _ _ _ hn ⟨hf, hk⟩
      have hs := next_stepped hn
      exact ⟨hf.next hk hs, hs.kept hk⟩
  exact ⟨h.left.getJob, fun _ => h.left.onJobFinish, fun _ _ => h.left.requeue⟩

end State
end Mr
