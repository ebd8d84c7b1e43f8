import DistributedSystems.Mr.Coordinator

namespace Mr

variable {t t' : FunctionType} {reported : List FinishJobRequest} {files : List String}
  {nReduce : Nat}

-- The distinct tasks of a type that have been reported.
def distinct (t : FunctionType) (reported : List FinishJobRequest) : Finset FinishJobRequest :=
  (reported.filter (·.taskType = t)).toFinset

theorem mem_distinct {args : FinishJobRequest} :
    args ∈ distinct t reported ↔ args ∈ reported ∧ args.taskType = t := by
  simp [distinct]

theorem distinct_cons_of_ne {args : FinishJobRequest} (h : args.taskType ≠ t) :
    distinct t (args :: reported) = distinct t reported := by
  simp [distinct, h]

theorem distinct_cons (n : Nat) :
    distinct t (⟨n, t⟩ :: reported) = insert ⟨n, t⟩ (distinct t reported) := by
  simp [distinct]

namespace Pool

variable {pool pool' : Pool} {task : Task} {i j n total : Nat}

theorem getElem?_set_cases {task' : Task} (h : (pool.set i task').tasks[j]? = some task) :
    (i = j ∧ task = task') ∨ (pool.tasks[j]? = some task) := by
  simp only [Pool.set, List.getElem?_set] at h
  split_ifs at h with he hl
  case pos => exact .inl ⟨he, (Option.some.inj h).symm⟩
  case neg => exact .inr h

-- The tasks that have been reported are counted once. One of them may be in progress again.
structure Counts (t : FunctionType) (total : Nat) (reported : List FinishJobRequest) (pool : Pool) :
    Prop where
  length   : pool.tasks.length = total
  bound    : ∀ n, ⟨n, t⟩ ∈ reported → n < total
  total    : pool.total = total
  done     : ∀ (n : Nat) task, pool.tasks[n]? = some task → task.state = .done → ⟨n, t⟩ ∈ reported
  finished : pool.finished = (distinct t reported).card

namespace Counts

theorem make (t : FunctionType) (files : List String) :
    (Pool.make files).Counts t files.length [] where
  length   := by simp [Pool.make]
  total    := rfl
  done     := by
    intro n task hn hd
    simp only [Pool.make, List.getElem?_mapIdx, Option.map_eq_some_iff] at hn
    obtain ⟨_, _, rfl⟩ := hn
    cases hd
  bound    := by simp
  finished := rfl

theorem cons_of_ne (h : pool.Counts t total reported) {args : FinishJobRequest}
    (hn : args.taskType ≠ t) :
    pool.Counts t total (args :: reported) where
  length            := h.length
  total             := h.total
  done n task hi hd := List.mem_cons_of_mem _ (h.done n task hi hd)
  bound n hm        := by
    rcases List.mem_cons.mp hm with rfl | hm
    · exact absurd rfl hn
    · exact h.bound n hm
  finished          := by rw [distinct_cons_of_ne hn, h.finished]

theorem set (h : pool.Counts t total reported) (queue : List Nat) {task' : Task}
    (hd : task'.state ≠ .done) :
    ({ pool with queue }.set i task').Counts t total reported where
  length            := by simpa [Pool.set] using h.length
  total             := h.total
  done n task hi ht := by
    rcases getElem?_set_cases hi with ⟨rfl, rfl⟩ | hi
    · exact absurd ht hd
    · exact h.done n task hi ht
  bound             := h.bound
  finished          := h.finished

theorem finish (h : pool.Counts t total reported) (hf : pool.finish n = some pool')
    (hr : ⟨n, t⟩ ∈ reported → pool.tasks[n]?.map Task.state = some .done) :
    pool'.Counts t total (⟨n, t⟩ :: reported) := by
  have ⟨task, ht, hf⟩ := Option.bind_eq_some_iff.mp hf
  cases hf
  have ⟨hn, _⟩ := List.getElem?_eq_some_iff.mp ht
  refine { total := h.total, length := ?length, done := ?done, bound := ?bound,
           finished := ?finished }
  case length => simpa [Pool.set] using h.length
  case done   =>
    intro m task' hm hd
    rcases getElem?_set_cases hm with ⟨rfl, _⟩ | hm
    · exact List.mem_cons_self
    · exact List.mem_cons_of_mem _ (h.done m task' hm hd)
  case bound  =>
    intro m hm
    rcases List.mem_cons.mp hm with hm | hm
    · cases hm
      exact h.length ▸ hn
    · exact h.bound m hm
  case finished =>
    rw [distinct_cons]
    by_cases hd : task.state = .done
    case pos =>
      have hm : ⟨n, t⟩ ∈ distinct t reported := mem_distinct.mpr ⟨h.done n task ht hd, rfl⟩
      simpa [Pool.set, hd, Finset.insert_eq_of_mem hm] using h.finished
    case neg =>
      have hm : ⟨n, t⟩ ∉ distinct t reported := by
        intro hm
        have hx := hr (mem_distinct.mp hm).left
        simp [ht, hd] at hx
      simpa [Pool.set, hd, Finset.card_insert_of_notMem hm] using h.finished

theorem requeue (h : pool.Counts t total reported) (hr : pool.requeue i = some pool') :
    pool'.Counts t total reported := by
  have ⟨task, _, hr⟩ := Option.bind_eq_some_iff.mp hr
  split_ifs at hr <;> cases hr
  case pos => exact h.set _ (by simp)
  case neg => exact h

theorem subset (h : pool.Counts t total reported) :
    distinct t reported ⊆ (Finset.range total).image (⟨·, t⟩) := by
  rintro ⟨n, t'⟩ hm
  obtain ⟨hr, rfl⟩ := mem_distinct.mp hm
  exact Finset.mem_image_of_mem _ (Finset.mem_range.mpr (h.bound n hr))

theorem card_tasks : ((Finset.range total).image (FinishJobRequest.mk · t)).card = total := by
  rw [Finset.card_image_of_injective _ fun _ _ h => by cases h; rfl, Finset.card_range]

theorem finished_iff (h : pool.Counts t total reported) :
    pool.finished = pool.total ↔ ∀ n < total, ⟨n, t⟩ ∈ reported := by
  rw [h.finished, h.total]
  constructor
  case mp =>
    intro hc n hn
    have he := Finset.eq_of_subset_of_card_le h.subset (by rw [card_tasks, hc])
    have hm : (⟨n, t⟩ : FinishJobRequest) ∈ distinct t reported := by
      rw [he]
      exact Finset.mem_image_of_mem _ (Finset.mem_range.mpr hn)
    exact (mem_distinct.mp hm).left
  case mpr =>
    intro ha
    refine (congrArg Finset.card (h.subset.antisymm ?_)).trans card_tasks
    intro args hm
    obtain ⟨n, hn, rfl⟩ := Finset.mem_image.mp hm
    exact mem_distinct.mpr ⟨ha n (Finset.mem_range.mp hn), rfl⟩

end Counts

-- All tasks that have been reported are still done.
structure Tracks (t : FunctionType) (total : Nat) (reported : List FinishJobRequest) (pool : Pool) :
    Prop
    extends Counts t total reported pool where
  reported : ∀ n, ⟨n, t⟩ ∈ reported → pool.tasks[n]?.map Task.state = some .done

namespace Tracks

theorem make (t : FunctionType) (files : List String) :
    (Pool.make files).Tracks t files.length [] where
  toCounts := .make t files
  reported := nofun

-- Another task has been reported.
theorem cons_of_ne (h : pool.Tracks t total reported) {args : FinishJobRequest}
    (hn : args.taskType ≠ t) :
    pool.Tracks t total (args :: reported) where
  toCounts      := h.toCounts.cons_of_ne hn
  reported n hm := by
    rcases List.mem_cons.mp hm with rfl | hm
    · exact absurd rfl hn
    · exact h.reported n hm

-- A task that is not done has not been reported.
theorem set (h : pool.Tracks t total reported) (queue : List Nat) (hi : pool.tasks[i]? = some task)
    (hs : task.state ≠ .done) {task' : Task} (hs' : task'.state ≠ .done) :
    ({ pool with queue }.set i task').Tracks t total reported where
  toCounts      := h.toCounts.set queue hs'
  reported n hm := by
    have hd := h.reported n hm
    have hn : i ≠ n := by
      rintro rfl
      simp [hi, hs] at hd
    rwa [Pool.set, List.getElem?_set_ne hn]

theorem finish (h : pool.Tracks t total reported) (hf : pool.finish n = some pool') :
    pool'.Tracks t total (⟨n, t⟩ :: reported) := by
  refine { toCounts := h.toCounts.finish hf (h.reported n), reported := fun m hm => ?_ }
  have ⟨task, ht, hf⟩ := Option.bind_eq_some_iff.mp hf
  cases hf
  have ⟨hn, _⟩ := List.getElem?_eq_some_iff.mp ht
  simp only [Pool.set, List.getElem?_set]
  split_ifs with hm'
  case pos => rfl
  case neg =>
    refine h.reported m ((List.mem_cons.mp hm).resolve_left ?_)
    rintro ⟨⟩
    exact hm' rfl

theorem requeue (h : pool.Tracks t total reported) (hr : pool.requeue i = some pool') :
    pool'.Tracks t total reported := by
  have ⟨task, ht, hr⟩ := Option.bind_eq_some_iff.mp hr
  split_ifs at hr with hd <;> cases hr
  case pos => exact h.set _ ht hd nofun
  case neg => exact h

end Tracks

theorem receive_cases {received : Option (Nat × Task)} (h : pool.receive = some (pool', received)) :
    (pool' = pool ∧ received = none) ∨
    (∃ taskIndex queue task, pool.queue = taskIndex :: queue ∧ pool.tasks[taskIndex]? = some task ∧
      pool' = { pool with queue } ∧ received = some (taskIndex, task)) := by
  rw [receive] at h
  split at h
  case h_1 =>
    cases h
    exact .inl ⟨rfl, rfl⟩
  case h_2 taskIndex queue hq =>
    have ⟨task, ht, h⟩ := Option.bind_eq_some_iff.mp h
    cases h
    exact .inr ⟨taskIndex, queue, task, hq, ht, rfl, rfl⟩

end Pool

namespace Coordinator

variable {c c' : Coordinator} {reply : GetJobResponse} {args : FinishJobRequest}

-- The first task of the queue is handed out.
inductive Gives (c : Coordinator) : Coordinator → GetJobResponse → Prop
  | map {i : Nat} {queue : List Nat} {task : Task} (hf : c.maps.finished ≠ c.maps.total)
    (hq : c.maps.queue = i :: queue)
    (ht : c.maps.tasks[i]? = some task) :
    Gives c { c with
      maps   := (c.start { c.maps with queue } .mapTask i task).fst
      timers := (c.start { c.maps with queue } .mapTask i task).snd
    } ⟨.mapTask, task.taskNumber, c.reduces.total, 0, task.file⟩
  | reduce {i : Nat} {queue : List Nat} {task : Task} (hf : c.maps.finished = c.maps.total)
    (hq : c.reduces.queue = i :: queue)
    (ht : c.reduces.tasks[i]? = some task) :
    Gives c { c with
      reduces := (c.start { c.reduces with queue } .reduceTask i task).fst
      timers  := (c.start { c.reduces with queue } .reduceTask i task).snd
    } ⟨.reduceTask, task.taskNumber, c.reduces.total, c.maps.total, ""⟩

theorem getJob_gives (h : c.getJob = some (c', reply)) :
    (c' = c ∧ reply = sleep) ∨ c.Gives c' reply := by
  simp only [getJob] at h
  split_ifs at h with hf
  case pos =>
    obtain ⟨⟨maps, received⟩, hr, h⟩ := Option.bind_eq_some_iff.mp h
    obtain ⟨rfl, rfl⟩ | ⟨i, queue, task, hq, ht, rfl, rfl⟩ := Pool.receive_cases hr <;> cases h
    case inl => exact .inl ⟨rfl, rfl⟩
    case inr => exact .inr (.map hf hq ht)
  case neg =>
    obtain ⟨⟨reduces, received⟩, hr, h⟩ := Option.bind_eq_some_iff.mp h
    obtain ⟨rfl, rfl⟩ | ⟨i, queue, task, hq, ht, rfl, rfl⟩ := Pool.receive_cases hr <;> cases h
    case inl => exact .inl ⟨rfl, rfl⟩
    case inr => exact .inr (.reduce (not_not.mp hf) hq ht)

theorem update_cases {f : Pool → Option Pool} (h : c.update f t = some c') :
    (t = .mapTask ∧ ∃ maps, f c.maps = some maps ∧ c' = { c with maps }) ∨
    (t = .reduceTask ∧ ∃ reduces, f c.reduces = some reduces ∧ c' = { c with reduces }) ∨
    (t = .sleepTask ∧ c' = c) := by
  cases t
  case mapTask =>
    have ⟨maps, hf, h⟩ := Option.map_eq_some_iff.mp h
    exact .inl ⟨rfl, maps, hf, h.symm⟩
  case reduceTask =>
    have ⟨reduces, hf, h⟩ := Option.map_eq_some_iff.mp h
    exact .inr <| .inl ⟨rfl, reduces, hf, h.symm⟩
  case sleepTask =>
    cases h
    exact .inr <| .inr ⟨rfl, rfl⟩

structure Tracks (files : List String) (nReduce : Nat) (reported : List FinishJobRequest)
    (c : Coordinator) : Prop where
  maps    : c.maps.Tracks .mapTask files.length reported
  reduces : c.reduces.Tracks .reduceTask nReduce reported

theorem Tracks.make (files : List String) (nReduce : Nat) :
    (make files nReduce).Tracks files nReduce [] where
  maps    := .make _ _
  reduces := by simpa [Coordinator.make] using Pool.Tracks.make .reduceTask (.replicate nReduce "")

-- The task that the next call of `GetJob` finds at the front of its queue.
def front (c : Coordinator) : Option Task :=
  let pool := if c.maps.finished ≠ c.maps.total then c.maps else c.reduces
  pool.queue.head?.bind (pool.tasks[·]?)

theorem Tracks.getJob (h : c.Tracks files nReduce reported) (hg : c.getJob = some (c', reply))
    (hd : c.front.map Task.state ≠ some .done) : c'.Tracks files nReduce reported := by
  obtain ⟨rfl, _⟩ | hx := getJob_gives hg
  case inl => exact h
  case inr =>
    cases hx
    case map queue task hf hq ht =>
      have hs : task.state ≠ .done := by simpa [front, hf, hq, ht] using hd
      exact { maps := h.maps.set queue ht hs nofun, reduces := h.reduces }
    case reduce queue task hf hq ht =>
      have hs : task.state ≠ .done := by simpa [front, hf, hq, ht] using hd
      exact { maps := h.maps, reduces := h.reduces.set queue ht hs nofun }

theorem Tracks.onJobFinish (h : c.Tracks files nReduce reported)
    (hu : c.onJobFinish args = some c') :
    c'.Tracks files nReduce (args :: reported) := by
  obtain ⟨ht, _, hf, rfl⟩ | ⟨ht, _, hf, rfl⟩ | ⟨ht, rfl⟩ := update_cases hu <;>
    obtain ⟨n, _⟩ := args <;> cases ht
  case inl     => exact { maps := h.maps.finish hf, reduces := h.reduces.cons_of_ne nofun }
  case inr.inl => exact { maps := h.maps.cons_of_ne nofun, reduces := h.reduces.finish hf }
  case inr.inr => exact { maps := h.maps.cons_of_ne nofun, reduces := h.reduces.cons_of_ne nofun }

theorem Tracks.expire {n : Nat} (h : c.Tracks files nReduce reported)
    (hn : c.next (.expire n) = some c') :
    c'.Tracks files nReduce reported := by
  have ⟨timer, _, hn⟩ := Option.bind_eq_some_iff.mp hn
  split_ifs at hn
  cases hn
  exact { maps := h.maps, reduces := h.reduces }

theorem Tracks.requeue {n : Nat} (h : c.Tracks files nReduce reported)
    (hn : c.next (.requeue n) = some c') :
    c'.Tracks files nReduce reported := by
  have ⟨timer, _, hr⟩ := Option.bind_eq_some_iff.mp hn
  split_ifs at hr
  rw [Coordinator.requeue] at hr
  obtain ⟨_, _, hf, rfl⟩ | ⟨_, _, hf, rfl⟩ | ⟨_, rfl⟩ := update_cases hr
  case inl     => exact { maps := h.maps.requeue hf, reduces := h.reduces }
  case inr.inl => exact { maps := h.maps, reduces := h.reduces.requeue hf }
  case inr.inr => exact { maps := h.maps, reduces := h.reduces }

end Coordinator

namespace State

variable {s s' : State} {e : Event}

-- All that can happen to a job.
inductive Stepped (s : State) : Event → State → Prop
  | sleep : Stepped s .getJob s
  | getJob {c reply} (hg : s.coordinator.getJob = some (c, reply))
    (hs : reply.taskType ≠ .sleepTask) :
    Stepped s .getJob ⟨c, s.assigned ++ [⟨reply.taskNumber, reply.taskType⟩], s.reported⟩
  | onJobFinish (k) {c args} (hk : s.assigned[k]? = some args)
    (hf : s.coordinator.onJobFinish args = some c) :
    Stepped s (.onJobFinish k) ⟨c, s.assigned.eraseIdx k, args :: s.reported⟩
  | expire (n) {c} (hn : s.coordinator.next (.expire n) = some c) :
    Stepped s (.expire n) { s with coordinator := c }
  | requeue (n) {c} (hn : s.coordinator.next (.requeue n) = some c) :
    Stepped s (.requeue n) { s with coordinator := c }

theorem next_stepped (h : s.next e = some s') : Stepped s e s' := by
  cases e <;> simp only [next] at h
  case getJob =>
    have ⟨⟨c, reply⟩, hg, h⟩ := Option.bind_eq_some_iff.mp h
    split_ifs at h with hs
    case pos =>
      cases h
      obtain ⟨rfl, _⟩ | hx := Coordinator.getJob_gives hg
      case inl => exact .sleep
      case inr => cases hx <;> cases hs
    case neg =>
      cases h
      exact .getJob hg hs
  case onJobFinish k =>
    have ⟨args, hk, h⟩ := Option.bind_eq_some_iff.mp h
    have ⟨c, hf, h⟩ := Option.bind_eq_some_iff.mp h
    cases h
    exact .onJobFinish k hk hf
  case expire n =>
    obtain ⟨c, hn, rfl⟩ := Option.map_eq_some_iff.mp h
    exact .expire n hn
  case requeue n =>
    obtain ⟨c, hn, rfl⟩ := Option.map_eq_some_iff.mp h
    exact .requeue n hn

-- `GetJob` is about to hand out a task that has been reported.
def Overwrites (s : State) : Event → Prop
  | .getJob => s.coordinator.front.map Task.state = some .done
  | _       => False

instance (s : State) : DecidablePred s.Overwrites
  | .getJob => inferInstanceAs <| Decidable <| _ = _
  | .onJobFinish _ | .expire _ | .requeue _ => isFalse nofun

theorem Stepped.tracks (h : Stepped s e s') (hs : s.coordinator.Tracks files nReduce s.reported)
    (ho : ¬s.Overwrites e) : s'.coordinator.Tracks files nReduce s'.reported := by
  cases h
  case sleep          => exact hs
  case getJob hg _    => exact hs.getJob hg ho
  case onJobFinish hf => exact hs.onJobFinish hf
  case expire hn      => exact hs.expire hn
  case requeue hn     => exact hs.requeue hn

-- The counters are right, hence so is what the coordinator concludes from them.
structure Exact (files : List String) (nReduce : Nat) (s : State) : Prop where
  maps    : s.coordinator.maps.finished = (distinct .mapTask s.reported).card
  reduces : s.coordinator.reduces.finished = (distinct .reduceTask s.reported).card
  barrier : ∀ c reply, s.coordinator.getJob = some (c, reply) → reply.taskType = .reduceTask →
    ∀ n < files.length, ⟨n, .mapTask⟩ ∈ s.reported
  done    : s.coordinator.done = true ↔ ∀ n < nReduce, ⟨n, .reduceTask⟩ ∈ s.reported

theorem exact_of_tracks (h : s.coordinator.Tracks files nReduce s.reported) :
    s.Exact files nReduce where
  maps    := h.maps.finished
  reduces := h.reduces.finished
  done    := by rw [←h.reduces.finished_iff, Coordinator.done, decide_eq_true_iff]
  barrier c reply hg ht := by
    obtain ⟨_, rfl⟩ | hx := Coordinator.getJob_gives hg
    case inl => cases ht
    case inr =>
      cases hx
      case map             => cases ht
      case reduce hf hq hi => exact h.maps.finished_iff.mp hf

theorem counts_reported (files : List String) (nReduce : Nat) (b : (job files nReduce).Behavior)
    (ho : b.Avoids Overwrites) (i : Nat) : (b.state i).Exact files nReduce :=
  exact_of_tracks <| b.invariant (I := fun s => s.coordinator.Tracks files nReduce s.reported)
    (.make files nReduce) (fun i e _ hl hn h => (next_stepped hn).tracks h (ho i e hl)) i

-- A task is requeued, handed out again and then reported by both of the workers.
def duplicated : List Event :=
  [.getJob, .getJob, .expire 0, .requeue 0, .getJob, .onJobFinish 0, .onJobFinish 1, .onJobFinish 0,
    .getJob, .onJobFinish 0]

theorem counts_reported_duplicated :
    ∃ b : (job ["a", "b"] 1).Behavior, (∀ i, (b.state i).Exact ["a", "b"] 1) ∧
      (b.state 8).reported = [⟨1, .mapTask⟩, ⟨0, .mapTask⟩, ⟨0, .mapTask⟩] ∧
      (b.state 8).coordinator.maps.finished = 2 ∧ (b.state 10).coordinator.done = true := by
  refine ⟨.ofActions _ duplicated (by decide), fun i => ?_, rfl, rfl, rfl⟩
  exact counts_reported ["a", "b"] 1 _ (System.Behavior.avoids_ofActions (by decide)) i

-- A task is reported after it was requeued, and then handed out and reported once more.
def overwritten : List Event :=
  [.getJob, .expire 0, .requeue 0, .onJobFinish 0, .getJob, .getJob, .onJobFinish 1]

theorem counts_overwritten :
    ∃ b : (job ["a", "b"] 1).Behavior,
      (b.state 7).reported = [⟨0, .mapTask⟩, ⟨0, .mapTask⟩] ∧
      (b.state 7).coordinator.maps.finished = 2 ∧
      (b.state 7).coordinator.getJob.map (·.snd.taskType) = some .reduceTask :=
  ⟨.ofActions _ overwritten (by decide), rfl, rfl, rfl⟩

end State
end Mr
