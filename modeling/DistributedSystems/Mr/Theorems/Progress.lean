import DistributedSystems.Mr.Theorems.MapReduce

namespace Mr

variable {n : Nat}

theorem Pool.receive_front {pool : Pool} {i : Nat} {queue : List Nat} {task : Task}
    (hq : pool.queue = i :: queue) (ht : pool.tasks[i]? = some task) :
    pool.receive = some ({ pool with queue }, some (i, task)) := by
  simp [receive, hq, ht]

namespace Coordinator

variable {c c' : Coordinator} {i k : Nat} {queue : List Nat} {inputs : List String} {nReduce : Nat}
  {reported : List FinishJobRequest}

def total (inputs : List String) (nReduce : Nat) : FunctionType → Nat
  | .mapTask => inputs.length
  | _        => nReduce

theorem phase_cases (c : Coordinator) : c.phase = .mapTask ∨ c.phase = .reduceTask := by
  rw [phase]
  split_ifs
  case pos => exact .inl rfl
  case neg => exact .inr rfl

theorem phase_of_eq (hf : c'.maps.finished = c.maps.finished) (ht : c'.maps.total = c.maps.total) :
    c'.phase = c.phase := by
  rw [phase, phase, hf, ht]

namespace Counts

theorem pool (h : c.Counts inputs nReduce reported) :
    (c.pool c.phase).Counts c.phase (total inputs nReduce c.phase) reported := by
  rcases c.phase_cases with hp | hp <;> rw [hp]
  case inl => exact h.maps
  case inr => exact h.reduces

theorem poolKept (h : c.Counts inputs nReduce reported) :
    (c.pool c.phase).Kept c.phase (total inputs nReduce c.phase) c.timers := by
  rcases c.phase_cases with hp | hp <;> rw [hp]
  case inl => exact h.kept.maps
  case inr => exact h.kept.reduces

theorem exists_task (h : c.Counts inputs nReduce reported) (hn : n < total inputs nReduce c.phase)
    (hr : ⟨n, c.phase⟩ ∉ reported) :
    ∃ task, (c.pool c.phase).tasks[n]? = some task ∧ task.state ≠ .done := by
  have hl : n < (c.pool c.phase).tasks.length := h.pool.length ▸ hn
  refine ⟨_, List.getElem?_eq_getElem hl, fun hd => hr ?_⟩
  exact h.pool.done n _ (List.getElem?_eq_getElem hl) hd

-- The tasks are handed out in the order of the queue.
theorem getJob_front (h : c.Counts inputs nReduce reported)
    (hq : (c.pool c.phase).queue = i :: queue) :
    ∃ c' response, c.getJob = some (c', response) ∧ response.taskType = c.phase ∧
      response.taskNumber = i ∧ c'.phase = c.phase ∧ (c'.pool c.phase).queue = queue := by
  have hi : i < (c.pool c.phase).total := h.poolKept.bound i (by simp [hq])
  obtain ⟨task, ht⟩ := h.poolKept.found hi
  have hn := h.poolKept.number i task ht
  by_cases hf : c.maps.finished = c.maps.total
  case pos =>
    have hp : c.phase = .reduceTask := by simp [phase, hf]
    rw [hp] at hq ht ⊢
    have hr : c.reduces.receive = _ := Pool.receive_front hq ht
    refine ⟨_, _, by rw [getJob, if_neg (not_not.mpr hf), hr]; rfl, rfl, hn, ?_, rfl⟩
    exact (phase_of_eq rfl rfl).trans hp
  case neg =>
    have hp : c.phase = .mapTask := by simp [phase, hf]
    rw [hp] at hq ht ⊢
    have hr : c.maps.receive = _ := Pool.receive_front hq ht
    refine ⟨_, _, by rw [getJob, if_pos hf, hr]; rfl, rfl, hn, ?_, rfl⟩
    exact (phase_of_eq rfl rfl).trans hp

-- A task that has not been reported is in the queue, or it will be.
theorem exists_timer (h : c.Counts inputs nReduce reported) (hn : n < total inputs nReduce c.phase)
    (hr : ⟨n, c.phase⟩ ∉ reported) (hq : n ∉ (c.pool c.phase).queue) :
    ∃ (k : Nat) (timer : Timer), c.timers[k]? = some timer ∧ timer.taskType = c.phase ∧
      timer.taskIndex = n ∧ (timer.state = .running ∨ timer.state = .expired) := by
  obtain ⟨task, ht, hd⟩ := h.exists_task hn hr
  have ho := h.poolKept.kept n task ht hd
  rw [Pool.occurrences, List.count_eq_zero_of_not_mem hq, Nat.zero_add] at ho
  obtain ⟨timer, hm, hh⟩ := List.countP_pos_iff.mp (ho ▸ Nat.one_pos)
  obtain ⟨k, hk⟩ := List.mem_iff_getElem?.mp hm
  exact ⟨k, timer, hk, Timer.holds_iff.mp hh⟩

theorem requeue_expired (h : c.Counts inputs nReduce reported)
    (hn : n < total inputs nReduce c.phase) (hr : ⟨n, c.phase⟩ ∉ reported) {timer : Timer}
    (hk : c.timers[k]? = some timer) (ht : timer.taskType = c.phase) (hi : timer.taskIndex = n)
    (hs : timer.state = .expired) :
    ∃ c', c.next (.requeue k) = some c' ∧ c'.phase = c.phase ∧ n ∈ (c'.pool c.phase).queue := by
  obtain ⟨task, htask, hd⟩ := h.exists_task hn hr
  have hroom := h.poolKept.room_of_expired (List.mem_of_getElem? hk) ht hs
  have hp : (c.pool c.phase).requeue n =
      some ({ c.pool c.phase with queue := (c.pool c.phase).queue ++ [n] }.set n
        { task with state := .idle }) := by
    simp [Pool.requeue, htask, hd, hroom]
  have hx : c.next (.requeue k) =
      { c with timers := c.timers.set k { timer with state := .finished } }.update
        (Pool.requeue · n) c.phase := by
    simp [next, hk, hs, Coordinator.requeue, ht, hi]
  rcases c.phase_cases with hph | hph <;> rw [hph] at hp hx ⊢
  all_goals
    refine ⟨_, hx.trans (congrArg (Option.map _) hp), (phase_of_eq rfl rfl).trans hph, ?_⟩
    exact List.mem_append_right _ (List.mem_singleton_self n)

end Counts
end Coordinator

-- The task that the process has been given.
def Process.task? : Process → Option FinishJobRequest
  | idle                                                            => none
  | received response | mapping response _ | reducing response _ _ =>
    some (MapReduce.result response)
  | finished args                                                   => some args

namespace MapReduce

variable {ω : Type} [DecidableEq ω] {j : Job} {s s' : MapReduce ω} {w : ω}
  {response : GetJobResponse} {args : FinishJobRequest}

-- No other process takes part, and this one gives up no task but those that have been reported.
def Alone (w : ω) (s : MapReduce ω) : Event ω → Prop
  | .getJob w' | .startMap w' | .rename w' _ | .finishMap w' | .startReduce w' | .read w'
  | .finishReduce w' _ | .sendResult w' => w' = w
  | .crash w'                           => w' = w ∧ ∃ args ∈ (s.process w).task?, args ∈ s.reported
  | .expire _ | .requeue _              => True

def Strays (w : ω) (s : MapReduce ω) (e : Event ω) : Prop :=
  s.Recounts e ∨ ¬s.Alone w e

abbrev Started (j : Job) (s : MapReduce ω) : Prop :=
  (mapReduce ω j.client j.inputs j.nReduce j.files).Reached Recounts s

abbrev Leads (j : Job) (w : ω) (s s' : MapReduce ω) : Prop :=
  (mapReduce ω j.client j.inputs j.nReduce j.files).Steps (Strays w) s s'

theorem Leads.one {e : Event ω} (hn : s.next j.client e = some s') (ha : s.Alone w e)
    (hr : ¬s.Recounts e) :
    Leads j w s s' :=
  .single ⟨e, not_or.mpr ⟨hr, not_not.mpr ha⟩, hn⟩

theorem Started.leads (hs : s.Started j) (hl : Leads j w s s') : s'.Started j := by
  induction hl
  case refl           => exact hs
  case tail _ _ hn hi =>
    have ⟨e, he, hn⟩ := hn
    exact .next hi (not_or.mp he).left hn

-- The process gets that far on its own.
def Achieves (j : Job) (w : ω) (process : Process) (s : MapReduce ω) : Prop :=
  ∃ s', Leads j w s s' ∧ s'.process w = process ∧ s'.coordinator = s.coordinator ∧
  s'.reported = s.reported

theorem Achieves.of_leads {process process' : Process} {files : Files}
    (hl : Leads j w s ({ s with files }.set w process))
    (h : ({ s with files }.set w process).Achieves j w process') : s.Achieves j w process' := by
  obtain ⟨s', hl', hp, hc, hx⟩ := h
  exact ⟨s', hl.trans hl', hp, hc, hx⟩

theorem Leads.achieves {process : Process} {files : Files}
    (hl : Leads j w s ({ s with files }.set w process)) :
    s.Achieves j w process :=
  ⟨_, hl, set_self .., rfl, rfl⟩

theorem achieves_of_mapping {buckets : Groups Nat KeyValue}
    (hw : s.process w = .mapping response buckets) :
    s.Achieves j w (.finished (result response)) := by
  induction buckets generalizing s
  case nil =>
    have hl : Leads j w s (s.set w (.finished (result response))) :=
      .one (e := .finishMap w) (by simp [next, hw]) rfl id
    exact hl.achieves
  case cons bucket buckets hi =>
    have hl : Leads j w s
        ((s.write (intermediateName response.taskNumber bucket.fst) (print bucket.snd)).set w
        (.mapping response buckets)) := .one (e := .rename w 0) (by simp [next, hw]) rfl id
    exact .of_leads hl (hi (set_self ..))

-- A task that has been reported is given up. To report it again would be to count it again.
theorem leads_idle (ht : (s.process w).task? = some args) (hr : args ∈ s.reported) :
    Leads j w s (s.set w .idle) :=
  .one (e := .crash w) rfl ⟨rfl, args, ht, hr⟩ id

-- The tasks that have not been reported.
def remaining (j : Job) (reported : List FinishJobRequest) : Nat :=
  (j.inputs.length - (distinct .mapTask reported).card) +
    (j.nReduce - (distinct .reduceTask reported).card)

theorem remaining_cons {t : Workers ω} (h : s.Coupled j t) {reported : List FinishJobRequest}
    (hs : s.reported = args :: reported) (hr : args ∉ reported) :
    remaining j s.reported < remaining j reported := by
  have hm := Finset.card_le_card h.counts.maps.subset
  have hc := Finset.card_le_card h.counts.reduces.subset
  have hne := (h.reported args (by simp [hs])).taskType_ne
  rw [Pool.Counts.card_tasks, hs] at hm hc
  rw [remaining, remaining, hs]
  obtain ⟨n, taskType⟩ := args
  have hnot : ⟨n, taskType⟩ ∉ distinct taskType reported := fun hx => hr (mem_distinct.mp hx).left
  cases taskType
  case mapTask =>
    rw [distinct_cons, Finset.card_insert_of_notMem hnot] at hm ⊢
    rw [distinct_cons_of_ne (by simp)] at hc ⊢
    omega
  case reduceTask =>
    rw [distinct_cons, Finset.card_insert_of_notMem hnot] at hc ⊢
    rw [distinct_cons_of_ne (by simp)] at hm ⊢
    omega
  case sleepTask => exact absurd rfl hne

section

variable (hj : j.Regular) (ho : ∀ b < j.nReduce, outputName b ∉ j.inputs) (hs : s.Started j)
include hj ho hs

theorem achieves_of_reducing {index : Nat} {kva : Groups Bytes Bytes}
    (hw : s.process w = .reducing response index kva) (hi : index ≤ response.maps) :
    s.Achieves j w (.finished (result response)) := by
  obtain ⟨d, hd⟩ := Nat.exists_eq_add_of_le hi
  induction d generalizing s index kva
  case zero =>
    obtain rfl : index = response.maps := hd.symm
    have hl : Leads j w s
        ((s.write (outputName response.taskNumber) (print (j.client.reduce kva))).set w
        (.finished (result response))) :=
          .one (e := .finishReduce w kva) (by simp [next, hw]) rfl id
    exact hl.achieves
  case succ d hind =>
    have hlt : index < response.maps := by omega
    obtain ⟨t, h⟩ := Coupled.of_reached hj ho hs
    have hwk : t.worker w = .reducing response.taskNumber index kva := by rw [h.worker, hw]; rfl
    have hc := Workers.Correct.of_reached hj h.reached
    obtain ⟨hb, hr, _⟩ := hwk ▸ hc.worker w
    obtain ⟨hp, ht, -⟩ : Process.Valid j t (.reducing response index kva) := hw ▸ h.process w
    have hm : response.maps = j.inputs.length := by
      cases hp
      case map    => cases ht
      case reduce => rfl
    have ha := h.files ▸ hc.addFile hj hr (hm ▸ hlt) hb kva
    have hl : Leads j w s (s.set w (.reducing response (index + 1)
        (kva.appendAll ((j.bucket index response.taskNumber).map KeyValue.toPair)))) :=
      .one (e := .read w) (by simp [next, hw, hlt, ha]) rfl id
    exact .of_leads hl (hind (hs.leads hl) (set_self ..) (by omega) (by omega))

theorem achieves_of_received (hw : s.process w = .received response) :
    s.Achieves j w (.finished (result response)) := by
  obtain ⟨t, h⟩ := Coupled.of_reached hj ho hs
  have hp : response.Assigned j := by simpa [Process.Valid, hw] using h.process w
  cases hp
  case map n input hi =>
    have hm := List.mem_of_getElem? hi
    obtain ⟨content, hf⟩ := Option.isSome_iff_exists.mp (hj.inputs input hm)
    have hl : Leads j w s (s.set w (.mapping ⟨.mapTask, n, j.nReduce, 0, input⟩
        (fileToPairs j.nReduce (j.client.mapf input content)))) :=
      .one (e := .startMap w) (by simp [next, hw, h.inputs input hm, hf]) rfl id
    exact .of_leads hl (achieves_of_mapping (set_self ..))
  case reduce n hn =>
    have hl : Leads j w s
        (s.set w (.reducing ⟨.reduceTask, n, j.nReduce, j.inputs.length, ""⟩ 0 [])) :=
      .one (e := .startReduce w) (by simp [next, hw]) rfl id
    exact .of_leads hl (achieves_of_reducing hj ho (hs.leads hl) (set_self ..) (Nat.zero_le _))

-- A process that has a task can execute it, however far it is.
theorem achieves_task (ht : (s.process w).task? = some args) :
    s.Achieves j w (.finished args) := by
  obtain ⟨t, h⟩ := Coupled.of_reached hj ho hs
  have hp := h.process w
  cases hw : s.process w <;> rw [hw] at ht hp <;> cases ht
  case received                    => exact achieves_of_received hj ho hs hw
  case mapping                     => exact achieves_of_mapping hw
  case reducing response index kva => exact achieves_of_reducing hj ho hs hw hp.right.right
  case finished                    => exact ⟨s, .refl, hw, rfl, rfl⟩

-- A process that reports a task which has not been reported before.
theorem leads_sendResult (hw : s.process w = .finished args) (hr : args ∉ s.reported) :
    ∃ s', Leads j w s s' ∧ s'.reported = args :: s.reported := by
  obtain ⟨t, h⟩ := Coupled.of_reached hj ho hs
  obtain ⟨-, response, ha, rfl⟩ : Process.Valid j t (.finished args) := hw ▸ h.process w
  have hrec : ¬s.Recounts (.sendResult w) := by
    rintro ⟨args, ha, hm, _⟩
    obtain rfl : result response = args := by simpa [hw, Process.result?] using ha
    exact hr hm
  obtain ⟨c, hc⟩ : ∃ c, s.coordinator.onJobFinish (result response) = some c := by
    cases ha
    case map n input hi =>
      have hn := (List.getElem?_eq_some_iff.mp hi).fst
      obtain ⟨maps, hf⟩ := h.counts.kept.maps.finish_of_lt (hn.trans_eq h.counts.maps.total.symm)
      exact ⟨_, congrArg (Option.map _) hf⟩
    case reduce n hn =>
      obtain ⟨reduces, hf⟩ :=
        h.counts.kept.reduces.finish_of_lt (hn.trans_eq h.counts.reduces.total.symm)
      exact ⟨_, congrArg (Option.map _) hf⟩
  exact ⟨_, .one (e := .sendResult w) (by simp only [next, hw, hc]; rfl) rfl hrec, rfl⟩

theorem leads_task (ht : (s.process w).task? = some args) (hr : args ∉ s.reported) :
    ∃ s', Leads j w s s' ∧ s'.reported = args :: s.reported := by
  obtain ⟨s₁, hl₁, hw, _, hr₁⟩ := achieves_task hj ho hs ht
  obtain ⟨s₂, hl₂, hr₂⟩ := leads_sendResult hj ho (hs.leads hl₁) hw (hr₁ ▸ hr)
  exact ⟨s₂, hl₁.trans hl₂, hr₁ ▸ hr₂⟩

-- The process asks for tasks until it is given one that has not been reported.
theorem leads_received (hw : s.process w = .idle) {phase : FunctionType}
    (hp : s.coordinator.phase = phase) (hq : n ∈ (s.coordinator.pool phase).queue)
    (hr : ⟨n, phase⟩ ∉ s.reported) :
    ∃ s' args, Leads j w s s' ∧ (s'.process w).task? = some args ∧ args ∉ s.reported ∧
      s'.reported = s.reported := by
  generalize hl : (s.coordinator.pool phase).queue = queue at hq
  induction queue generalizing s
  case nil => cases hq
  case cons i queue hi =>
    obtain ⟨t, h⟩ := Coupled.of_reached hj ho hs
    obtain ⟨c, response, hg, ht, hn, hp', hqueue⟩ := h.counts.getJob_front (hp ▸ hl)
    have hne : response.taskType ≠ .sleepTask := by
      rw [ht]
      rcases s.coordinator.phase_cases with hp | hp <;> simp [hp]
    let s₁ := { s with coordinator := c }.set w (.received response)
    have hlead : Leads j w s s₁ := .one (e := .getJob w) (by simp [next, hw, hg, hne, s₁]) rfl id
    have htask : (s₁.process w).task? = some ⟨i, phase⟩ := by
      rw [set_self, Process.task?, result, ht, hn, hp]
    by_cases hx : ⟨i, phase⟩ ∈ s.reported
    case neg => exact ⟨s₁, _, hlead, htask, hx, rfl⟩
    case pos =>
      have hq : n ∈ queue := (List.mem_cons.mp hq).resolve_left fun he => hr (he ▸ hx)
      have hlead := hlead.trans (leads_idle htask hx)
      obtain ⟨s', args, hlead', h'⟩ :=
        hi (hs.leads hlead) (set_self ..) (hp'.trans hp) hr (hp ▸ hqueue) hq
      exact ⟨s', args, hlead.trans hlead', h'⟩

-- A task that has not been reported gets into the queue.
theorem leads_queued (hw : s.process w = .idle) {phase : FunctionType}
    (hp : s.coordinator.phase = phase) (hn : n < Coordinator.total j.inputs j.nReduce phase)
    (hr : ⟨n, phase⟩ ∉ s.reported) :
    ∃ s', Leads j w s s' ∧ s'.process w = .idle ∧ s'.coordinator.phase = phase ∧
      n ∈ (s'.coordinator.pool phase).queue ∧ s'.reported = s.reported := by
  subst hp
  by_cases hq : n ∈ (s.coordinator.pool s.coordinator.phase).queue
  case pos => exact ⟨s, .refl, hw, rfl, hq, rfl⟩
  case neg =>
    obtain ⟨t, h⟩ := Coupled.of_reached hj ho hs
    obtain ⟨k, timer, hk, ht, hi, hstate⟩ := h.counts.exists_timer hn hr hq
    rcases hstate with hrun | hexp
    case inr =>
      obtain ⟨c, hc, hp, hq⟩ := h.counts.requeue_expired hn hr hk ht hi hexp
      exact ⟨{ s with coordinator := c }, .one (e := .requeue k) (by simp [next, hc]) trivial id,
        hw, hp, hq, rfl⟩
    case inl =>
      let timers := s.coordinator.timers.set k { timer with state := .expired }
      have hl : Leads j w s { s with coordinator := { s.coordinator with timers } } :=
        .one (e := .expire k) (by simp [next, Coordinator.next, hk, hrun, timers]) trivial id
      have hlen := (List.getElem?_eq_some_iff.mp hk).fst
      have hk' : timers[k]? = some { timer with state := .expired } := List.getElem?_set_self hlen
      obtain ⟨t', h'⟩ := Coupled.of_reached hj ho (hs.leads hl)
      obtain ⟨c, hc, hp, hq⟩ := h'.counts.requeue_expired hn hr hk' ht hi rfl
      refine ⟨{ s with coordinator := c }, hl.trans (Leads.one (e := .requeue k) ?_ trivial id), hw,
        hp, hq, rfl⟩
      simp only [next, hc]
      rfl

-- The job is not done, so an idle process can get a task and report it.
theorem leads_reported_of_idle (hw : s.process w = .idle) (hd : s.coordinator.done = false) :
    ∃ s' args, Leads j w s s' ∧ args ∉ s.reported ∧ s'.reported = args :: s.reported := by
  obtain ⟨t, h⟩ := Coupled.of_reached hj ho hs
  have hpool := h.counts.pool
  obtain ⟨n, hn, hr⟩ : ∃ n < Coordinator.total j.inputs j.nReduce s.coordinator.phase,
      ⟨n, s.coordinator.phase⟩ ∉ s.reported := by
    by_contra hall
    push Not at hall
    have hf := hpool.finished_iff.mpr hall
    by_cases hm : s.coordinator.maps.finished = s.coordinator.maps.total
    case pos => simp_all [Coordinator.phase, Coordinator.pool, Coordinator.done]
    case neg => simp_all [Coordinator.phase, Coordinator.pool]
  obtain ⟨s₁, hl₁, hw₁, hp₁, hq₁, hr₁⟩ := leads_queued hj ho hs hw rfl hn hr
  obtain ⟨s₂, args, hl₂, ht₂, hx, hr₂⟩ := leads_received hj ho (hs.leads hl₁) hw₁ hp₁ hq₁ (hr₁ ▸ hr)
  have hl := hl₁.trans hl₂
  obtain ⟨s₃, hl₃, hr₃⟩ := leads_task hj ho (hs.leads hl) ht₂ (hr₂ ▸ hx)
  exact ⟨s₃, args, hl.trans hl₃, hr₁ ▸ hx, by rw [hr₃, hr₂, hr₁]⟩

theorem leads_reported (w : ω) (hd : s.coordinator.done = false) :
    ∃ s' args, Leads j w s s' ∧ args ∉ s.reported ∧ s'.reported = args :: s.reported := by
  cases ht : (s.process w).task?
  case none =>
    have hw : s.process w = .idle := by cases hw : s.process w <;> simp [hw, Process.task?] at ht ⊢
    exact leads_reported_of_idle hj ho hs hw hd
  case some args =>
    by_cases hr : args ∈ s.reported
    case neg =>
      obtain ⟨s', hl, hr'⟩ := leads_task hj ho hs ht hr
      exact ⟨s', args, hl, hr, hr'⟩
    case pos =>
      have hl : Leads j w s (s.set w .idle) := leads_idle ht hr
      obtain ⟨s', args', hl', h'⟩ := leads_reported_of_idle hj ho (hs.leads hl) (set_self ..) hd
      exact ⟨s', args', hl.trans hl', h'⟩

theorem leads_done (w : ω) : ∃ s', Leads j w s s' ∧ s'.coordinator.done = true := by
  generalize hk : remaining j s.reported = k
  induction k using Nat.strong_induction_on generalizing s
  case h k hi =>
    cases hd : s.coordinator.done
    case true  => exact ⟨s, .refl, hd⟩
    case false =>
      obtain ⟨s', args, hl, hr, hrep⟩ := leads_reported hj ho hs w hd
      obtain ⟨t', h'⟩ := Coupled.of_reached hj ho (hs.leads hl)
      obtain ⟨s'', hl', hd'⟩ := hi _ (hk ▸ remaining_cons h' hrep hr) (hs.leads hl) rfl
      exact ⟨s'', hl.trans hl', hd'⟩

end

variable {c : Client} {inputs : List String} {nReduce : Nat} {files : Files}

-- Whatever has happened to the workers, any one of them can still finish the job on its own.
theorem can_finish (w : ω) (hn : 0 < nReduce)
    (hf : ∀ index < inputs.length, ∀ bucket < nReduce, files (intermediateName index bucket) = none)
    (ho : ∀ taskNumber < nReduce, outputName taskNumber ∉ inputs)
    (hm : ∀ name content, ∀ kv ∈ c.mapf name content, kv.Printable)
    (hc : ∀ key values values', values.Perm values' → c.reducef key values = c.reducef key values')
    (b : (mapReduce ω c inputs nReduce files).Behavior) (hb : b.Avoids Recounts) (i : Nat)
    {text : Bytes} (ht : Sequential.Writes c inputs files text) :
    ∃ s', (mapReduce ω c inputs nReduce files).Steps (Strays w) (b.state i) s' ∧
      s'.coordinator.done = true ∧ (outputLines nReduce s'.files).Perm (lines text) := by
  let j : Job := ⟨c, inputs, nReduce, files⟩
  have ⟨kvs, _, hi, _⟩ := ht
  have hj : j.Regular := ⟨hn, (Sequential.intermediate_eq hi nReduce).right, hf, hm⟩
  have hs : (b.state i).Started j := .of_avoids hb i
  obtain ⟨s', hl, hd⟩ := leads_done hj ho hs w
  obtain ⟨t, h⟩ := Coupled.of_reached hj ho (hs.leads hl)
  have hp := (Workers.Correct.of_reached hj h.reached).outputLines_perm hj hc (h.reduced hd) ht
  exact ⟨s', hl, hd, h.files ▸ hp⟩

-- The first task is reported after it was requeued, the worker with the second one stops.
def abandoned : List (Event Bool) :=
  [.getJob false, .startMap false, .expire 0, .requeue 0, .rename false 0, .rename false 0,
    .finishMap false, .sendResult false, .getJob true, .startMap true, .crash true]

open Workers in
theorem can_finish_abandoned :
    ∃ b : (mapReduce Bool tally ["x", "y"] 2 (filesOf [("x", [97, 98]), ("y", [98])])).Behavior,
      (b.state 11).coordinator.maps.queue = [0] ∧ (b.state 11).reported = [⟨0, .mapTask⟩] ∧
      ∃ s', (mapReduce Bool tally ["x", "y"] 2 (filesOf [("x", [97, 98]), ("y", [98])])).Steps
        (Strays false)
          (b.state 11) s' ∧ s'.coordinator.done = true ∧
        (outputLines 2 s'.files).Perm (lines [97, 32, 49, 10, 98, 32, 49, 49, 10]) := by
  refine ⟨.ofActions _ abandoned (by decide +kernel), rfl, rfl, ?_⟩
  refine can_finish false (by decide) ?files ?outputs tally_printable tally_perm _
    ?recounts 11 tally_writes
  case files    => decide +kernel
  case outputs  => decide +kernel
  case recounts => exact System.Behavior.avoids_ofActions (by decide +kernel)

end MapReduce
end Mr
