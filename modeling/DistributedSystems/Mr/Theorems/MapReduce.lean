import DistributedSystems.Library.Service
import DistributedSystems.Mr.Theorems.Counts
import DistributedSystems.Mr.Theorems.Sequential

namespace Mr

variable {ω : Type} {j : Job}

-- A task of the job, as `GetJob` describes it.
inductive GetJobResponse.Assigned (j : Job) : GetJobResponse → Prop
  | map {n : Nat} {input : String} (hi : j.inputs[n]? = some input) :
    Assigned j ⟨.mapTask, n, j.nReduce, 0, input⟩
  | reduce {n : Nat} (hn : n < j.nReduce) :
    Assigned j ⟨.reduceTask, n, j.nReduce, j.inputs.length, ""⟩

namespace Workers

variable {t t' : Workers ω} {args : FinishJobRequest}

def Executed (t : Workers ω) (args : FinishJobRequest) : Prop :=
  match args.taskType with
  | .mapTask    => args.taskNumber ∈ t.mapped
  | .reduceTask => args.taskNumber ∈ t.reduced
  | .sleepTask  => False

theorem Executed.mono (h : t.Executed args) (hm : t.mapped ⊆ t'.mapped)
    (hr : t.reduced ⊆ t'.reduced) :
    t'.Executed args := by
  obtain ⟨n, taskType⟩ := args
  cases taskType
  case mapTask    => exact hm h
  case reduceTask => exact hr h
  case sleepTask  => exact h

theorem Executed.taskType_ne (h : t.Executed args) : args.taskType ≠ .sleepTask := by
  intro ht
  simp [Executed, ht] at h

section

variable [DecidableEq ω]

theorem set_self (t : Workers ω) (w : ω) (worker : Worker) : (t.set w worker).worker w = worker :=
  Function.update_self ..

theorem set_of_ne (t : Workers ω) {w w' : ω} (h : w' ≠ w) (worker : Worker) :
    (t.set w worker).worker w' = t.worker w' :=
  Function.update_of_ne h ..

theorem Correct.of_reached (hj : j.Regular)
    (h : (workers ω j.client j.inputs j.nReduce j.files).Reached (fun _ _ => False) t) :
    t.Correct j := by
  induction h
  case init           => exact .init j hj
  case next _ _ hs hi => exact hi.step hj (stepped hs)

end

end Workers

namespace Process

variable {t t' : Workers ω}

def result? : Process → Option FinishJobRequest
  | finished args => some args
  | _             => none

-- What the process is doing to the files. A map task reads its input when it is received, as the
-- input does not change.
def worker (j : Job) : Process → Worker
  | idle | finished _                            => .idle
  | received ⟨.mapTask, taskNumber, _, _, _⟩     =>
    .mapping taskNumber (fileToPairs j.nReduce (j.kva taskNumber))
  | received ⟨.reduceTask, taskNumber, _, _, _⟩  => .reducing taskNumber 0 []
  | received ⟨.sleepTask, _, _, _, _⟩            => .idle
  | mapping response buckets                     => .mapping response.taskNumber buckets
  | reducing response index kva                  => .reducing response.taskNumber index kva

def Valid (j : Job) (t : Workers ω) : Process → Prop
  | idle                      => True
  | received response         => response.Assigned j
  | mapping response _        => response.Assigned j ∧ response.taskType = .mapTask
  | reducing response index _ =>
    response.Assigned j ∧ response.taskType = .reduceTask ∧ index ≤ response.maps
  | finished args             =>
    t.Executed args ∧ ∃ response, response.Assigned j ∧ MapReduce.result response = args

theorem Valid.mono {process : Process} (h : process.Valid j t) (hm : t.mapped ⊆ t'.mapped)
    (hr : t.reduced ⊆ t'.reduced) : process.Valid j t' := by
  cases process
  case finished => exact ⟨h.left.mono hm hr, h.right⟩
  all_goals exact h

end Process

namespace MapReduce

variable [DecidableEq ω] {s s' : MapReduce ω} {t t' : Workers ω}

theorem set_self (s : MapReduce ω) (w : ω) (process : Process) :
    (s.set w process).process w = process :=
  Function.update_self ..

theorem set_of_ne (s : MapReduce ω) {w w' : ω} (h : w' ≠ w) (process : Process) :
    (s.set w process).process w' = s.process w' :=
  Function.update_of_ne h ..

-- A task that has been counted is counted again.
def Recounts (s : MapReduce ω) : Event ω → Prop
  | .sendResult w =>
    ∃ args ∈ (s.process w).result?, args ∈ s.reported ∧
      (s.coordinator.task? args).map Task.state ≠ some .done
  | _ => False

instance (s : MapReduce ω) : DecidablePred s.Recounts
  | .sendResult w => inferInstanceAs <| Decidable <| ∃ args ∈ (s.process w).result?,
      args ∈ s.reported ∧ (s.coordinator.task? args).map Task.state ≠ some .done
  | .getJob _ | .startMap _ | .rename _ _ | .finishMap _ | .startReduce _ | .read _ | .finishReduce
    _ _
  | .crash _ | .expire _ | .requeue _ => isFalse nofun

-- The files are those of workers that execute the map tasks before the reduce tasks, and what the
-- coordinator counts has been executed.
structure Coupled (j : Job) (s : MapReduce ω) (t : Workers ω) : Prop where
  reached  : (workers ω j.client j.inputs j.nReduce j.files).Reached (fun _ _ => False) t
  files    : t.files = s.files
  worker   : ∀ w, t.worker w = (s.process w).worker j
  process  : ∀ w, (s.process w).Valid j t
  inputs   : ∀ input ∈ j.inputs, s.files input = j.files input
  counts   : s.coordinator.Counts j.inputs j.nReduce s.reported
  reported : ∀ args ∈ s.reported, t.Executed args
  reducing : t.reducing = true → ∀ n < j.inputs.length, ⟨n, .mapTask⟩ ∈ s.reported

-- What may happen in a job.
inductive Stepped (c : Client) (s : MapReduce ω) : Event ω → MapReduce ω → Prop
  | getJob (w) {coordinator response} (hw : s.process w = .idle)
    (hg : s.coordinator.getJob = some (coordinator, response)) :
    Stepped c s (.getJob w)
      ({ s with coordinator }.set w (if response.taskType = FunctionType.sleepTask then .idle
        else .received response))
  | startMap (w) {response content} (hw : s.process w = .received response)
    (ht : response.taskType = .mapTask)
    (hf : s.files response.input = some content) :
    Stepped c s (.startMap w)
      (s.set w (.mapping response (fileToPairs response.buckets (c.mapf response.input content))))
  | rename (w k) {response buckets bucket pairs} (hw : s.process w = .mapping response buckets)
    (hk : buckets[k]? = some (bucket, pairs)) :
    Stepped c s (.rename w k)
      ((s.write (intermediateName response.taskNumber bucket) (print pairs)).set w
        (.mapping response (buckets.eraseIdx k)))
  | finishMap (w) {response} (hw : s.process w = .mapping response []) :
    Stepped c s (.finishMap w) (s.set w (.finished (result response)))
  | startReduce (w) {response} (hw : s.process w = .received response)
    (ht : response.taskType = .reduceTask) :
    Stepped c s (.startReduce w) (s.set w (.reducing response 0 []))
  | read (w) {response index kva kva'} (hw : s.process w = .reducing response index kva)
    (hi : index < response.maps)
      (ha : addFile kva (s.files (intermediateName index response.taskNumber)) = some kva') :
    Stepped c s (.read w) (s.set w (.reducing response (index + 1) kva'))
  | finishReduce (w) {order response kva} (hw : s.process w = .reducing response response.maps kva)
    (ho : order.Perm kva) :
    Stepped c s (.finishReduce w order)
      ((s.write (outputName response.taskNumber) (print (c.reduce order))).set w
        (.finished (result response)))
  | sendResult (w) {args coordinator} (hw : s.process w = .finished args)
    (hf : s.coordinator.onJobFinish args = some coordinator) :
    Stepped c s (.sendResult w) ({ s with coordinator, reported := args :: s.reported }.set w .idle)
  | crash (w) : Stepped c s (.crash w) (s.set w .idle)
  | expire (n) {coordinator} (hn : s.coordinator.next (.expire n) = some coordinator) :
    Stepped c s (.expire n) { s with coordinator }
  | requeue (n) {coordinator} (hn : s.coordinator.next (.requeue n) = some coordinator) :
    Stepped c s (.requeue n) { s with coordinator }

theorem stepped {c : Client} {e : Event ω} (h : s.next c e = some s') : Stepped c s e s' := by
  cases e <;> simp only [next] at h
  case getJob w =>
    split at h
    case h_2 => cases h
    case h_1 hw =>
      obtain ⟨⟨coordinator, response⟩, hg, h⟩ := Option.bind_eq_some_iff.mp h
      cases h
      exact .getJob w hw hg
  case startMap w =>
    split at h
    case h_2 => cases h
    case h_1 response hw =>
      split_ifs at h with ht
      obtain ⟨content, hf, h⟩ := Option.bind_eq_some_iff.mp h
      cases h
      exact .startMap w hw ht hf
  case rename w k =>
    split at h
    case h_2 => cases h
    case h_1 response buckets hw =>
      obtain ⟨⟨bucket, pairs⟩, hk, h⟩ := Option.bind_eq_some_iff.mp h
      cases h
      exact .rename w k hw hk
  case finishMap w =>
    split at h <;> cases h
    case h_1 response hw => exact .finishMap w hw
  case startReduce w =>
    split at h
    case h_2 => cases h
    case h_1 response hw =>
      split_ifs at h with ht
      cases h
      exact .startReduce w hw ht
  case read w =>
    split at h
    case h_2 => cases h
    case h_1 response index kva hw =>
      split_ifs at h with hi
      obtain ⟨kva', ha, h⟩ := Option.bind_eq_some_iff.mp h
      cases h
      exact .read w hw hi ha
  case finishReduce w order =>
    split at h
    case h_2 => cases h
    case h_1 response index kva hw =>
      split_ifs at h with hi
      obtain ⟨rfl, ho⟩ := hi
      cases h
      exact .finishReduce w hw ho
  case sendResult w =>
    split at h
    case h_2 => cases h
    case h_1 args hw =>
      obtain ⟨coordinator, hf, h⟩ := Option.bind_eq_some_iff.mp h
      cases h
      exact .sendResult w hw hf
  case crash w =>
    cases h
    exact .crash w
  case expire n =>
    obtain ⟨coordinator, hn, rfl⟩ := Option.map_eq_some_iff.mp h
    exact .expire n hn
  case requeue n =>
    obtain ⟨coordinator, hn, rfl⟩ := Option.map_eq_some_iff.mp h
    exact .requeue n hn

namespace Coupled

variable {w : ω}

theorem init :
    (mapReduce ω j.client j.inputs j.nReduce j.files).init.Coupled j
      (workers ω j.client j.inputs j.nReduce j.files).init where
  reached      := .init
  files        := rfl
  worker _     := rfl
  process _    := trivial
  inputs _ _   := rfl
  counts       := .make _ _
  reported _ h := by cases h
  reducing h   := by cases h

theorem coordinator (h : s.Coupled j t) {coordinator : Coordinator}
    (hc : coordinator.Counts j.inputs j.nReduce s.reported) : { s with coordinator }.Coupled j t :=
  { h with counts := hc }

-- The workers do not move.
theorem set (h : s.Coupled j t) {process : Process} (hw : t.worker w = process.worker j)
    (hp : process.Valid j t) : (s.set w process).Coupled j t :=
  { h with
    worker  := fun w' => by
      by_cases he : w' = w
      case pos => rw [he, MapReduce.set_self, hw]
      case neg => rw [MapReduce.set_of_ne s he, h.worker w']
    process := fun w' => by
      by_cases he : w' = w
      case pos => rwa [he, MapReduce.set_self]
      case neg => exact s.set_of_ne he process ▸ h.process w' }

-- One of the workers moves.
theorem advance (h : s.Coupled j t) (e : Workers.Event ω) (t' : Workers ω) {process : Process}
    {files : Files} (hs : t.next j.client j.inputs j.nReduce e = some (t'.set w (process.worker j)))
    (hw : t'.worker = t.worker) (hf : t'.files = files) (hm : t.mapped ⊆ t'.mapped)
    (hr : t.reduced ⊆ t'.reduced) (hp : process.Valid j t')
    (hi : ∀ input ∈ j.inputs, files input = s.files input)
    (hx : t'.reducing = true → ∀ n < j.inputs.length, ⟨n, .mapTask⟩ ∈ s.reported) :
    ({ s with files }.set w process).Coupled j (t'.set w (process.worker j)) where
  reached          := .next h.reached id hs
  files            := hf
  worker w'        := by
    by_cases he : w' = w
    case pos => rw [he, Workers.set_self, MapReduce.set_self]
    case neg => rw [Workers.set_of_ne t' he, MapReduce.set_of_ne _ he, hw, h.worker w']
  process w'       := by
    by_cases he : w' = w
    case pos => rw [he, MapReduce.set_self]; exact hp.mono (fun _ => id) (fun _ => id)
    case neg => rw [MapReduce.set_of_ne _ he]; exact (h.process w').mono hm hr
  inputs input hm' := (hi input hm').trans (h.inputs input hm')
  counts           := h.counts
  reported args ha := (h.reported args ha).mono hm hr
  reducing         := hx

theorem getJob (h : s.Coupled j t) (hj : j.Regular) {coordinator response}
    (hw : s.process w = .idle) (hg : s.coordinator.getJob = some (coordinator, response)) :
    ∃ t', Coupled j ({ s with coordinator }.set w
      (if response.taskType = FunctionType.sleepTask then .idle else .received response)) t' := by
  have hc := h.counts.gives hg
  have hi : t.worker w = .idle := by rw [h.worker, hw]; rfl
  obtain ⟨rfl, rfl⟩ | hx := Coordinator.getJob_gives hg
  case inl => exact ⟨t, (h.coordinator hc).set hi trivial⟩
  case inr =>
    cases hx
    case map i queue task hf hq ht =>
      have hin := h.counts.files i task ht
      have hn : task.taskNumber = i := h.counts.kept.maps.number i task ht
      obtain ⟨content, hcont⟩ :=
        Option.isSome_iff_exists.mp (hj.inputs _ (List.mem_of_getElem? hin))
      have hr : t.reducing = false := by
        rw [Bool.eq_false_iff]
        exact fun hr => hf (h.counts.maps.finished_iff.mpr (h.reducing hr))
      refine ⟨_, (h.coordinator hc).advance (.startMap w i) t ?_ rfl h.files (fun _ => id)
        (fun _ => id) ?_ (fun _ _ => rfl) h.reducing⟩
      · have hk := Job.kva_eq hin hcont
        simp [Workers.next, hi, hr, hin, h.files, h.inputs _ (List.mem_of_getElem? hin), hcont,
          Process.worker, hk, hn]
      · simp only [reduceCtorEq, if_false, Process.Valid, h.counts.reduces.total, hn]
        exact .map hin
    case reduce i queue task hf hq ht =>
      have hn : task.taskNumber = i := h.counts.kept.reduces.number i task ht
      have hlt : i < j.nReduce := h.counts.reduces.length ▸ (List.getElem?_eq_some_iff.mp ht).fst
      have hall := h.counts.maps.finished_iff.mp hf
      refine ⟨_, (h.coordinator hc).advance (.startReduce w i) { t with reducing := true }
        ?_ rfl h.files (fun _ => id) (fun _ => id) ?_ (fun _ _ => rfl) (fun _ => hall)⟩
      · have hm n (hlt : n < j.inputs.length) : n ∈ t.mapped := h.reported _ (hall n hlt)
        simp [Workers.next, hi, hlt, Process.worker, hn]
        exact hm
      · simp only [reduceCtorEq, if_false, Process.Valid, h.counts.reduces.total,
          h.counts.maps.total, hn]
        exact .reduce hlt

theorem startMap (h : s.Coupled j t) {response : GetJobResponse} {content : Bytes}
    (hw : s.process w = .received response) (ht : response.taskType = .mapTask)
    (hf : s.files response.input = some content) :
    (s.set w (.mapping response
      (fileToPairs response.buckets (j.client.mapf response.input content)))).Coupled j t := by
  have hp : response.Assigned j := by simpa [Process.Valid, hw] using h.process w
  cases hp
  case reduce => cases ht
  case map n input hi =>
    have hk := Job.kva_eq hi ((h.inputs _ (List.mem_of_getElem? hi)).symm.trans hf)
    refine h.set ?_ ⟨.map hi, rfl⟩
    rw [h.worker, hw, Process.worker, Process.worker, hk]

theorem rename (h : s.Coupled j t) (hj : j.Regular) {response : GetJobResponse}
    {buckets : Groups Nat KeyValue} {k bucket : Nat} {pairs : List KeyValue}
    (hw : s.process w = .mapping response buckets) (hk : buckets[k]? = some (bucket, pairs)) :
    ∃ t', ((s.write (intermediateName response.taskNumber bucket) (print pairs)).set w
      (.mapping response (buckets.eraseIdx k))).Coupled j t' := by
  have hwk : t.worker w = .mapping response.taskNumber buckets := by rw [h.worker, hw]; rfl
  have ⟨hi, hg, _⟩ := hwk ▸ (Workers.Correct.of_reached hj h.reached).worker w
  have ⟨hb, _⟩ := hg _ (List.mem_of_getElem? hk)
  refine ⟨_, h.advance (.rename w k)
    (t.write (intermediateName response.taskNumber bucket) (print pairs))
    ?_ rfl (by rw [Workers.write, h.files]) (fun _ => id) (fun _ => id) ?_ ?_ h.reducing⟩
  · simp [Workers.next, hwk, hk, Process.worker]
  · simpa [Process.Valid, hw] using h.process w
  · intro input hm
    have hne : input ≠ intermediateName response.taskNumber bucket :=
      fun he => hj.input_ne hi hb (he ▸ hm)
    exact Function.update_of_ne hne ..

theorem finishMap (h : s.Coupled j t) {response : GetJobResponse}
    (hw : s.process w = .mapping response []) :
    ∃ t', (s.set w (.finished (result response))).Coupled j t' := by
  have hwk : t.worker w = .mapping response.taskNumber [] := by rw [h.worker, hw]; rfl
  have hp : response.Assigned j ∧ response.taskType = .mapTask := by
    simpa [Process.Valid, hw] using h.process w
  refine ⟨_, h.advance (.finishMap w) { t with mapped := response.taskNumber :: t.mapped }
    ?_ rfl h.files (fun _ => List.mem_cons_of_mem _) (fun _ => id) ?_ (fun _ _ => rfl) h.reducing⟩
  · simp [Workers.next, hwk, Process.worker]
  · exact ⟨by simp [result, Workers.Executed, hp.right], response, hp.left, rfl⟩

theorem startReduce (h : s.Coupled j t) {response : GetJobResponse}
    (hw : s.process w = .received response) (ht : response.taskType = .reduceTask) :
    (s.set w (.reducing response 0 [])).Coupled j t := by
  have hp : response.Assigned j := by simpa [Process.Valid, hw] using h.process w
  refine h.set ?_ ⟨hp, ht, Nat.zero_le _⟩
  cases hp
  case map    => cases ht
  case reduce => rw [h.worker, hw, Process.worker, Process.worker]

theorem read (h : s.Coupled j t) {response : GetJobResponse} {index : Nat}
    {kva kva' : Groups Bytes Bytes} (hw : s.process w = .reducing response index kva)
    (hi : index < response.maps)
    (ha : addFile kva (s.files (intermediateName index response.taskNumber)) = some kva') :
    ∃ t', (s.set w (.reducing response (index + 1) kva')).Coupled j t' := by
  have hwk : t.worker w = .reducing response.taskNumber index kva := by rw [h.worker, hw]; rfl
  obtain ⟨hp, ht, -⟩ : Process.Valid j t (.reducing response _ kva) := hw ▸ h.process w
  cases hp
  case map         => cases ht
  case reduce n hn =>
    refine ⟨_, h.advance (.read w) t ?_ rfl h.files (fun _ => id) (fun _ => id) ⟨.reduce hn, rfl,
      hi⟩
      (fun _ _ => rfl) h.reducing⟩
    simp [Workers.next, hwk, hi, h.files, ha, Process.worker]

theorem finishReduce (h : s.Coupled j t) (ho : ∀ b < j.nReduce, outputName b ∉ j.inputs)
    {response : GetJobResponse} {kva order : Groups Bytes Bytes}
    (hw : s.process w = .reducing response response.maps kva) (hk : order.Perm kva) :
    ∃ t', ((s.write (outputName response.taskNumber) (print (j.client.reduce order))).set w
      (.finished (result response))).Coupled j t' := by
  have hwk : t.worker w = .reducing response.taskNumber response.maps kva := by
    rw [h.worker, hw]; rfl
  obtain ⟨hp, ht, -⟩ : Process.Valid j t (.reducing response _ kva) := hw ▸ h.process w
  cases hp
  case map         => cases ht
  case reduce n hn =>
    refine ⟨_, h.advance (.finishReduce w order)
      { t.write (outputName n) (print (j.client.reduce order)) with reduced := n :: t.reduced }
      ?_ rfl (by rw [Workers.write, h.files]) (fun _ => id) (fun _ => List.mem_cons_of_mem _)
      ?_ ?_ h.reducing⟩
    · simp [Workers.next, hwk, hk, Process.worker, Workers.write]
    · exact ⟨by simp [result, Workers.Executed], _, .reduce hn, rfl⟩
    · intro input hm
      have hne : input ≠ outputName n := fun he => ho n hn (he ▸ hm)
      exact Function.update_of_ne hne ..

theorem sendResult (h : s.Coupled j t) {args : FinishJobRequest} {coordinator : Coordinator}
    (hw : s.process w = .finished args) (hf : s.coordinator.onJobFinish args = some coordinator)
    (hr : ¬s.Recounts (.sendResult w)) :
    ({ s with coordinator, reported := args :: s.reported }.set w .idle).Coupled j t := by
  obtain ⟨hx, _⟩ : Process.Valid j t (.finished args) := hw ▸ h.process w
  have hc := h.counts.onJobFinish hf
    (fun hm => by_contra fun hd => hr ⟨args, by simp [hw, Process.result?], hm, hd⟩) hx.taskType_ne
  have h' : { s with coordinator, reported := args :: s.reported }.Coupled j t :=
    { h with
      counts   := hc
      reported := by
        intro args' hm
        rcases List.mem_cons.mp hm with rfl | hm
        · exact hx
        · exact h.reported args' hm
      reducing := fun hr n hn => List.mem_cons_of_mem _ (h.reducing hr n hn) }
  exact h'.set (by rw [h.worker, hw]; rfl) trivial

theorem crash (h : s.Coupled j t) : ∃ t', (s.set w .idle).Coupled j t' :=
  ⟨_, h.advance (.crash w) t rfl rfl h.files (fun _ => id) (fun _ => id) trivial (fun _ _ => rfl)
    h.reducing⟩

theorem step (h : s.Coupled j t) (hj : j.Regular) (ho : ∀ b < j.nReduce, outputName b ∉ j.inputs)
    {e : Event ω} (hs : s.next j.client e = some s') (hr : ¬s.Recounts e) :
    ∃ t', s'.Coupled j t' := by
  cases stepped hs
  case getJob hw hg         => exact h.getJob hj hw hg
  case startMap hw ht hf    => exact ⟨t, h.startMap hw ht hf⟩
  case rename hw hk         => exact h.rename hj hw hk
  case finishMap hw         => exact h.finishMap hw
  case startReduce hw ht    => exact ⟨t, h.startReduce hw ht⟩
  case read hw hi ha        => exact h.read hw hi ha
  case finishReduce hw hk   => exact h.finishReduce ho hw hk
  case sendResult hw hf     => exact ⟨t, h.sendResult hw hf hr⟩
  case crash                => exact h.crash
  case expire hn            => exact ⟨t, h.coordinator (h.counts.expire hn)⟩
  case requeue hn           => exact ⟨t, h.coordinator (h.counts.requeue hn)⟩

theorem of_reached (hj : j.Regular) (ho : ∀ b < j.nReduce, outputName b ∉ j.inputs)
    (h : (mapReduce ω j.client j.inputs j.nReduce j.files).Reached Recounts s) :
    ∃ t, s.Coupled j t := by
  induction h
  case init            => exact ⟨_, .init⟩
  case next _ hr hs hi =>
    obtain ⟨t, ht⟩ := hi
    exact ht.step hj ho hs hr

-- The coordinator is done.
theorem reduced (h : s.Coupled j t) (hd : s.coordinator.done = true) :
    ∀ b < j.nReduce, b ∈ t.reduced := by
  intro b hb
  exact h.reported _ (h.counts.reduces.finished_iff.mp (of_decide_eq_true hd) b hb)

end Coupled

variable {c : Client} {inputs : List String} {nReduce : Nat} {files : Files}

-- When `Done` is true, the workers have written what `mrsequential` would have written. Workers may
-- have failed, tasks may have been executed again, in any order and at the same time.
theorem done_perm_sequential (hn : 0 < nReduce)
    (hf : ∀ index < inputs.length, ∀ bucket < nReduce, files (intermediateName index bucket) = none)
    (ho : ∀ taskNumber < nReduce, outputName taskNumber ∉ inputs)
    (hm : ∀ name content, ∀ kv ∈ c.mapf name content, kv.Printable)
    (hc : ∀ key values values', values.Perm values' → c.reducef key values = c.reducef key values')
    (b : (mapReduce ω c inputs nReduce files).Behavior) (hb : b.Avoids Recounts) (i : Nat)
    (hd : (b.state i).coordinator.done = true) {text : Bytes}
    (ht : Sequential.Writes c inputs files text) :
    (outputLines nReduce (b.state i).files).Perm (lines text) := by
  let j : Job := ⟨c, inputs, nReduce, files⟩
  have ⟨kvs, _, hi, _⟩ := ht
  have hj : j.Regular := ⟨hn, (Sequential.intermediate_eq hi nReduce).right, hf, hm⟩
  obtain ⟨t, h⟩ := Coupled.of_reached (j := j) hj ho (.of_avoids hb i)
  have hp := (Workers.Correct.of_reached hj h.reached).outputLines_perm hj hc (h.reduced hd) ht
  exact h.files ▸ hp

-- A worker stops between two buckets. Its task is handed out again when the timer has expired.
def recovering : List (Event Bool) :=
  [.getJob false, .startMap false, .rename false 0, .crash false, .getJob true, .startMap true,
    .rename true 0, .finishMap true, .expire 0, .requeue 0, .sendResult true, .getJob true,
    .startMap true, .rename true 1, .rename true 0, .finishMap true, .sendResult true,
    .getJob false, .getJob true, .startReduce true, .startReduce false, .read true, .read false,
    .read false, .finishReduce false [([97], [[]])], .sendResult false, .read true,
    .finishReduce true [([98], [[], []])], .sendResult true]

open Workers in
theorem done_perm_sequential_recovering :
    ∃ b : (mapReduce Bool tally ["x", "y"] 2 (filesOf [("x", [97, 98]), ("y", [98])])).Behavior,
      (b.state 4).files (intermediateName 0 0) = some (print [⟨[97], []⟩]) ∧
      (b.state 4).files (intermediateName 0 1) = none ∧
      (b.state 29).coordinator.done = true ∧
      (outputLines 2 (b.state 29).files).Perm (lines [97, 32, 49, 10, 98, 32, 49, 49, 10]) := by
  refine ⟨.ofActions _ recovering (by decide +kernel), by decide +kernel, by decide +kernel,
    by decide +kernel, ?_⟩
  refine done_perm_sequential (by decide) ?files ?outputs tally_printable tally_perm _
    ?recounts 29 ?done tally_writes
  case files    => decide +kernel
  case outputs  => decide +kernel
  case recounts => exact System.Behavior.avoids_ofActions (by decide +kernel)
  case done     => decide +kernel

end MapReduce
end Mr
