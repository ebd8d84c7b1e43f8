import DistributedSystems.Library.Service
import DistributedSystems.Mr.MapReduce
import DistributedSystems.Mr.Theorems.Requeue
import DistributedSystems.Mr.Theorems.Sequential

namespace Mr

variable {i n nReduce : Nat} {inputs : List String} {reported : List FinishJobRequest}

namespace Coordinator

variable {c c' : Coordinator} {reply : GetJobResponse} {args : FinishJobRequest} {task : Task}
  {queue : List Nat}

def pool (c : Coordinator) : FunctionType → Pool
  | .mapTask => c.maps
  | _        => c.reduces

-- The type of the tasks that are handed out.
def phase (c : Coordinator) : FunctionType :=
  if c.maps.finished ≠ c.maps.total then .mapTask else .reduceTask

def task? (c : Coordinator) (args : FinishJobRequest) : Option Task :=
  match args.taskType with
  | .mapTask    => c.maps.tasks[args.taskNumber]?
  | .reduceTask => c.reduces.tasks[args.taskNumber]?
  | .sleepTask  => none

structure Counts (inputs : List String) (nReduce : Nat) (reported : List FinishJobRequest)
    (c : Coordinator) :
    Prop where
  maps    : c.maps.Counts .mapTask inputs.length reported
  reduces : c.reduces.Counts .reduceTask nReduce reported
  files   : ∀ (i : Nat) task, c.maps.tasks[i]? = some task → inputs[i]? = some task.file
  kept    : c.Kept inputs nReduce

namespace Counts

theorem make (inputs : List String) (nReduce : Nat) :
    (make inputs nReduce).Counts inputs nReduce [] where
  maps           := .make _ _
  reduces        := by
    simpa [Coordinator.make] using Pool.Counts.make .reduceTask (.replicate nReduce "")
  files i task h := by
    simp only [Coordinator.make, Pool.make, List.getElem?_mapIdx, Option.map_eq_some_iff] at h
    obtain ⟨file, hi, rfl⟩ := h
    exact hi
  kept           := .make inputs nReduce

-- Whatever happens to a task, it keeps its file.
theorem files_set (h : c.Counts inputs nReduce reported) (hi : c.maps.tasks[i]? = some task)
    {task' : Task} {j : Nat} {task'' : Task} (hj : (c.maps.set i task').tasks[j]? = some task'')
    (hf : task'.file = task.file) :
    inputs[j]? = some task''.file := by
  rcases Pool.getElem?_set_cases hj with ⟨rfl, rfl⟩ | hj
  · exact hf ▸ h.files i task hi
  · exact h.files j task'' hj

theorem gives (h : c.Counts inputs nReduce reported) (hg : c.getJob = some (c', reply)) :
    c'.Counts inputs nReduce reported := by
  have hk := h.kept.getJob hg
  obtain ⟨rfl, _⟩ | hx := getJob_gives hg
  case inl => exact h
  case inr =>
    cases hx
    case map hf hq ht =>
      exact {
        maps    := h.maps.set _ (by simp)
        reduces := h.reduces
        files   := fun j task' hj => h.files_set ht hj rfl
        kept    := hk
      }
    case reduce hf hq ht =>
      exact { maps := h.maps, reduces := h.reduces.set _ (by simp), files := h.files, kept := hk }

theorem onJobFinish (h : c.Counts inputs nReduce reported) (hu : c.onJobFinish args = some c')
    (hr : args ∈ reported → (c.task? args).map Task.state = some .done)
    (hs : args.taskType ≠ .sleepTask) :
    c'.Counts inputs nReduce (args :: reported) := by
  have hk := h.kept.onJobFinish hu
  obtain ⟨taskNumber, taskType⟩ := args
  obtain ⟨rfl, maps, hf, rfl⟩ | ⟨rfl, reduces, hf, rfl⟩ | ⟨rfl, rfl⟩ := update_cases hu
  case inl =>
    have hm := h.maps.finish hf hr
    obtain ⟨task, ht, hf⟩ := Option.bind_eq_some_iff.mp hf
    cases hf
    exact {
      maps    := hm
      reduces := h.reduces.cons_of_ne (by simp)
      files   := fun j task' hj => h.files_set ht hj rfl
      kept    := hk
    }
  case inr.inl =>
    exact { maps := h.maps.cons_of_ne (by simp), reduces := h.reduces.finish hf hr,
            files := h.files, kept := hk }
  case inr.inr => exact absurd rfl hs

theorem expire (h : c.Counts inputs nReduce reported) (hn : c.next (.expire n) = some c') :
    c'.Counts inputs nReduce reported := by
  have hk := h.kept.next hn
  have ⟨timer, _, hn⟩ := Option.bind_eq_some_iff.mp hn
  split_ifs at hn
  cases hn
  exact { maps := h.maps, reduces := h.reduces, files := h.files, kept := hk }

theorem requeue (h : c.Counts inputs nReduce reported) (hn : c.next (.requeue n) = some c') :
    c'.Counts inputs nReduce reported := by
  have hk := h.kept.next hn
  have ⟨timer, _, hn⟩ := Option.bind_eq_some_iff.mp hn
  split_ifs at hn
  rw [Coordinator.requeue] at hn
  obtain ⟨_, maps, hf, rfl⟩ | ⟨_, reduces, hf, rfl⟩ | ⟨_, rfl⟩ := update_cases hn
  case inl =>
    have hm := h.maps.requeue hf
    obtain ⟨task, ht, hf⟩ := Option.bind_eq_some_iff.mp hf
    split_ifs at hf <;> cases hf
    case pos =>
      exact { maps := hm, reduces := h.reduces, files := fun j task' hj => h.files_set ht hj rfl,
              kept := hk }
    case neg => exact { maps := hm, reduces := h.reduces, files := h.files, kept := hk }
  case inr.inl =>
    exact { maps := h.maps, reduces := h.reduces.requeue hf, files := h.files, kept := hk }
  case inr.inr => exact { maps := h.maps, reduces := h.reduces, files := h.files, kept := hk }

end Counts
end Coordinator
end Mr
