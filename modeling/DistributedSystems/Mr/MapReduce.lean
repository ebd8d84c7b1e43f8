import DistributedSystems.Mr.Coordinator
import DistributedSystems.Mr.Worker

-- Package `mr` as a whole: the coordinator, the workers in the loop of `Run`, and their directory.
namespace Mr

inductive Process
  -- It calls `GetJob`, after a while if it has been told to sleep.
  | idle
  | received (response : GetJobResponse)
  -- The buckets that have not been written yet.
  | mapping (response : GetJobResponse) (fileToPairs : Groups Nat KeyValue)
  -- The index of the file that is read next.
  | reducing (response : GetJobResponse) (index : Nat) (kva : Groups Bytes Bytes)
  | finished (result : FinishJobRequest)

structure MapReduce (ω : Type) where
  coordinator : Coordinator
  files       : Files
  process     : ω → Process
  -- What the coordinator has been told.
  reported    : List FinishJobRequest

namespace MapReduce

inductive Event (ω : Type)
  | getJob (w : ω)
  -- The input file is read and mapped.
  | startMap (w : ω)
  -- The `k`-th of the remaining buckets is written and gets its name.
  | rename (w : ω) (k : Nat)
  | finishMap (w : ω)
  | startReduce (w : ω)
  | read (w : ω)
  -- The iteration over a map goes through its keys in any order.
  | finishReduce (w : ω) (order : Groups Bytes Bytes)
  | sendResult (w : ω)
  -- The process stops, or gives up a task as a call has failed. It may be started again.
  | crash (w : ω)
  | expire (n : Nat)
  | requeue (n : Nat)

variable {ω : Type} [DecidableEq ω]

def set (s : MapReduce ω) (w : ω) (process : Process) : MapReduce ω :=
  { s with process := Function.update s.process w process }

def write (s : MapReduce ω) (name : String) (content : Bytes) : MapReduce ω :=
  { s with files := Function.update s.files name (some content) }

def result (response : GetJobResponse) : FinishJobRequest where
  taskNumber := response.taskNumber
  taskType   := response.taskType

def next (c : Client) (s : MapReduce ω) : Event ω → Option (MapReduce ω)
  | .getJob w =>
    match s.process w with
    | .idle => do
      let (coordinator, response) ← s.coordinator.getJob
      let process := if response.taskType = .sleepTask then .idle else .received response
      some ({ s with coordinator }.set w process)
    | _ => none
  | .startMap w =>
    match s.process w with
    | .received response =>
      if response.taskType = .mapTask then do
        let content ← s.files response.input
        some (s.set w
          (.mapping response (fileToPairs response.buckets (c.mapf response.input content))))
      else
        none
    | _ => none
  | .rename w k =>
    match s.process w with
    | .mapping response buckets => do
      let (bucket, pairs) ← buckets[k]?
      let s := s.write (intermediateName response.taskNumber bucket) (print pairs)
      some (s.set w (.mapping response (buckets.eraseIdx k)))
    | _ => none
  | .finishMap w =>
    match s.process w with
    | .mapping response [] => some (s.set w (.finished (result response)))
    | _                    => none
  | .startReduce w =>
    match s.process w with
    | .received response =>
      if response.taskType = .reduceTask then some (s.set w (.reducing response 0 [])) else none
    | _ => none
  | .read w =>
    match s.process w with
    | .reducing response index kva =>
      if index < response.maps then do
        let kva ← addFile kva (s.files (intermediateName index response.taskNumber))
        some (s.set w (.reducing response (index + 1) kva))
      else
        none
    | _ => none
  | .finishReduce w order =>
    match s.process w with
    | .reducing response index kva =>
      if index = response.maps ∧ order.Perm kva then
        let s := s.write (outputName response.taskNumber) (print (c.reduce order))
        some (s.set w (.finished (result response)))
      else
        none
    | _ => none
  | .sendResult w =>
    match s.process w with
    | .finished args => do
      let coordinator ← s.coordinator.onJobFinish args
      some ({ s with coordinator, reported := args :: s.reported }.set w .idle)
    | _ => none
  | .crash w   => some (s.set w .idle)
  | .expire n  => (s.coordinator.next (.expire n)).map fun coordinator => { s with coordinator }
  | .requeue n => (s.coordinator.next (.requeue n)).map fun coordinator => { s with coordinator }

end MapReduce

def mapReduce (ω : Type) [DecidableEq ω] (c : Client) (inputs : List String) (nReduce : Nat)
    (files : Files) : System (MapReduce ω) (MapReduce.Event ω) where
  init := ⟨.make inputs nReduce, files, fun _ => .idle, []⟩
  next := MapReduce.next c

end Mr
