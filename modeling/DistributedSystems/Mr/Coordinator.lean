import DistributedSystems.Library.Behavior

-- The coordinator of package `mr`, and the workers as far as it knows them.
namespace Mr

inductive FunctionType
  | mapTask
  | reduceTask
  | sleepTask
  deriving DecidableEq

structure GetJobResponse where
  taskType   : FunctionType
  taskNumber : Nat
  buckets    : Nat
  maps       : Nat
  input      : String
  deriving DecidableEq

structure FinishJobRequest where
  taskNumber : Nat
  taskType   : FunctionType
  deriving DecidableEq

inductive TaskState
  | idle
  | inProgress
  | done
  deriving DecidableEq

structure Task where
  state      : TaskState
  taskNumber : Nat
  file       : String
  -- Its last timer, as an index of the coordinator's timers.
  timer      : Option Nat

inductive TimerState
  | running
  -- The goroutine that waits for the timer has been woken up, it needs the mutex now.
  | expired
  | stopped
  | finished
  deriving DecidableEq

-- A timer with the goroutine that requeues the task.
structure Timer where
  taskType  : FunctionType
  taskIndex : Nat
  state     : TimerState
  deriving DecidableEq

-- `Stop` has no effect on a timer that has expired.
def Timer.stop (timer : Timer) : Timer :=
  if timer.state = .running then { timer with state := .stopped } else timer

-- The tasks of one type with their queue, which has room for `total` tasks.
structure Pool where
  queue    : List Nat
  tasks    : List Task
  total    : Nat
  finished : Nat

namespace Pool

-- Only map tasks have a file.
def make (files : List String) : Pool where
  queue    := List.range files.length
  tasks    := files.mapIdx fun index file => ⟨.idle, index, file, none⟩
  total    := files.length
  finished := 0

def set (pool : Pool) (index : Nat) (task : Task) : Pool :=
  { pool with tasks := pool.tasks.set index task }

-- The first task of the queue with its index. An index without a task panics.
def receive (pool : Pool) : Option (Pool × Option (Nat × Task)) :=
  match pool.queue with
  | []                 => some (pool, none)
  | taskIndex :: queue => do
    let task ← pool.tasks[taskIndex]?
    some ({ pool with queue }, some (taskIndex, task))

def finish (pool : Pool) (taskNumber : Nat) : Option Pool := do
  let task ← pool.tasks[taskNumber]?
  let finished := if task.state ≠ .done then pool.finished + 1 else pool.finished
  some ({ pool with finished }.set taskNumber { task with state := .done })

-- Sending to a queue that is full blocks the goroutine, which has the mutex.
def requeue (pool : Pool) (taskIndex : Nat) : Option Pool := do
  let task ← pool.tasks[taskIndex]?
  if task.state ≠ .done then
    if pool.queue.length < pool.total then
      some ({ pool with queue := pool.queue ++ [taskIndex] }.set taskIndex { task with
        state := .idle })
    else
      none
  else
    some pool

end Pool

structure Coordinator where
  maps    : Pool
  reduces : Pool
  timers  : List Timer

namespace Coordinator

def make (files : List String) (nReduce : Nat) : Coordinator where
  maps    := .make files
  reduces := .make (.replicate nReduce "")
  timers  := []

def done (c : Coordinator) : Bool :=
  c.reduces.finished = c.reduces.total

def update (c : Coordinator) (f : Pool → Option Pool) : FunctionType → Option Coordinator
  | .mapTask    => (f c.maps).map fun maps => { c with maps }
  | .reduceTask => (f c.reduces).map fun reduces => { c with reduces }
  | .sleepTask  => some c

-- The timers after `scheduleRequeueLocked`, the new timer is the last one.
def scheduleRequeueLocked (c : Coordinator) (taskType : FunctionType) (taskIndex : Nat)
    (task : Task) :
    List Timer :=
  let timers := task.timer.elim c.timers fun timer => c.timers.modify timer .stop
  timers ++ [⟨taskType, taskIndex, .running⟩]

-- The task has been received from the queue.
def start (c : Coordinator) (pool : Pool) (taskType : FunctionType) (taskIndex : Nat)
    (task : Task) :
    Pool × List Timer :=
  let timers := c.scheduleRequeueLocked taskType taskIndex task
  (pool.set taskIndex { task with state := .inProgress, timer := some (timers.length - 1) }, timers)

def sleep : GetJobResponse where
  taskType   := .sleepTask
  taskNumber := 0
  buckets    := 0
  maps       := 0
  input      := ""

def getJob (c : Coordinator) : Option (Coordinator × GetJobResponse) := do
  if c.maps.finished ≠ c.maps.total then
    let (maps, received) ← c.maps.receive
    match received with
    | none => some (c, sleep)
    | some (taskIndex, task) =>
      let (maps, timers) := c.start maps .mapTask taskIndex task
      let reply := ⟨.mapTask, task.taskNumber, c.reduces.total, 0, task.file⟩
      some ({ c with maps, timers }, reply)
  else
    let (reduces, received) ← c.reduces.receive
    match received with
    | none => some (c, sleep)
    | some (taskIndex, task) =>
      let (reduces, timers) := c.start reduces .reduceTask taskIndex task
      let reply := ⟨.reduceTask, task.taskNumber, c.reduces.total, c.maps.total, ""⟩
      some ({ c with reduces, timers }, reply)

def onJobFinish (c : Coordinator) (args : FinishJobRequest) : Option Coordinator :=
  c.update (Pool.finish · args.taskNumber) args.taskType

-- The goroutine of a timer that has expired.
def requeue (c : Coordinator) (n : Nat) (timer : Timer) : Option Coordinator :=
  let timers := c.timers.set n { timer with state := .finished }
  { c with timers }.update (Pool.requeue · timer.taskIndex) timer.taskType

-- What happens to a coordinator: calls of its methods, whoever makes them, and its timers.
inductive Call
  | getJob
  | onJobFinish (args : FinishJobRequest)
  | expire (n : Nat)
  | requeue (n : Nat)
  deriving DecidableEq

def next (c : Coordinator) : Call → Option Coordinator
  | .getJob           => c.getJob.map Prod.fst
  | .onJobFinish args => c.onJobFinish args
  | .expire n         => do
    let timer ← c.timers[n]?
    if timer.state = .running then
      some { c with timers := c.timers.set n { timer with state := .expired } }
    else
      none
  | .requeue n        => do
    let timer ← c.timers[n]?
    if timer.state = .expired then
      c.requeue n timer
    else
      none

end Coordinator

def coordinator (files : List String) (nReduce : Nat) : System Coordinator Coordinator.Call where
  init := .make files nReduce
  next := Coordinator.next

-- The coordinator together with its workers, which only report what they have been given.
structure State where
  coordinator : Coordinator
  -- What the workers have been given and have not reported yet.
  assigned    : List FinishJobRequest
  reported    : List FinishJobRequest

inductive Event
  | getJob
  -- A worker reports the `k`-th of the assigned tasks.
  | onJobFinish (k : Nat)
  | expire (n : Nat)
  | requeue (n : Nat)
  deriving DecidableEq

namespace State

def next (s : State) : Event → Option State
  | .getJob => do
    let (coordinator, reply) ← s.coordinator.getJob
    if reply.taskType = .sleepTask then
      some { s with coordinator }
    else
      some { s with coordinator, assigned := s.assigned ++ [⟨reply.taskNumber, reply.taskType⟩] }
  | .onJobFinish k => do
    let args ← s.assigned[k]?
    let coordinator ← s.coordinator.onJobFinish args
    some ⟨coordinator, s.assigned.eraseIdx k, args :: s.reported⟩
  | .expire n  => (s.coordinator.next (.expire n)).map fun coordinator => { s with coordinator }
  | .requeue n => (s.coordinator.next (.requeue n)).map fun coordinator => { s with coordinator }

end State

def job (files : List String) (nReduce : Nat) : System State Event where
  init := ⟨.make files nReduce, [], []⟩
  next := State.next

end Mr
