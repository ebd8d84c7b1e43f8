import DistributedSystems.Library.Behavior
import DistributedSystems.Library.Grouping

-- The tasks of package `mr` as its workers execute them, and the program `mrsequential`.
namespace Mr

-- Strings of the source and contents of files.
abbrev Bytes :=
  List UInt8

def bytes (text : String) : Bytes :=
  text.toUTF8.data.toList

def space : UInt8 :=
  32

def newline : UInt8 :=
  10

structure KeyValue where
  key   : Bytes
  value : Bytes
  deriving DecidableEq

namespace KeyValue

def toPair (kv : KeyValue) : Bytes × Bytes :=
  (kv.key, kv.value)

-- The format `%v %v\n`.
def print (kv : KeyValue) : Bytes :=
  kv.key ++ space :: (kv.value ++ [newline])

-- `SplitN` cuts the line at its first space. A line without a space has no second part, for which
-- the worker panics.
def parse (pair : Bytes) : Option KeyValue :=
  match pair.span (· ≠ space) with
  | (key, _ :: value) => some ⟨key, value⟩
  | (_, [])           => none

end KeyValue

def print (kvs : List KeyValue) : Bytes :=
  kvs.flatMap KeyValue.print

-- A line ends with a newline.
def lines (text : Bytes) : List Bytes :=
  (text.splitOn newline).dropLast

-- FNV-1a with 32 bits, without the sign bit of an `int`.
def ihash (key : Bytes) : Nat :=
  let sum : UInt32 := key.foldl (fun hash byte => (hash ^^^ byte.toUInt32) * 16777619) 2166136261
  (sum &&& 0x7fffffff).toNat

abbrev Files :=
  String → Option Bytes

def intermediateName (index bucket : Nat) : String :=
  s!"mr-{index}-{bucket}"

def outputName (taskNumber : Nat) : String :=
  s!"mr-out-{taskNumber}"

structure Client where
  mapf    : String → Bytes → List KeyValue
  reducef : Bytes → List Bytes → Bytes

-- The map from buckets to pairs that `runMapFunction` builds.
def fileToPairs (buckets : Nat) (kva : List KeyValue) : Groups Nat KeyValue :=
  Groups.appendAll [] (kva.map fun kv => (ihash kv.key % buckets, kv))

-- What `runReduceFunction` makes of the next file. A file that does not exist is skipped.
def addFile (kva : Groups Bytes Bytes) : Option Bytes → Option (Groups Bytes Bytes)
  | none         => some kva
  | some content => do
    let pairs ← ((content.splitOn newline).filter (· ≠ [])).mapM KeyValue.parse
    some (kva.appendAll (pairs.map KeyValue.toPair))

def Client.reduce (c : Client) (kva : Groups Bytes Bytes) : List KeyValue :=
  kva.map fun group => ⟨group.fst, c.reducef group.fst group.snd⟩

-- The map function of the application `earlyexit`.
def Earlyexit.map (filename : String) (_contents : Bytes) : List KeyValue :=
  [⟨bytes filename, bytes "1"⟩]

inductive Worker
  | idle
  -- The buckets that have not been written yet.
  | mapping (taskNumber : Nat) (fileToPairs : Groups Nat KeyValue)
  -- The index of the file that is read next.
  | reducing (taskNumber index : Nat) (kva : Groups Bytes Bytes)

structure Workers (ω : Type) where
  files    : Files
  worker   : ω → Worker
  -- The tasks that have been executed at least once.
  mapped   : List Nat
  reduced  : List Nat
  -- Some reduce task has been started.
  reducing : Bool

namespace Workers

inductive Event (ω : Type)
  | startMap (w : ω) (taskNumber : Nat)
  -- The `k`-th of the remaining buckets is written and gets its name.
  | rename (w : ω) (k : Nat)
  | finishMap (w : ω)
  | startReduce (w : ω) (taskNumber : Nat)
  | read (w : ω)
  -- The iteration over a map goes through its keys in any order.
  | finishReduce (w : ω) (order : Groups Bytes Bytes)
  | crash (w : ω)

variable {ω : Type} [DecidableEq ω]

def set (s : Workers ω) (w : ω) (worker : Worker) : Workers ω :=
  { s with worker := Function.update s.worker w worker }

def write (s : Workers ω) (name : String) (content : Bytes) : Workers ω :=
  { s with files := Function.update s.files name (some content) }

-- Map tasks are executed before reduce tasks: none is started after the first reduce task, and each
-- one has been finished by then. A second execution of a map task may still be running.
def next (c : Client) (inputs : List String) (nReduce : Nat) (s : Workers ω) :
    Event ω → Option (Workers ω)
  | .startMap w taskNumber =>
    match s.worker w, s.reducing with
    | .idle, false => do
      let input ← inputs[taskNumber]?
      let content ← s.files input
      some (s.set w (.mapping taskNumber (fileToPairs nReduce (c.mapf input content))))
    | _, _ => none
  | .rename w k =>
    match s.worker w with
    | .mapping taskNumber buckets => do
      let (bucket, pairs) ← buckets[k]?
      let s := s.write (intermediateName taskNumber bucket) (print pairs)
      some (s.set w (.mapping taskNumber (buckets.eraseIdx k)))
    | _ => none
  | .finishMap w =>
    match s.worker w with
    | .mapping taskNumber [] => some ({ s with mapped := taskNumber :: s.mapped }.set w .idle)
    | _                      => none
  | .startReduce w taskNumber =>
    match s.worker w with
    | .idle =>
      if taskNumber < nReduce ∧ ∀ index < inputs.length, index ∈ s.mapped then
        some ({ s with reducing := true }.set w (.reducing taskNumber 0 []))
      else
        none
    | _ => none
  | .read w =>
    match s.worker w with
    | .reducing taskNumber index kva =>
      if index < inputs.length then do
        let kva ← addFile kva (s.files (intermediateName index taskNumber))
        some (s.set w (.reducing taskNumber (index + 1) kva))
      else
        none
    | _ => none
  | .finishReduce w order =>
    match s.worker w with
    | .reducing taskNumber index kva =>
      if index = inputs.length ∧ order.Perm kva then
        let s := s.write (outputName taskNumber) (print (c.reduce order))
        some ({ s with reduced := taskNumber :: s.reduced }.set w .idle)
      else
        none
    | _ => none
  | .crash w => some (s.set w .idle)

end Workers

-- The workers of a job, which share a directory.
def workers (ω : Type) [DecidableEq ω] (c : Client) (inputs : List String) (nReduce : Nat)
    (files : Files) : System (Workers ω) (Workers.Event ω) where
  init := ⟨files, fun _ => .idle, [], [], false⟩
  next := Workers.next c inputs nReduce

namespace Sequential

-- The loop over the input files. Without one of the files the program stops.
def intermediate (c : Client) (files : Files) : List String → Option (List KeyValue)
  | []                 => some []
  | filename :: inputs => do
    let content ← files filename
    let rest ← intermediate c files inputs
    some (c.mapf filename content ++ rest)

-- The loop over the sorted pairs.
def scan (c : Client) (sorted : List KeyValue) : List KeyValue :=
  c.reduce (Groups.runs (sorted.map KeyValue.toPair))

-- The results of `mrsequential`. `Sort` may leave pairs of the same key in any order.
def Writes (c : Client) (inputs : List String) (files : Files) (text : Bytes) : Prop :=
  ∃ kvs sorted, intermediate c files inputs = some kvs ∧ sorted.Perm kvs ∧
    sorted.Pairwise (fun kv kv' => kv.key ≤ kv'.key) ∧ text = print (scan c sorted)

end Sequential

end Mr
