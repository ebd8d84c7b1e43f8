import DistributedSystems.Mr.Theorems.Worker

-- The workers compare with `mrsequential`.
namespace Mr

variable {c : Client} {inputs : List String} {files : Files} {kvs : List KeyValue} {n : Nat}

namespace Job

-- What all map tasks emit, in the order of the input files.
def emitted (j : Job) : List KeyValue :=
  (List.range j.inputs.length).flatMap j.kva

theorem emitted_cons (c : Client) (input : String) (inputs : List String) (n : Nat)
    (files : Files) :
    emitted ⟨c, input :: inputs, n, files⟩ =
      ((files input).map (c.mapf input)).getD [] ++ emitted ⟨c, inputs, n, files⟩ := by
  rw [emitted, List.length_cons, List.range_succ_eq_map, List.flatMap_cons, List.flatMap_map]
  rfl

-- The reduce task of a key finds all of its values.
theorem collected_eq (j : Job) (b : Nat) :
    j.collected j.inputs.length b =
      (j.emitted.map KeyValue.toPair).filter (ihash ·.fst % j.nReduce = b) := by
  simp only [collected, emitted, bucket, List.filter_map, List.filter_flatMap]
  rfl

end Job

namespace Sequential

theorem intermediate_eq (h : intermediate c files inputs = some kvs) (n : Nat) :
    kvs = Job.emitted ⟨c, inputs, n, files⟩ ∧ ∀ input ∈ inputs, (files input).isSome := by
  induction inputs generalizing kvs
  case nil =>
    cases h
    exact ⟨rfl, nofun⟩
  case cons input inputs hi =>
    simp only [intermediate, Option.bind_eq_bind, Option.bind_eq_some_iff, Option.some.injEq] at h
    obtain ⟨content, hf, rest, hr, rfl⟩ := h
    obtain ⟨rfl, hs⟩ := hi hr
    constructor
    · rw [Job.emitted_cons, hf, Option.map_some, Option.getD_some]
    · simpa [hf] using hs

theorem Writes.exists_isGrouping {text : Bytes} (h : Writes c inputs files text) (n : Nat) :
    ∃ kva : Groups Bytes Bytes, ∃ l, kva.IsGrouping l ∧
      l.Perm ((Job.emitted ⟨c, inputs, n, files⟩).map KeyValue.toPair) ∧
      text = print (c.reduce kva) := by
  have ⟨kvs, sorted, hi, hp, hs, ht⟩ := h
  refine ⟨_, sorted.map KeyValue.toPair, ?grouping, ?perm, ht⟩
  case grouping => exact Groups.runs_isGrouping (r := (· ≤ ·)) (List.pairwise_map.mpr hs)
  case perm     => exact (intermediate_eq hi n).left ▸ hp.map KeyValue.toPair

end Sequential

-- The lines of the files `mr-out-0`, `mr-out-1` and so on.
def outputLines (nReduce : Nat) (files : Files) : List Bytes :=
  (List.range nReduce).flatMap fun taskNumber => lines ((files (outputName taskNumber)).getD [])

theorem outputLines_eq {order : Nat → Groups Bytes Bytes}
    (h : ∀ b < n, files (outputName b) = some (print (c.reduce (order b)))) :
    outputLines n files = lines (print (c.reduce ((List.range n).flatMap order))) := by
  have hl : ∀ b ∈ List.range n, lines ((files (outputName b)).getD []) =
      (c.reduce (order b)).flatMap fun kv => kv.line.splitOn newline := by
    intro b hb
    rw [h b (List.mem_range.mp hb), Option.getD_some, lines_print]
  rw [outputLines, List.flatMap_congr hl, lines_print]
  simp [Client.reduce, List.map_flatMap, List.flatMap_assoc]

theorem lines_reduce_perm {kva kva' : Groups Bytes Bytes} {l l' : List (Bytes × Bytes)}
    (hc : ∀ key values values', values.Perm values' → c.reducef key values = c.reducef key values')
    (h : kva.IsGrouping l) (h' : kva'.IsGrouping l') (hl : l.Perm l') :
    (lines (print (c.reduce kva))).Perm (lines (print (c.reduce kva'))) := by
  rw [lines_print, lines_print]
  refine List.Perm.flatMap_right _ ?_
  exact h.map_perm (fun key _ _ hv => congrArg (KeyValue.mk key) (hc key _ _ hv)) h' hl

namespace Workers

variable {ω : Type} {nReduce : Nat}

-- The files of a job whose reduce tasks have all been executed.
theorem Correct.outputLines_perm {j : Job} {t : Workers ω} {text : Bytes} (h : t.Correct j)
    (hj : j.Regular)
    (hc : ∀ key values values', values.Perm values' →
      j.client.reducef key values = j.client.reducef key values')
    (hr : ∀ b < j.nReduce, b ∈ t.reduced) (ht : Sequential.Writes j.client j.inputs j.files text) :
    (outputLines j.nReduce t.files).Perm (lines text) := by
  have ho b : ∃ order : Groups Bytes Bytes, b < j.nReduce →
      order.IsGrouping (j.collected j.inputs.length b) ∧
        t.files (outputName b) = some (print (j.client.reduce order)) := by
    by_cases hb : b < j.nReduce
    case neg => exact ⟨[], fun hb' => absurd hb' hb⟩
    case pos =>
      have ⟨order, ho⟩ := h.reduced b (hr b hb)
      exact ⟨order, fun _ => ho⟩
  choose order ho using ho
  have hg : Groups.IsGrouping ((List.range j.nReduce).flatMap order)
      (j.emitted.map KeyValue.toPair) :=
    .flatMap (f := (ihash · % j.nReduce)) (fun _ _ => Nat.mod_lt _ hj.nReduce)
      fun b hb => j.collected_eq b ▸ (ho b hb).left
  have ⟨kva, l, hk, hl, hw⟩ := ht.exists_isGrouping j.nReduce
  rw [outputLines_eq fun b hb => (ho b hb).right, hw]
  exact lines_reduce_perm hc hg hk hl.symm

variable [DecidableEq ω]

theorem output_perm_sequential (hn : 0 < nReduce)
    (hf : ∀ index < inputs.length, ∀ bucket < nReduce, files (intermediateName index bucket) = none)
    (hm : ∀ name content, ∀ kv ∈ c.mapf name content, kv.Printable)
    (hc : ∀ key values values', values.Perm values' → c.reducef key values = c.reducef key values')
    (r : (workers ω c inputs nReduce files).Behavior) (i : Nat)
    (hr : ∀ taskNumber < nReduce, taskNumber ∈ (r.state i).reduced)
    {text : Bytes} (ht : Sequential.Writes c inputs files text) :
    (∀ taskNumber < nReduce, ((r.state i).files (outputName taskNumber)).isSome) ∧
      (outputLines nReduce (r.state i).files).Perm (lines text) := by
  let j : Job := ⟨c, inputs, nReduce, files⟩
  have ⟨kvs, _, hi, _⟩ := ht
  have hj : j.Regular := ⟨hn, (Sequential.intermediate_eq hi nReduce).right, hf, hm⟩
  have h := Correct.of_behavior hj r i
  refine ⟨fun b hb => ?_, h.outputLines_perm hj hc hr ht⟩
  have ⟨order, _, hf⟩ := h.reduced b (hr b hb)
  simp [hf]

section Tally

-- Counts how often each byte occurs, in unary.
def tally : Client where
  mapf _ content   := (content.filter fun byte => byte ≠ space ∧ byte ≠ newline).map (⟨[·], []⟩)
  reducef _ values := values.map fun _ => 49

theorem tally_printable (name : String) (content : Bytes) :
    ∀ kv ∈ tally.mapf name content, kv.Printable := by
  intro kv hk
  simp only [tally, ne_eq, decide_not, Bool.decide_and, List.mem_map, List.mem_filter,
    Bool.and_eq_true, Bool.not_eq_eq_eq_not, Bool.not_true, decide_eq_false_iff_not] at hk
  obtain ⟨byte, ⟨_, hs, hn⟩, rfl⟩ := hk
  exact ⟨by simpa using Ne.symm hs, by simpa using Ne.symm hn, nofun⟩

theorem tally_perm (key : Bytes) (values values' : List Bytes) (h : values.Perm values') :
    tally.reducef key values = tally.reducef key values' := by
  simp [tally, h.length_eq]

def filesOf (l : List (String × Bytes)) : Files :=
  fun name => l.lookup name

theorem tally_writes :
    Sequential.Writes tally ["x", "y"] (filesOf [("x", [97, 98]), ("y", [98])])
      [97, 32, 49, 10, 98, 32, 49, 49, 10] := by
  refine ⟨_, [⟨[97], []⟩, ⟨[98], []⟩, ⟨[98], []⟩], rfl, by decide +kernel, by decide +kernel, ?_⟩
  simp [Sequential.scan, Groups.runs, KeyValue.toPair, print, KeyValue.print, Client.reduce, tally,
    space, newline]

-- Both workers execute the first map task, one of them is late with its second bucket and crashes.
def repeated : List (Event Bool) :=
  [.startMap false 0, .startMap true 0, .rename false 0, .rename false 0, .finishMap false,
    .startMap false 1, .rename false 0, .finishMap false, .startReduce false 1, .rename true 1,
    .read false, .read false, .finishReduce false [([98], [[], []])], .crash true,
    .startReduce true 0, .read true, .read true, .finishReduce true [([97], [[]])]]

theorem output_perm_sequential_repeated :
    ∃ r : (workers Bool tally ["x", "y"] 2 (filesOf [("x", [97, 98]), ("y", [98])])).Behavior,
      (∀ taskNumber < 2, ((r.state 18).files (outputName taskNumber)).isSome) ∧
        (outputLines 2 (r.state 18).files).Perm (lines [97, 32, 49, 10, 98, 32, 49, 49, 10]) := by
  refine ⟨.ofActions _ repeated (by decide +kernel), ?_⟩
  refine output_perm_sequential (by decide) ?files tally_printable tally_perm _ 18
    ?reduced tally_writes
  case files   => decide +kernel
  case reduced => decide +kernel

-- The first map task overwrites the input of the second one, which then counts what it finds there.
def named : List (Event Unit) :=
  [.startMap () 0, .rename () 0, .finishMap (), .startMap () 1, .rename () 0, .finishMap (),
    .startReduce () 0, .read (), .read (), .finishReduce () [([98], [[], []])]]

-- The map task writes nothing, so that the reduce task reads a file of an earlier job.
def leftover : List (Event Unit) :=
  [.startMap () 0, .finishMap (), .startReduce () 0, .read (), .finishReduce () [([98], [[]])]]

theorem output_not_perm_sequential :
    (∀ name content, ∀ kv ∈ tally.mapf name content, kv.Printable) ∧
    (∀ key values values', values.Perm values' →
      tally.reducef key values = tally.reducef key values') ∧
    (∃ r : (workers Unit tally ["in", "mr-0-0"] 1
      (filesOf [("in", [98]), ("mr-0-0", [])])).Behavior,
      (∀ taskNumber < 1, taskNumber ∈ (r.state 10).reduced) ∧
      ∃ text, Sequential.Writes tally ["in", "mr-0-0"]
        (filesOf [("in", [98]), ("mr-0-0", [])]) text ∧
        ¬(outputLines 1 (r.state 10).files).Perm (lines text)) ∧
    ∃ r : (workers Unit tally ["in"] 1 (filesOf [("in", []), ("mr-0-0", [98, 32, 10])])).Behavior,
      (∀ taskNumber < 1, taskNumber ∈ (r.state 5).reduced) ∧
      ∃ text, Sequential.Writes tally ["in"] (filesOf [("in", []), ("mr-0-0", [98, 32, 10])]) text ∧
        ¬(outputLines 1 (r.state 5).files).Perm (lines text) := by
  refine ⟨tally_printable, tally_perm, ?named, ?leftover⟩
  case named =>
    refine ⟨.ofActions _ named (by decide +kernel), by decide +kernel, [98, 32, 49, 10], ?_,
      by decide +kernel⟩
    refine ⟨_, [⟨[98], []⟩], rfl, by decide +kernel, by decide +kernel, ?_⟩
    simp [Sequential.scan, Groups.runs, KeyValue.toPair, print, KeyValue.print, Client.reduce,
      tally, space, newline]
  case leftover =>
    refine ⟨.ofActions _ leftover (by decide +kernel), by decide +kernel, [], ?_, by decide +kernel⟩
    refine ⟨_, [], rfl, by decide +kernel, by decide +kernel, ?_⟩
    simp [Sequential.scan, Groups.runs, print, Client.reduce]

end Tally

end Workers

end Mr
