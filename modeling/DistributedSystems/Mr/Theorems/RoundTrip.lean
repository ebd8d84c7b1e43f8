import DistributedSystems.Mr.Theorems.Text

-- What a reduce task gets back of what a map task has printed. Nothing is escaped in the text, so
-- that it depends on the keys and values.
namespace Mr

variable {kv : KeyValue} {kvs pairs : List KeyValue} {kva : Groups Bytes Bytes} {line : Bytes}

theorem not_mem_of_mem_splitOn {byte : UInt8} {text : Bytes}
    (h : line ∈ text.splitOn byte) : byte ∉ line := by
  induction text generalizing line
  case nil =>
    simp only [List.splitOn_nil, List.mem_singleton] at h
    simp [h]
  case cons byte' text hi =>
    rw [List.splitOn_cons_eq_if_modifyHead] at h
    split_ifs at h with he
    case pos =>
      cases h
      case head   => simp
      case tail h => exact hi h
    case neg =>
      cases hs : text.splitOn byte
      case nil => exact absurd hs (List.splitOn_ne_nil _ _)
      case cons line' rest =>
        rw [hs] at hi
        rw [hs, List.modifyHead_cons] at h
        cases h
        case tail h => exact hi (List.mem_cons_of_mem _ h)
        case head =>
          rw [List.mem_cons, not_or]
          exact ⟨fun hb => he (by simp [hb]), hi List.mem_cons_self⟩

namespace KeyValue

theorem parse_eq_some (h : parse line = some kv) : line = kv.line ∧ space ∉ kv.key := by
  rw [parse, List.span_eq_takeWhile_dropWhile] at h
  split at h
  case h_2 => cases h
  case h_1 key byte value hs =>
    cases h
    obtain ⟨rfl, hd⟩ := Prod.mk.inj hs
    have hb : byte = space := by
      have hh := List.head?_dropWhile_not (· ≠ space) line
      rw [hd] at hh
      simpa using hh
    constructor
    case left =>
      have hl := List.takeWhile_append_dropWhile (p := (· ≠ space)) (l := line)
      rw [hd, hb] at hl
      exact hl.symm
    case right =>
      intro hm
      simpa using List.mem_takeWhile_imp hm

-- The parser only ever finds pairs that can be printed.
theorem printable_of_parse (h : parse line = some kv) (hl : newline ∉ line) : kv.Printable := by
  have ⟨he, hs⟩ := parse_eq_some h
  rw [he, KeyValue.line, List.mem_append, not_or, List.mem_cons, not_or] at hl
  exact { space_key := hs, newline_key := hl.left, newline_value := hl.right.right }

theorem toPair_injective : Function.Injective toPair := by
  rintro ⟨_, _⟩ ⟨_, _⟩ h
  cases h
  rfl

end KeyValue

theorem exists_of_mem_mapM {lines : List Bytes} (h : lines.mapM KeyValue.parse = some pairs)
    (hk : kv ∈ pairs) :
    ∃ line ∈ lines, KeyValue.parse line = some kv := by
  induction lines generalizing pairs
  case nil =>
    cases h
    cases hk
  case cons line lines hi =>
    rw [List.mapM_cons] at h
    obtain ⟨kv', hl, h⟩ := Option.bind_eq_some_iff.mp h
    obtain ⟨pairs', hls, h⟩ := Option.bind_eq_some_iff.mp h
    cases h
    cases hk
    case head => exact ⟨line, List.mem_cons_self, hl⟩
    case tail hk =>
      obtain ⟨line', hm, hp⟩ := hi hls hk
      exact ⟨line', List.mem_cons_of_mem _ hm, hp⟩

theorem addFile_eq_some {content : Bytes} {kva' : Groups Bytes Bytes}
    (h : addFile kva (some content) = some kva') :
    ∃ pairs : List KeyValue, (∀ kv ∈ pairs, kv.Printable) ∧
    kva' = kva.appendAll (pairs.map KeyValue.toPair) := by
  have ⟨pairs, hp, h⟩ := Option.bind_eq_some_iff.mp h
  cases h
  refine ⟨pairs, fun kv hk => ?_, rfl⟩
  have ⟨line, hm, hl⟩ := exists_of_mem_mapM hp hk
  exact KeyValue.printable_of_parse hl (not_mem_of_mem_splitOn (List.mem_of_mem_filter hm))

-- What has been printed is read without a panic, and each key gets its values in their order.
def RoundTrips (kvs : List KeyValue) : Prop :=
  ∃ kva, addFile [] (some (print kvs)) = some kva ∧ Groups.IsGrouping kva (kvs.map KeyValue.toPair)

theorem RoundTrips.printable (h : RoundTrips kvs) : ∀ kv ∈ kvs, kv.Printable := by
  intro kv hk
  have ⟨kva, ha, hg⟩ := h
  obtain ⟨pairs, hp, rfl⟩ := addFile_eq_some ha
  -- The groups that have been read are those of the pairs which the parser has found.
  have hg' := Groups.IsGrouping.nil.appendAll (pairs.map KeyValue.toPair)
  have hv : kv.value ∈ Groups.values (kvs.map KeyValue.toPair) kv.key :=
    Groups.mem_values.mpr (List.mem_map_of_mem hk)
  rw [hg.values_eq hg', List.nil_append, Groups.mem_values] at hv
  have ⟨kv', hk', he⟩ := List.mem_map.mp hv
  exact KeyValue.toPair_injective he ▸ hp kv' hk'

theorem roundTrips_iff (kvs : List KeyValue) : RoundTrips kvs ↔ ∀ kv ∈ kvs, kv.Printable where
  mp h  := h.printable
  mpr h := ⟨_, addFile_print h, Groups.IsGrouping.nil.appendAll _⟩

-- The name of an input file becomes a key and a value, and a value with a newline makes the worker
-- panic.
theorem not_roundTrips_earlyexit :
    addFile [] (some (print (Earlyexit.map "pg tom.txt" []))) =
      some [(bytes "pg", [bytes "tom.txt 1"])] ∧
    ¬RoundTrips (Earlyexit.map "pg tom.txt" []) ∧
    addFile [] (some (print [⟨bytes "pg", bytes "1\n2"⟩])) = none ∧
    ¬RoundTrips [⟨bytes "pg", bytes "1\n2"⟩] := by
  refine ⟨by decide, fun h => ?space, by decide, fun h => ?newline⟩
  case space   => exact (h.printable _ List.mem_cons_self).space_key (by decide)
  case newline => exact (h.printable _ List.mem_cons_self).newline_value (by decide)

end Mr
