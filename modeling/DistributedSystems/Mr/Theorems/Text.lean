import DistributedSystems.Mr.Worker

namespace Mr

variable {kv : KeyValue} {kvs : List KeyValue} {kva : Groups Bytes Bytes}

namespace KeyValue

-- What can be printed on a line and parsed again.
structure Printable (kv : KeyValue) : Prop where
  space_key     : space ∉ kv.key
  newline_key   : newline ∉ kv.key
  newline_value : newline ∉ kv.value

def line (kv : KeyValue) : Bytes :=
  kv.key ++ space :: kv.value

theorem line_ne_nil (kv : KeyValue) : kv.line ≠ [] :=
  List.append_ne_nil_of_right_ne_nil _ (List.cons_ne_nil _ _)

theorem Printable.newline_line (h : kv.Printable) : newline ∉ kv.line := by
  have hs : newline ≠ space := by decide
  simp [line, hs, h.newline_key, h.newline_value]

theorem Printable.parse_line (h : kv.Printable) : parse kv.line = some kv := by
  have hk : ∀ byte ∈ kv.key, decide (byte ≠ space) = true :=
    fun _ hb => decide_eq_true <| ne_of_mem_of_not_mem hb h.space_key
  have hs : kv.line.span (· ≠ space) = (kv.key, space :: kv.value) := by
    rw [line, List.span_eq_takeWhile_dropWhile, List.takeWhile_append_of_pos hk,
      List.dropWhile_append_of_pos hk]
    simp
  rw [parse, hs]

end KeyValue

theorem print_cons : print (kv :: kvs) = kv.line ++ newline :: print kvs := by
  simp [print, KeyValue.print, KeyValue.line]

-- Keys and values may contain newlines here, these count as well.
theorem splitOn_print (kvs : List KeyValue) :
    (print kvs).splitOn newline = (kvs.flatMap fun kv => kv.line.splitOn newline) ++ [[]] := by
  induction kvs
  case nil           => simp [print]
  case cons kv kvs hi => simp [print_cons, List.splitOn_append_cons_self, hi]

theorem lines_print (kvs : List KeyValue) :
    lines (print kvs) = kvs.flatMap fun kv => kv.line.splitOn newline := by
  simp [lines, splitOn_print]

theorem mapM_parse_line (h : ∀ kv ∈ kvs, kv.Printable) :
    (kvs.map KeyValue.line).mapM KeyValue.parse = some kvs := by
  induction kvs
  case nil => rfl
  case cons kv kvs hi =>
    have ⟨hk, hs⟩ := List.forall_mem_cons.mp h
    simp [List.mapM_cons, hk.parse_line, hi hs]

-- A reduce task gets back what a map task has printed.
theorem addFile_print (h : ∀ kv ∈ kvs, kv.Printable) :
    addFile kva (some (print kvs)) = some (kva.appendAll (kvs.map KeyValue.toPair)) := by
  have hl : (kvs.flatMap fun kv => kv.line.splitOn newline) = kvs.map KeyValue.line := by
    rw [List.map_eq_flatMap]
    exact List.flatMap_congr fun kv hk => List.splitOn_eq_singleton (h kv hk).newline_line
  have hf : ((print kvs).splitOn newline).filter (· ≠ []) = kvs.map KeyValue.line := by
    simp [splitOn_print, hl, List.filter_eq_self, KeyValue.line_ne_nil]
  simp only [addFile, hf, mapM_parse_line h]
  rfl

section Names

variable {i j b b' : Nat}

theorem toDigits_inj (h : Nat.toDigits 10 i = Nat.toDigits 10 j) : i = j := by
  rw [← Nat.ofDigitChars_ten_toDigits (n := i), h, Nat.ofDigitChars_ten_toDigits]

theorem not_mem_toDigits {c : Char} (hc : c.isDigit = false) : c ∉ Nat.toDigits 10 i := by
  intro h
  have hd := Nat.isDigit_of_mem_toDigits (by decide) (by decide) h
  simp [hc] at hd

theorem splitOn_intermediateName :
    (intermediateName i b).toList.splitOn '-' =
      [['m', 'r'], Nat.toDigits 10 i, Nat.toDigits 10 b] := by
  have hn {n} : '-' ∉ Nat.toDigits 10 n := not_mem_toDigits (by decide)
  have hs : (intermediateName i b).toList =
      ['m', 'r'] ++ '-' :: (Nat.toDigits 10 i ++ '-' :: Nat.toDigits 10 b) := by
    simp [intermediateName, toString, Nat.toList_repr]
  rw [hs, List.splitOn_append_cons_self_of_not_mem (by decide),
    List.splitOn_append_cons_self_of_not_mem hn, List.splitOn_eq_singleton hn]

theorem splitOn_outputName :
    (outputName b).toList.splitOn '-' = [['m', 'r'], ['o', 'u', 't'], Nat.toDigits 10 b] := by
  have hn {n} : '-' ∉ Nat.toDigits 10 n := not_mem_toDigits (by decide)
  have hs : (outputName b).toList =
      ['m', 'r'] ++ '-' :: (['o', 'u', 't'] ++ '-' :: Nat.toDigits 10 b) := by
    simp [outputName, toString, Nat.toList_repr]
  rw [hs, List.splitOn_append_cons_self_of_not_mem (by decide),
    List.splitOn_append_cons_self_of_not_mem (by decide), List.splitOn_eq_singleton hn]

theorem intermediateName_inj (h : intermediateName i b = intermediateName j b') :
    i = j ∧ b = b' := by
  have hs := congrArg (·.toList.splitOn '-') h
  simp only [splitOn_intermediateName, List.cons.injEq, true_and, and_true] at hs
  exact ⟨toDigits_inj hs.left, toDigits_inj hs.right⟩

theorem outputName_inj (h : outputName b = outputName b') : b = b' := by
  have hs := congrArg (·.toList.splitOn '-') h
  simp only [splitOn_outputName, List.cons.injEq, true_and, and_true] at hs
  exact toDigits_inj hs

theorem intermediateName_ne_outputName : intermediateName i b ≠ outputName b' := by
  intro h
  have hs := congrArg (·.toList.splitOn '-') h
  simp only [splitOn_intermediateName, splitOn_outputName, List.cons.injEq, true_and] at hs
  have ho : 'o' ∉ Nat.toDigits 10 i := not_mem_toDigits (by decide)
  simp [hs.left] at ho

end Names

end Mr
