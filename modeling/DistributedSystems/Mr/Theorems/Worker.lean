import DistributedSystems.Mr.Theorems.Text

namespace Mr

-- What the map and reduce tasks of a job are about.
structure Job where
  client  : Client
  inputs  : List String
  nReduce : Nat
  files   : Files

namespace Job

variable {j : Job} {i b : Nat} {pairs : List KeyValue}

def kva (j : Job) (i : Nat) : List KeyValue :=
  ((j.inputs[i]?).bind fun input => (j.files input).map (j.client.mapf input)).getD []

-- What the file `mr-i-b` is supposed to contain.
def bucket (j : Job) (i b : Nat) : List KeyValue :=
  (j.kva i).filter (ihash ·.key % j.nReduce = b)

-- What the first `n` files contain for a reduce task.
def collected (j : Job) (n b : Nat) : List (Bytes × Bytes) :=
  ((List.range n).flatMap (j.bucket · b)).map KeyValue.toPair

structure Regular (j : Job) : Prop where
  nReduce   : 0 < j.nReduce
  inputs    : ∀ input ∈ j.inputs, (j.files input).isSome
  files     : ∀ i < j.inputs.length, ∀ b < j.nReduce, j.files (intermediateName i b) = none
  printable : ∀ name content, ∀ kv ∈ j.client.mapf name content, kv.Printable

theorem Regular.bucket_printable (hj : j.Regular) : ∀ kv ∈ j.bucket i b, kv.Printable := by
  intro kv hk
  have hk := List.mem_of_mem_filter hk
  rw [kva] at hk
  cases hi : j.inputs[i]? <;> simp only [hi, Option.bind_none, Option.bind_some] at hk
  case none => simp at hk
  case some input =>
    cases hf : j.files input <;> simp only [hf, Option.map_none, Option.map_some] at hk
    case none         => simp at hk
    case some content => exact hj.printable _ _ _ hk

theorem Regular.input_ne (hj : j.Regular) (hi : i < j.inputs.length) (hb : b < j.nReduce) :
    intermediateName i b ∉ j.inputs := by
  intro h
  simpa [hj.files i hi b hb] using hj.inputs _ h

theorem kva_eq {input : String} {content : Bytes} (hi : j.inputs[i]? = some input)
    (hf : j.files input = some content) : j.kva i = j.client.mapf input content := by
  simp [kva, hi, hf]

theorem mem_fileToPairs :
    (b, pairs) ∈ fileToPairs j.nReduce (j.kva i) ↔ pairs ≠ [] ∧ pairs = j.bucket i b := by
  have h := Groups.IsGrouping.nil.appendAll ((j.kva i).map fun kv => (ihash kv.key % j.nReduce, kv))
  rw [fileToPairs, h.mem, List.nil_append, Groups.values_map, bucket]

theorem Regular.lt_of_mem_bucket (hj : j.Regular) {kv : KeyValue} (h : kv ∈ j.bucket i b) :
    b < j.nReduce := by
  have h := (List.mem_filter.mp h).right
  rw [← of_decide_eq_true h]
  exact Nat.mod_lt _ hj.nReduce

theorem collected_succ {n : Nat} :
    j.collected (n + 1) b = j.collected n b ++ (j.bucket n b).map KeyValue.toPair := by
  simp [collected, List.range_succ]

end Job

namespace Workers

variable {ω : Type} {j : Job} {s s' : Workers ω} {i b : Nat} {f f' : Files}

theorem write_self (s : Workers ω) (name : String) (content : Bytes) :
    (s.write name content).files name = some content :=
  Function.update_self ..

theorem write_of_ne (s : Workers ω) {name name' : String} (h : name' ≠ name) (content : Bytes) :
    (s.write name content).files name' = s.files name' :=
  Function.update_of_ne h ..

-- The file of a bucket has been written. Empty buckets have no file.
def Written (j : Job) (f : Files) (i b : Nat) : Prop :=
  f (intermediateName i b) = some (print (j.bucket i b))

def Works (j : Job) (f : Files) (reducing : Bool) : Worker → Prop
  | .idle            => True
  | .mapping i rest  =>
    i < j.inputs.length ∧ (∀ g ∈ rest, g.fst < j.nReduce ∧ g.snd = j.bucket i g.fst) ∧
      ∀ b, j.bucket i b ≠ [] → (∃ g ∈ rest, g.fst = b) ∨ Written j f i b
  | .reducing b i kva => b < j.nReduce ∧ reducing = true ∧ kva.IsGrouping (j.collected i b)

structure Correct (j : Job) (s : Workers ω) : Prop where
  inputs   : s.reducing = false → ∀ input ∈ j.inputs, s.files input = j.files input
  files    : ∀ i < j.inputs.length, ∀ b < j.nReduce,
    s.files (intermediateName i b) = none ∨ Written j s.files i b
  worker   : ∀ w, Works j s.files s.reducing (s.worker w)
  mapped   : ∀ i ∈ s.mapped, ∀ b, j.bucket i b ≠ [] → Written j s.files i b
  reducing : s.reducing = true → ∀ i < j.inputs.length, i ∈ s.mapped
  reduced  : ∀ b ∈ s.reduced, ∃ order : Groups Bytes Bytes,
    order.IsGrouping (j.collected j.inputs.length b) ∧
      s.files (outputName b) = some (print (j.client.reduce order))

theorem Works.mono {r r' : Bool} {worker : Worker} (h : Works j f r worker)
    (hf : ∀ i b, Written j f i b → Written j f' i b) (hr : r = true → r' = true) :
    Works j f' r' worker := by
  cases worker
  case idle => trivial
  case mapping i rest =>
    have ⟨hi, hg, hb⟩ := h
    exact ⟨hi, hg, fun b hn => (hb b hn).imp_right (hf i b)⟩
  case reducing b i kva =>
    have ⟨hb, hi, hk⟩ := h
    exact ⟨hb, hr hi, hk⟩

theorem Works.idle {r : Bool} : Works j f r .idle :=
  trivial

theorem Works.startMap {r : Bool} (hj : j.Regular) (hi : i < j.inputs.length) :
    Works j f r (.mapping i (fileToPairs j.nReduce (j.kva i))) := by
  refine ⟨hi, ?_, ?_⟩
  · rintro ⟨b, pairs⟩ hg
    have ⟨hn, hb⟩ := Job.mem_fileToPairs.mp hg
    have ⟨kv, hk⟩ := List.exists_mem_of_ne_nil _ hn
    exact ⟨hj.lt_of_mem_bucket (hb ▸ hk), hb⟩
  · intro b hn
    exact .inl ⟨(b, j.bucket i b), Job.mem_fileToPairs.mpr ⟨hn, rfl⟩, rfl⟩

theorem Works.rename {r : Bool} {rest : Groups Nat KeyValue} {k : Nat} {pairs : List KeyValue}
    (h : Works j f r (.mapping i rest)) (hk : rest[k]? = some (b, pairs)) (hw : Written j f i b) :
    Works j f r (.mapping i (rest.eraseIdx k)) := by
  have ⟨hi, hg, hb⟩ := h
  refine ⟨hi, fun g hm => hg g <| List.mem_of_mem_eraseIdx hm, fun b' hn => ?_⟩
  cases hb b' hn
  case inr h => exact .inr h
  case inl h =>
    obtain ⟨g, hm, rfl⟩ := h
    have ⟨k', hk'⟩ := List.mem_iff_getElem?.mp hm
    by_cases he : k' = k
    case pos =>
      rw [he, hk] at hk'
      cases hk'
      exact .inr hw
    case neg => exact .inl ⟨g, List.mem_eraseIdx_iff_getElem?.mpr ⟨k', he, hk'⟩, rfl⟩

namespace Correct

theorem written_write (s : Workers ω) (i b i' b' : Nat) (h : Written j s.files i' b') :
    Written j (s.write (intermediateName i b) (print (j.bucket i b))).files i' b' := by
  by_cases he : intermediateName i' b' = intermediateName i b
  case pos =>
    obtain ⟨rfl, rfl⟩ := intermediateName_inj he
    exact write_self ..
  case neg => exact (write_of_ne s he _).trans h

-- A bucket is always written with the same contents, so a second execution changes nothing.
theorem write (h : Correct j s) (hj : j.Regular) (hi : i < j.inputs.length) (hb : b < j.nReduce) :
    Correct j (s.write (intermediateName i b) (print (j.bucket i b))) where
  inputs hr input hm := by
    have hne : input ≠ intermediateName i b := fun he => hj.input_ne hi hb (he ▸ hm)
    exact (write_of_ne s hne _).trans (h.inputs hr input hm)
  files i' hi' b' hb' := by
    by_cases he : intermediateName i' b' = intermediateName i b
    case pos =>
      obtain ⟨rfl, rfl⟩ := intermediateName_inj he
      exact .inr (write_self ..)
    case neg =>
      refine (h.files i' hi' b' hb').imp ?_ (written_write s i b i' b')
      exact (write_of_ne s he _).trans
  worker w           := (h.worker w).mono (written_write s i b) id
  mapped i' hm b' hn := written_write s i b i' b' (h.mapped i' hm b' hn)
  reducing           := h.reducing
  reduced b' hm      := by
    have ⟨order, ho, hf⟩ := h.reduced b' hm
    exact ⟨order, ho, (write_of_ne s intermediateName_ne_outputName.symm _).trans hf⟩

theorem finishMap (h : Correct j s) (hb : ∀ b, j.bucket i b ≠ [] → Written j s.files i b) :
    Correct j { s with mapped := i :: s.mapped } :=
  { h with
    mapped := by
      intro i' hm b hn
      cases hm
      case head    => exact hb b hn
      case tail hm => exact h.mapped i' hm b hn
    reducing := fun hr i' hi => List.mem_cons_of_mem _ (h.reducing hr i' hi) }

theorem startReduce (h : Correct j s) (hm : ∀ i < j.inputs.length, i ∈ s.mapped) :
    Correct j { s with reducing := true } :=
  { h with
    inputs   := fun hr => Bool.noConfusion hr
    worker   := fun w => (h.worker w).mono (fun _ _ => id) (fun _ => rfl)
    reducing := fun _ => hm }

theorem output (h : Correct j s) {order : Groups Bytes Bytes} (hr : s.reducing = true)
    (ho : order.IsGrouping (j.collected j.inputs.length b)) :
    Correct j { s.write (outputName b) (print (j.client.reduce order)) with
      reduced := b :: s.reduced } := by
  have hu (i b' : Nat) : (s.write (outputName b) (print (j.client.reduce order))).files
      (intermediateName i b') = s.files (intermediateName i b') :=
    write_of_ne s intermediateName_ne_outputName _
  have hw (i b' : Nat) : Written j s.files i b' →
      Written j (s.write (outputName b) (print (j.client.reduce order))).files i b' :=
    (hu i b').trans
  refine {
    inputs   := fun hr' => absurd (hr.symm.trans hr') (by decide)
    files    := fun i hi b' hb => (h.files i hi b' hb).imp (hu i b').trans (hw i b')
    worker   := fun w => (h.worker w).mono hw id
    mapped   := fun i hm b' hn => hw i b' (h.mapped i hm b' hn)
    reducing := h.reducing
    reduced  := ?_
  }
  intro b' hm
  by_cases he : b' = b
  case pos =>
    subst he
    exact ⟨order, ho, write_self ..⟩
  case neg =>
    have ⟨order', ho', hf⟩ := h.reduced b' ((List.mem_cons.mp hm).resolve_left he)
    exact ⟨order', ho', (write_of_ne s (he <| outputName_inj ·) _).trans hf⟩

-- A reduce task finds the pairs of its bucket, whether there is a file or not.
theorem addFile (h : Correct j s) (hj : j.Regular) (hr : s.reducing = true)
    (hi : i < j.inputs.length) (hb : b < j.nReduce) (kva : Groups Bytes Bytes) :
    addFile kva (s.files (intermediateName i b)) =
      some (kva.appendAll ((j.bucket i b).map KeyValue.toPair)) := by
  cases h.files i hi b hb
  case inr hw =>
    rw [hw]
    exact addFile_print hj.bucket_printable
  case inl hn =>
    have he : j.bucket i b = [] := by
      by_contra he
      have hw := h.mapped i (h.reducing hr i hi) b he
      exact Option.some_ne_none _ (hw.symm.trans hn)
    rw [hn, he]
    rfl

end Correct

variable [DecidableEq ω]

-- What a worker can do.
inductive Stepped (j : Job) (s : Workers ω) : Workers ω → Prop
  | startMap (w : ω) (i : Nat) (input : String) (content : Bytes)
      (hr : s.reducing = false) (hi : j.inputs[i]? = some input)
        (hf : s.files input = some content) :
      Stepped j s (s.set w (.mapping i (fileToPairs j.nReduce (j.client.mapf input content))))
  | rename (w : ω) (i : Nat) (buckets : Groups Nat KeyValue) (k b : Nat) (pairs : List KeyValue)
      (hw : s.worker w = .mapping i buckets) (hk : buckets[k]? = some (b, pairs)) :
      Stepped j s ((s.write (intermediateName i b) (print pairs)).set w
        (.mapping i (buckets.eraseIdx k)))
  | finishMap (w : ω) (i : Nat) (hw : s.worker w = .mapping i []) :
      Stepped j s ({ s with mapped := i :: s.mapped }.set w .idle)
  | startReduce (w : ω) (b : Nat) (hb : b < j.nReduce) (hm : ∀ i < j.inputs.length, i ∈ s.mapped) :
      Stepped j s ({ s with reducing := true }.set w (.reducing b 0 []))
  | read (w : ω) (b i : Nat) (kva kva' : Groups Bytes Bytes) (hw : s.worker w = .reducing b i kva)
      (hi : i < j.inputs.length) (ha : addFile kva (s.files (intermediateName i b)) = some kva') :
      Stepped j s (s.set w (.reducing b (i + 1) kva'))
  | finishReduce (w : ω) (b : Nat) (kva order : Groups Bytes Bytes)
      (hw : s.worker w = .reducing b j.inputs.length kva) (ho : order.Perm kva) :
      Stepped j s ({ s.write (outputName b) (print (j.client.reduce order)) with
        reduced := b :: s.reduced }.set w .idle)
  | crash (w : ω) : Stepped j s (s.set w .idle)

theorem stepped {e : Event ω} (h : next j.client j.inputs j.nReduce s e = some s') :
    Stepped j s s' := by
  cases e <;> simp only [next] at h
  case startMap w i =>
    split at h
    case h_2 => contradiction
    case h_1 _ hr =>
      simp only [Option.bind_eq_bind, Option.bind_eq_some_iff, Option.some.injEq] at h
      obtain ⟨input, hi, content, hf, rfl⟩ := h
      exact .startMap w i input content hr hi hf
  case rename w k =>
    split at h
    case h_2 => contradiction
    case h_1 i buckets hw =>
      simp only [Option.bind_eq_bind, Option.bind_eq_some_iff, Option.some.injEq] at h
      obtain ⟨⟨b, pairs⟩, hk, rfl⟩ := h
      exact .rename w i buckets k b pairs hw hk
  case finishMap w =>
    split at h
    case h_2 => contradiction
    case h_1 i hw =>
      cases h
      exact .finishMap w i hw
  case startReduce w b =>
    split at h
    case h_2 => contradiction
    case h_1 =>
      split_ifs at h with hg
      cases h
      exact .startReduce w b hg.left hg.right
  case read w =>
    split at h
    case h_2 => contradiction
    case h_1 b i kva hw =>
      split_ifs at h with hi
      simp only [Option.bind_eq_bind, Option.bind_eq_some_iff, Option.some.injEq] at h
      obtain ⟨kva', ha, rfl⟩ := h
      exact .read w b i kva kva' hw hi ha
  case finishReduce w order =>
    split at h
    case h_2 => contradiction
    case h_1 b i kva hw =>
      split_ifs at h with hg
      obtain ⟨rfl, ho⟩ := hg
      cases h
      exact .finishReduce w b kva order hw ho
  case crash w =>
    cases h
    exact .crash w

namespace Correct

theorem init (j : Job) (hj : j.Regular) :
    Correct j (workers ω j.client j.inputs j.nReduce j.files).init where
  inputs _ _ _    := rfl
  files i hi b hb := .inl (hj.files i hi b hb)
  worker _        := .idle
  mapped          := nofun
  reducing        := nofun
  reduced         := nofun

theorem set (h : Correct j s) {w : ω} {worker : Worker} (hw : Works j s.files s.reducing worker) :
    Correct j (s.set w worker) :=
  { h with
    worker := by
      intro w'
      simp only [Workers.set, Function.update_apply]
      split_ifs
      case pos => exact hw
      case neg => exact h.worker w' }

theorem step (h : Correct j s) (hj : j.Regular) (hs : Stepped j s s') : Correct j s' := by
  cases hs
  case startMap w i input content hr hi hf =>
    have hl := (List.getElem?_eq_some_iff.mp hi).fst
    have hf := (h.inputs hr input <| List.mem_of_getElem? hi).symm.trans hf
    rw [← Job.kva_eq hi hf]
    exact h.set (.startMap hj hl)
  case rename w i buckets k b pairs hw hk =>
    have hm := hw ▸ h.worker w
    have ⟨hi, hg, _⟩ := hm
    have ⟨hb, hp⟩ := hg _ (List.mem_of_getElem? hk)
    change pairs = j.bucket i b at hp
    subst hp
    refine (h.write hj hi hb).set ?_
    exact (hm.mono (written_write s i b) id).rename hk (write_self ..)
  case finishMap w i hw =>
    have ⟨_, _, hb⟩ := hw ▸ h.worker w
    exact (h.finishMap fun b hn => by simpa using hb b hn).set .idle
  case startReduce w b hb hm => exact (h.startReduce hm).set ⟨hb, rfl, .nil⟩
  case read w b i kva kva' hw hi ha =>
    have ⟨hb, hr, hk⟩ := hw ▸ h.worker w
    rw [h.addFile hj hr hi hb] at ha
    cases ha
    exact h.set ⟨hb, hr, Job.collected_succ ▸ hk.appendAll _⟩
  case finishReduce w b kva order hw ho =>
    have ⟨_, hr, hk⟩ := hw ▸ h.worker w
    exact (h.output hr (hk.of_perm ho.symm)).set .idle
  case crash w => exact h.set .idle

theorem of_behavior (hj : j.Regular)
    (r : (workers ω j.client j.inputs j.nReduce j.files).Behavior) :
    ∀ i, Correct j (r.state i) :=
  r.invariant (.init j hj) fun _ _ _ _ hs h => h.step hj (stepped hs)

end Correct

-- A reduce task never panics: each line that it reads has been printed by a map task.
theorem read_isSome (hj : j.Regular) (r : (workers ω j.client j.inputs j.nReduce j.files).Behavior)
    {n : Nat} {w : ω} {kva : Groups Bytes Bytes} (hw : (r.state n).worker w = .reducing b i kva)
    (hi : i < j.inputs.length) :
    (next j.client j.inputs j.nReduce (r.state n) (.read w)).isSome := by
  have h := Correct.of_behavior hj r n
  have ⟨hb, hr, _⟩ := hw ▸ h.worker w
  simp [next, hw, hi, h.addFile hj hr hi hb]

end Workers

end Mr
