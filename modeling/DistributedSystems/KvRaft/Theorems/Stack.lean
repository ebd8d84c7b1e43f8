import DistributedSystems.KvRaft.Stack
import DistributedSystems.KvRaft.Theorems.Servers
import DistributedSystems.KvTest.Theorems.Linearizability
import DistributedSystems.Rsm.Theorems.Replicated

namespace KvRaft

open KvSrv KvTest Linearizability

variable {n : Nat} {K V : Type}

namespace Servers

variable {P : Type} [DecidableEq P] [DecidableEq K] [DecidableEq V] {sent : List (KvInput K V)}

-- What an RSM does without a request is a step of its server.
theorem steps_of_steps {s : Servers P K V} {rsm}
    (h : s.rsm.Steps (stateMachine K V) s.snapshots rsm) :
    (servers P K V).Steps Reused sent s { s with rsm } := by
  induction h
  case refl => exact .refl
  case tail rsm₁ rsm₂ _ hs hi =>
    refine hi.tail ?_
    obtain ⟨e, hp, hs⟩ := hs
    have hstep : { s with rsm := rsm₁ }.step e = some { s with rsm := rsm₂ } := by simp [step, hs]
    cases e
    case submit => exact hp.elim
    case restore p index data =>
      obtain ⟨j, hj⟩ := List.mem_iff_getElem?.mp hp
      exact ⟨.restore p j, id, by simpa [servers, Servers.next, hj] using hstep⟩
    case restart p index data =>
      rcases hp with ⟨rfl, rfl⟩ | ⟨d, rfl, hd⟩
      · exact ⟨.restart p none, id, hstep⟩
      · obtain ⟨j, hj⟩ := List.mem_iff_getElem?.mp hd
        exact ⟨.restart p (some j), id, by simpa [servers, Servers.next, hj] using hstep⟩
    case receive p k        => exact ⟨.rsm (.receive p k), id, hstep⟩
    case poll p k term lead => exact ⟨.rsm (.poll p k term lead), id, hstep⟩
    case commit k           => exact ⟨.rsm (.commit k), id, hstep⟩
    case execute p          => exact ⟨.rsm (.execute p), id, hstep⟩
    case lookup p           => exact ⟨.rsm (.lookup p), id, hstep⟩
    case deliver p          => exact ⟨.rsm (.deliver p), id, hstep⟩

end Servers

namespace Stack

-- The servers of the stack, without Raft.
def servers (s : Stack n K V) : Servers (Fin n) K V :=
  ⟨s.replicas.rsm, s.calls, s.replicas.snapshots⟩

def Bad (_ : List (KvInput K V)) (s : Stack n K V) : Action n K V → Prop
  | .handle _ p => s.replicas.Reuses p
  | .step a     => s.replicas.Bad a

instance decidableBad {sent : List (KvInput K V)} {s : Stack n K V} :
    (a : Action n K V) → Decidable (Bad sent s a)
  | .handle _ p => inferInstanceAs (Decidable (s.replicas.Reuses p))
  | .step a     => inferInstanceAs (Decidable (s.replicas.Bad a))

variable [DecidableEq K] [DecidableEq V] {sent : List (KvInput K V)} {s s' : Stack n K V}

theorem step_steps {a} (hr : s.replicas.Refined (stateMachine K V) a s'.replicas)
    (hc : s'.calls = s.calls) (ha : ∀ p req, a ≠ .submit p req) :
    (KvRaft.servers (Fin n) K V).Steps Servers.Reused sent s.servers s'.servers := by
  rcases hr.step_cases ha with ⟨hs, hsn⟩ | ⟨p, hp, hrsm, hsn⟩
  · rw [show s'.servers = { s.servers with rsm := s'.replicas.rsm } by simp [servers, hc, hsn]]
    exact Servers.steps_of_steps hs
  · refine .single ⟨.snapshot p, id, ?_⟩
    simp [KvRaft.servers, Servers.next, servers, hp, hrsm, hsn, hc, stateMachine]

variable [DecidableEq (K → Option (Data V))]

theorem handle_steps {w} (hc : s.replicas.Coupled (stateMachine K V) w) {k : Nat} {p : Fin n}
    {input : KvInput K V} (hb : ¬Bad sent s (.handle k p)) (hi : sent[k]? = some input)
    (hk : (s.calls k).isNone) :
    (KvRaft.servers (Fin n) K V).Steps Servers.Reused sent s.servers
      (s.handle k p (.of input)).servers := by
  have ⟨hr, _⟩ := hc.submit (.of input) hb
  obtain ⟨start, hu, hrsm, hsn⟩ := hr.submit_cases
  refine .single ⟨.handle k p start, ?_, ?_⟩
  · rcases start with _ | ⟨index, term⟩
    · exact id
    · exact hu
  · simp [KvRaft.servers, Servers.next, hi, hk, servers, handle, Servers.handle, hrsm, hsn]

theorem simulation (hn : Odd n) :
    (stack n K V).Simulation (KvRaft.servers (Fin n) K V) Bad Servers.Reused
      fun _ s srv => srv = s.servers ∧ ∃ w, s.replicas.Coupled (stateMachine K V) w where
  init           := ⟨rfl, _, .init hn⟩
  sent _ _ _ _ h := h
  answers        := by
    rintro _ s _ k out ⟨rfl, _⟩ h
    exact h
  next           := by
    rintro sent s _ a s' ⟨rfl, w, hc⟩ hb hs
    cases a
    case handle k p =>
      obtain ⟨input, hi, hs⟩ := Option.bind_eq_some_iff.mp hs
      split_ifs at hs with hk
      cases hs
      have ⟨_, hw⟩ := hc.submit (.of input) hb
      exact ⟨_, handle_steps hc hb hi hk, rfl, hw⟩
    case step a =>
      have ⟨ha, hs⟩ : (∀ p req, a ≠ .submit p req) ∧
          (s.replicas.next (stateMachine K V) a).map (fun replicas => { s with replicas }) =
            some s' := by
        cases a <;> simp_all [stack, Stack.next]
      obtain ⟨replicas, hx, rfl⟩ := Option.map_eq_some_iff.mp hs
      have ⟨hr, hw⟩ := hc.step hb hx
      exact ⟨Stack.servers { s with replicas }, step_steps hr rfl ha, rfl, hw⟩

end Stack

-- Clients of `kvraft1`, whatever its servers, their Raft peers and the network do.
theorem kvraft_linearizable (hn : Odd n) {P : Type} [DecidableEq P]
    [DecidableEq (String → Option (Data String))]
    (b : ((test P String String (clerks n)).session (stack n String String)).Behavior)
    (hb : b.Avoids (Session.Bad Test.Unseen Stack.Bad)) (i : Nat) :
    Completable (stores String String) (b.state i).front.oplog (b.state i).front.pending
      (b.state i).front.now ∧
    ((∀ p, (b.state i).front.client p = none) → Legal (b.state i).front.oplog) := by
  have ⟨_, hs, _⟩ := (Stack.simulation hn).reached (.of_avoids hb i)
  have ⟨_, hs, _⟩ := Servers.simulation.reached hs
  exact ⟨completable_of_reached (clerks_sound n) hs, legal_of_reached (clerks_sound n) hs⟩

section Put

-- The compared messages hold no snapshots.
noncomputable instance decidableSnapshot : DecidableEq (String → Option (Data String)) :=
  Classical.decEq _

def putting :
    List (Session.Event (Test.Event Unit (Fin 3) Unit String String) (Stack.Action 3 String String)
    (KvOutput String)) :=
  let vote := ⟨0, 1, 0, .requestVote ⟨1, 0, 0, 0⟩⟩
  let append := ⟨0, 1, 0, .appendEntries ⟨1, 0, 0, 0, 0, [⟨1, some ⟨⟨.put "k" "v" 0, 0, 0⟩, 0⟩⟩]⟩⟩
  [.front (.call () 0 (.put "k" "v" 0)) none, .back (.step (.raft (.startElection 0))),
    .back (.step (.raft (.serve vote))),
    .back (.step (.raft (.returned vote (.requestVote ⟨0, true⟩)))), .back (.handle 0 0),
    .back (.step (.raft (.serve append))),
    .back (.step (.raft (.returned append (.appendEntries ⟨1, true, 0, 0⟩)))),
    .back (.step (.raft (.applyTicker 0))), .back (.step (.read 0)), .back (.step (.lookup 0)),
    .back (.step (.deliver 0)), .back (.step (.receive 0 0)),
    .front (.respond () ()) (some (0, ⟨none, 0, .ok⟩)), .front .tick none, .front (.done ()) none]

noncomputable def put :
    ((test Unit String String (clerks 3)).session (stack 3 String String)).Behavior :=
  .ofActions _ putting (by decide +kernel)

theorem kvraft_linearizable_put :
    (put.state 15).front.oplog = [⟨.put "k" "v" 0, ⟨none, 0, .ok⟩, 0, 1⟩] ∧
    Legal (put.state 15).front.oplog := by
  have hb : put.Avoids (Session.Bad Test.Unseen Stack.Bad) :=
    System.Behavior.avoids_ofActions (by decide +kernel)
  exact ⟨by decide +kernel, (kvraft_linearizable (by decide) put hb 15).right fun () =>
    Option.isNone_iff_eq_none.mp (by decide +kernel)⟩

end Put

end KvRaft
