import DistributedSystems.Library.Service

-- A program for processes that call each other.
structure Program (P σ π ε Req Res : Type) where
  -- What is persisted before the first start.
  persister : π
  start     : P → π → σ
  persisted : σ → π
  -- What a process does on its own: it sends requests, and may end in a panic.
  act       : σ → ε → Option (Option σ × List (P × Req))
  handle    : σ → Req → Option (σ × Res)
  -- A call has returned, with a reply or without one.
  resume    : σ → P → Req → Option Res → Option (Option σ)

namespace Nodes

-- A call by one incarnation of `caller`. No other incarnation gets the reply.
structure Call (P Req : Type) where
  caller      : P
  callee      : P
  incarnation : Nat
  request     : Req
  deriving DecidableEq

inductive Event (P ε Req Res : Type)
  | act (p : P) (e : ε)
  | serve (call : Call P Req)
  | returned (call : Call P Req) (reply : Res)
  | failed (call : Call P Req)
  | restart (p : P)

end Nodes

-- The processes of a program, if nothing is known about the network and the restarts: messages may
-- be delivered at any later moment, any number of times and in any order, or never.
structure Nodes (P σ Req Res : Type) where
  -- A process that has panicked is gone.
  node        : P → Option σ
  incarnation : P → Nat
  requests    : List (Nodes.Call P Req)
  replies     : List (Nodes.Call P Req × Res)

namespace Nodes

variable {P σ π ε Req Res : Type} [DecidableEq P]

def set (t : Nodes P σ Req Res) (p : P) (node : Option σ) : Nodes P σ Req Res :=
  { t with node := Function.update t.node p node }

def act (prog : Program P σ π ε Req Res) (t : Nodes P σ Req Res) (p : P) (e : ε) :
    Option (Nodes P σ Req Res) := do
  let s ← t.node p
  let (s, sent) ← prog.act s e
  some { t.set p s with requests := t.requests ++ sent.map fun (q, req) => ⟨p, q, t.incarnation p,
    req⟩ }

def serve (prog : Program P σ π ε Req Res) (t : Nodes P σ Req Res) (call : Call P Req) :
    Option (Nodes P σ Req Res) := do
  let s ← t.node call.callee
  match prog.handle s call.request with
  | some (s, reply) => some { t.set call.callee s with replies := t.replies ++ [(call, reply)] }
  | none            => some (t.set call.callee none)

def resume (prog : Program P σ π ε Req Res) (t : Nodes P σ Req Res) (call : Call P Req)
    (reply : Option Res) :
    Option (Nodes P σ Req Res) :=
  if call.incarnation = t.incarnation call.caller then do
    let s ← t.node call.caller
    let s ← prog.resume s call.callee call.request reply
    some (t.set call.caller s)
  else
    none

def restart (prog : Program P σ π ε Req Res) (t : Nodes P σ Req Res) (p : P) :
    Option (Nodes P σ Req Res) := do
  let s ← t.node p
  some { t.set p (prog.start p (prog.persisted s)) with
    incarnation := Function.update t.incarnation p (t.incarnation p + 1) }

variable [DecidableEq Req] [DecidableEq Res]

def next (prog : Program P σ π ε Req Res) (t : Nodes P σ Req Res) :
    Event P ε Req Res → Option (Nodes P σ Req Res)
  | .act p e             => t.act prog p e
  | .serve call          => if call ∈ t.requests then t.serve prog call else none
  | .returned call reply => if (call, reply) ∈ t.replies then t.resume prog call reply else none
  | .failed call         => if call ∈ t.requests then t.resume prog call none else none
  | .restart p           => t.restart prog p

end Nodes

def nodes {P σ π ε Req Res : Type} [DecidableEq P] [DecidableEq Req] [DecidableEq Res]
    (prog : Program P σ π ε Req Res) : System (Nodes P σ Req Res) (Nodes.Event P ε Req Res) where
  init := ⟨fun p => prog.start p prog.persister, fun _ => 0, [], []⟩
  next := Nodes.next prog
