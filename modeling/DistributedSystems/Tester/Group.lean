import DistributedSystems.Labrpc.Network
import DistributedSystems.Library.Nodes

-- The servers that a test of package `tester1` starts and shuts down. Each one is a daemon, a
-- process of its own. It is called by the tester, which also forwards its calls to the network.
namespace Tester

open Labrpc

inductive Stage
  -- There is no daemon.
  | down
  -- `StartServer` has not come to `AddServer` yet.
  | starting
  | up
  -- `ShutdownServer` has called `DeleteServer`.
  | deleted
  -- The tester has a copy of the persister, and the daemon waits for its end.
  | closed
  deriving DecidableEq

structure Server (σ π : Type) where
  stage       : Stage
  -- The number of the daemon, or of the next one.
  incarnation : Nat
  saved       : Option π
  -- There is no state if the daemon has panicked.
  daemon      : Option σ

namespace Server

variable {P σ π ε Req Res : Type}

def startServer (prog : Program P σ π ε Req Res) (p : P) (srv : Server σ π) : Server σ π :=
  { srv with stage := .starting, daemon := prog.start p (srv.saved.getD prog.persister) }

-- The connection to the tester is closed first. What the daemon does from now on is lost.
def checkpointPersister (prog : Program P σ π ε Req Res) (srv : Server σ π) (s : σ) : Server σ π :=
  { srv with stage := .closed, saved := prog.persisted s }

def kill (srv : Server σ π) : Server σ π :=
  { srv with stage := .down, incarnation := srv.incarnation + 1, daemon := none }

-- The daemon, as long as something will remain of it.
def running (srv : Server σ π) : Option σ :=
  if srv.stage = .closed then none else srv.daemon

end Server

structure Forward (P Req : Type) where
  call     : Nodes.Call P Req
  -- The connection to the tester was closed.
  refused  : Bool
  -- The caller has the reply.
  returned : Bool
  deriving DecidableEq

def Forward.endname {P Req : Type} (f : Forward P Req) : P × Nat × P :=
  (f.call.caller, f.call.incarnation, f.call.callee)

-- Each daemon has its own ends, one for each server.
structure Group (P σ π Req Res : Type) where
  server : P → Server σ π
  calls  : List (Forward P Req)
  net    : Network (P × Nat × P) P Res

namespace Group

inductive Event (P ε : Type)
  | reliable (yes : Bool)
  | longReordering (yes : Bool)
  | enable (endname : P × Nat × P) (enabled : Bool)
  | startServer (p : P)
  | addServer (p : P)
  | deleteServer (p : P)
  | checkpointPersister (p : P)
  | kill (p : P)
  | act (p : P) (e : ε)
  | net (k : Nat) (a : Step)
  -- The daemon executes the handler, the reply is sent back or gets lost.
  | handle (k : Nat)
  | reply (k : Nat)
  | lose (k : Nat)
  -- `Call` returns.
  | resume (k : Nat)

variable {P σ π ε Req Res : Type} [DecidableEq P]

def set (g : Group P σ π Req Res) (p : P) (srv : Server σ π) : Group P σ π Req Res :=
  { g with server := Function.update g.server p srv }

def act (prog : Program P σ π ε Req Res) (g : Group P σ π Req Res) (p : P) (e : ε) :
    Option (Group P σ π Req Res) := do
  let srv := g.server p
  let (daemon, sent) ← prog.act (← srv.daemon) e
  let calls := sent.map fun (q, req) => ⟨⟨p, q, srv.incarnation, req⟩, srv.stage = .closed, false⟩
  some { g.set p { srv with daemon } with calls := g.calls ++ calls }

def handle (prog : Program P σ π ε Req Res) (g : Group P σ π Req Res) (k : Nat) :
    Option (Group P σ π Req Res) := do
  let f ← g.calls[k]?
  let rpc := g.net.rpc k
  let info ← rpc.info
  let srv := g.server info.servername
  match rpc.dispatch with
  | .called =>
    if srv.incarnation ≠ info.server then none else
    match prog.handle (← srv.daemon) f.call.request with
    | some (s, reply) =>
      some { g.set info.servername { srv with daemon := s } with
        net := g.net.set k { rpc with dispatch := .handled reply } }
    | none => some (g.set info.servername { srv with daemon := none })
  | _ => none

def reply (g : Group P σ π Req Res) (k : Nat) : Option (Group P σ π Req Res) :=
  let rpc := g.net.rpc k
  match rpc.dispatch with
  | .handled reply => some { g with net := g.net.set k { rpc with dispatch := .returned reply } }
  | _              => none

-- The daemon that was called does not exist any more.
def lose (g : Group P σ π Req Res) (k : Nat) : Option (Group P σ π Req Res) := do
  let rpc := g.net.rpc k
  let info ← rpc.info
  let srv := g.server info.servername
  if srv.incarnation = info.server ∧ srv.daemon.isSome then none else
  match rpc.dispatch with
  | .called | .handled _ =>
    some { g with net := g.net.set k { rpc with dispatch := .returned none } }
  | _                    => none

-- What `Call` returns. All calls of a daemon fail after its connection to the tester has been
-- closed.
def returns (g : Group P σ π Req Res) (k : Nat) (f : Forward P Req) : Option (Option Res) :=
  if (g.server f.call.caller).stage = .closed then some none else
  match (g.net.rpc k).process with
  | .replied reply => some reply
  | _              => none

def resume (prog : Program P σ π ε Req Res) (g : Group P σ π Req Res) (k : Nat) :
    Option (Group P σ π Req Res) := do
  let f ← g.calls[k]?
  let srv := g.server f.call.caller
  if f.returned ∨ srv.incarnation ≠ f.call.incarnation then none else
  let daemon ← prog.resume (← srv.daemon) f.call.callee f.call.request (← g.returns k f)
  some { g.set f.call.caller { srv with daemon } with
    calls := g.calls.set k { f with returned := true } }

def next (prog : Program P σ π ε Req Res) (g : Group P σ π Req Res) :
    Event P ε → Option (Group P σ π Req Res)
  | .reliable yes           => some { g with net := { g.net with reliable := yes } }
  | .longReordering yes     => some { g with net := { g.net with longReordering := yes } }
  | .enable endname enabled => some { g with net := g.net.enable endname enabled }
  | .startServer p =>
    if (g.server p).stage = .down then some (g.set p ((g.server p).startServer prog p)) else none
  | .addServer p =>
    if (g.server p).stage = .starting then
      some { g.set p { g.server p with stage := .up } with
        net := g.net.addServer p (g.server p).incarnation }
    else
      none
  | .deleteServer p =>
    if (g.server p).stage = .up then
      some { g.set p { g.server p with stage := .deleted } with net := g.net.deleteServer p }
    else
      none
  -- The tester gives up if the daemon does not answer.
  | .checkpointPersister p =>
    if (g.server p).stage = .deleted then
      (g.server p).daemon.map fun s => g.set p ((g.server p).checkpointPersister prog s)
    else
      none
  | .kill p  => if (g.server p).stage = .closed then some (g.set p (g.server p).kill) else none
  | .act p e => g.act prog p e
  | .net k a => do
    let f ← g.calls[k]?
    if f.refused then none else (g.net.next k f.endname a).map fun net => { g with net }
  | .handle k => g.handle prog k
  | .reply k  => g.reply k
  | .lose k   => g.lose k
  | .resume k => g.resume prog k

end Group

def group {P σ π ε Req Res : Type} [DecidableEq P] (prog : Program P σ π ε Req Res) :
    System (Group P σ π Req Res) (Group.Event P ε) where
  init := ⟨fun _ => ⟨.down, 0, none, none⟩, [], .make fun endname => some endname.snd.snd⟩
  next := Group.next prog

end Tester
