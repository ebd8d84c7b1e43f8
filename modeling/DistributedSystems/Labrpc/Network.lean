import Mathlib.Logic.Function.Basic

-- The network of package `labrpc`, which simulates the faults of a real one.
namespace Labrpc

-- What `readEndnameInfo` has found at the other end.
structure Info (N : Type) where
  servername     : N
  -- Servers are compared by their addresses. Each one that is made has a number of its own.
  server         : Nat
  reliable       : Bool
  longreordering : Bool

-- How far `processReq` has come with a request. A reply is missing if `ok` is false.
inductive Process (Res : Type)
  | sent
  | delaying
  | waiting
  | answered (reply : Option Res)
  -- A timer will send the reply.
  | timed (reply : Option Res)
  | replied (reply : Option Res)
  deriving DecidableEq

-- The goroutine that calls `dispatch`. It goes on if nobody waits for it any more.
inductive Dispatch (Res : Type)
  | idle
  | called
  -- The handler has returned.
  | handled (reply : Res)
  | returned (reply : Option Res)
  deriving DecidableEq

structure Rpc (N Res : Type) where
  process  : Process Res
  dispatch : Dispatch Res
  info     : Option (Info N)

-- What the random numbers say about a reply.
inductive Fate
  | drop
  | delay
  | pass

inductive Step
  | processReq
  | drop
  | call
  | poll
  | receive
  | reply (fate : Fate)
  | timeout

namespace Rpc

variable {N Res : Type}

def init : Rpc N Res where
  process  := .sent
  dispatch := .idle
  info     := none

-- The steps of `processReq`. What it reads from the network is a parameter.
def next (rpc : Rpc N Res) (found : Option (Info N)) (isServerDead : Info N → Bool) :
    Step → Option (Rpc N Res)
  | .processReq =>
    match rpc.process with
    | .sent =>
      some { rpc with process := if found.isSome then .delaying else .timed none, info := found }
    | _     => none
  | .drop =>
    match rpc.process, rpc.info with
    | .delaying, some info =>
      if info.reliable then none else some { rpc with process := .replied none }
    | _, _                 => none
  | .call =>
    match rpc.process with
    | .delaying => some { rpc with process := .waiting, dispatch := .called }
    | _         => none
  | .poll =>
    match rpc.process, rpc.info with
    | .waiting, some info =>
      some (if isServerDead info then { rpc with process := .replied none } else rpc)
    | _, _                => none
  | .receive =>
    match rpc.process, rpc.dispatch with
    | .waiting, .returned reply => some { rpc with process := .answered reply }
    | _, _                      => none
  | .reply fate =>
    match rpc.process, rpc.info with
    | .answered reply, some info =>
      -- A client must not see a reply of a server whose persister has been copied before.
      if isServerDead info then some { rpc with process := .replied none } else
      match fate with
      | .drop  => if info.reliable then none else some { rpc with process := .replied none }
      | .delay => if info.longreordering then some { rpc with process := .timed reply } else none
      | .pass  => some { rpc with process := .replied reply }
    | _, _ => none
  | .timeout =>
    match rpc.process with
    | .timed reply => some { rpc with process := .replied reply }
    | _            => none

end Rpc

structure Network (E N Res : Type) where
  reliable       : Bool
  longReordering : Bool
  enabled        : E → Bool
  connections    : E → Option N
  servers        : N → Option Nat
  rpc            : Nat → Rpc N Res

namespace Network

variable {E N Res : Type}

-- All ends have been made, and connected, in advance.
def make (connections : E → Option N) : Network E N Res where
  reliable       := true
  longReordering := false
  enabled _      := false
  connections    := connections
  servers _      := none
  rpc _          := .init

def enable [DecidableEq E] (rn : Network E N Res) (endname : E) (enabled : Bool) :
    Network E N Res :=
  { rn with enabled := Function.update rn.enabled endname enabled }

def addServer [DecidableEq N] (rn : Network E N Res) (servername : N) (server : Nat) :
    Network E N Res :=
  { rn with servers := Function.update rn.servers servername (some server) }

def deleteServer [DecidableEq N] (rn : Network E N Res) (servername : N) : Network E N Res :=
  { rn with servers := Function.update rn.servers servername none }

-- There is a result only if a server can be reached.
def readEndnameInfo (rn : Network E N Res) (endname : E) : Option (Info N) :=
  if rn.enabled endname then do
    let servername ← rn.connections endname
    let server ← rn.servers servername
    some ⟨servername, server, rn.reliable, rn.longReordering⟩
  else
    none

def isServerDead (rn : Network E N Res) (endname : E) (info : Info N) : Bool :=
  !rn.enabled endname || rn.servers info.servername ≠ some info.server

def set (rn : Network E N Res) (k : Nat) (rpc : Rpc N Res) : Network E N Res :=
  { rn with rpc := Function.update rn.rpc k rpc }

def next (rn : Network E N Res) (k : Nat) (endname : E) (a : Step) : Option (Network E N Res) :=
  ((rn.rpc k).next (rn.readEndnameInfo endname) (rn.isServerDead endname) a).map (rn.set k)

end Network
end Labrpc
