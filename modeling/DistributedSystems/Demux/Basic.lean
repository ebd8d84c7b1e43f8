import DistributedSystems.Library.Behavior

-- Package `demux` of the tester. The calls of a process share one connection, and replies are
-- matched with them by their tags.
namespace Demux

abbrev Bytes :=
  List UInt8

abbrev Ttag :=
  UInt32

structure Msg where
  tag  : Ttag
  data : Bytes
  ok   : Bool
  deriving DecidableEq

-- What `Marshall` and `Unmarshall` do to a message. The process ends if it cannot be decoded.
structure Codec where
  marshall            : Msg → Bytes
  unmarshall          : Bytes → Option Msg
  unmarshall_marshall : ∀ m, unmarshall (marshall m) = some m

-- The length of a message as `uint32`, in little endian.
def writeLen (n : Nat) : Bytes :=
  [n, n / 2 ^ 8, n / 2 ^ 16, n / 2 ^ 24].map UInt8.ofNat

def readLen : Bytes → Option (Nat × Bytes)
  | b₀ :: b₁ :: b₂ :: b₃ :: bytes =>
    some (b₀.toNat + b₁.toNat * 2 ^ 8 + b₂.toNat * 2 ^ 16 + b₃.toNat * 2 ^ 24, bytes)
  | _ => none

namespace Codec

variable (c : Codec)

def writeCall (m : Msg) : Bytes :=
  writeLen (c.marshall m).length ++ c.marshall m

-- There is no result as long as bytes are missing.
def readCall (bytes : Bytes) : Option (Option Msg × Bytes) := do
  let (nbyte, bytes) ← readLen bytes
  if bytes.length < nbyte then none else some (c.unmarshall (bytes.take nbyte), bytes.drop nbyte)

end Codec

-- How far a call of `SendReceive` has come. Without a reply it has returned an error.
inductive Phase
  | tagged
  | registered
  | waiting
  | returned (reply : Option (Bytes × Bool))
  deriving DecidableEq

end Demux

open Demux

-- A client and a server, and the connection between them.
structure Demux where
  -- The name in the first message, which `NewDemuxClnt` writes.
  clnt        : Option Bytes
  -- The name of the client, as soon as `NewDemuxSrv` has read that message.
  clntEnd     : Option Bytes
  nextTag     : Ttag
  closed      : Bool
  -- The calls whose channels are in the map.
  callmap     : List (Ttag × Nat)
  calls       : List (Ttag × Bytes)
  phase       : Nat → Phase
  -- The channel on which the reader sends a reply.
  channel     : Option (Nat × Option (Bytes × Bool))
  -- The calls that the reader lets fail when it has left its loop.
  outstanding : Option (List Ttag)
  isOpen      : Bool
  toServer    : Bytes
  toClient    : Bytes
  -- The requests that the server has read, the results of `ServeRequest`, and whether they have
  -- been written.
  handlers    : List (Ttag × Bytes)
  result      : Nat → Option (Bytes × Bool)
  written     : Nat → Bool
  fatal       : Bool

namespace Demux

inductive Event
  | newDemuxClnt (clnt : Bytes)
  | newDemuxSrv
  | tag (data : Bytes)
  | put (k : Nat)
  | write (k : Nat)
  | receive
  -- One of the sides closes the connection. What has been written may get lost, from some byte on.
  | cut (toServer toClient : Nat)
  | close
  | readReply
  -- The tags come in the order of the map.
  | readError (outstanding : List Ttag)
  | fail
  | readRequest
  | serve (j : Nat) (reply : Bytes × Bool)
  | writeReply (j : Nat)

def keys (s : Demux) : List Ttag :=
  s.callmap.map Prod.fst

def set (s : Demux) (k : Nat) (phase : Phase) : Demux :=
  { s with phase := Function.update s.phase k phase }

def remove (s : Demux) (tag : Ttag) : List (Ttag × Nat) :=
  s.callmap.filter (·.fst != tag)

-- The reader takes the channel from the map.
def reply (s : Demux) (tag : Ttag) (reply : Option (Bytes × Bool)) : Demux :=
  match s.callmap.lookup tag with
  | some k => { s with callmap := s.remove tag, channel := some (k, reply) }
  | none   => { s with fatal := true }

def next (c : Codec) (s : Demux) : Event → Option Demux
  | .newDemuxClnt clnt =>
    if s.clnt = none then
      -- Its caller does not go on without a connection.
      if s.isOpen then
        some { s with
          clnt     := clnt
          nextTag  := s.nextTag + 1
          toServer := s.toServer ++ c.writeCall ⟨s.nextTag, clnt, true⟩ }
      else
        some { s with fatal := true }
    else
      none
  | .newDemuxSrv =>
    if s.clntEnd = none then
      match c.readCall s.toServer with
      | some (some m, bytes) => some { s with clntEnd := m.data, toServer := bytes }
      | some (none, _)       => some { s with fatal := true }
      | none                 => if s.isOpen then none else some { s with fatal := true }
    else
      none
  | .tag data =>
    if s.clnt = none then none else
    some { s with nextTag := s.nextTag + 1, calls := s.calls ++ [(s.nextTag, data)] }
  | .put k =>
    match s.calls[k]?, s.phase k with
    | some (tag, _), .tagged =>
      if s.closed then some (s.set k (.returned none)) else
      some { s.set k .registered with callmap := (tag, k) :: s.remove tag }
    | _, _ => none
  | .write k =>
    match s.calls[k]?, s.phase k with
    | some (tag, data), .registered =>
      -- An error of the connection is ignored.
      some { s.set k .waiting with
        toServer := if s.isOpen then s.toServer ++ c.writeCall ⟨tag, data, true⟩ else s.toServer }
    | _, _ => none
  | .receive =>
    match s.channel with
    | some (k, reply) =>
      if s.phase k = .waiting then some { s.set k (.returned reply) with channel := none } else none
    | none            => none
  | .cut m n =>
    some { s with isOpen := false, toServer := s.toServer.take m, toClient := s.toClient.take n }
  | .close   => if s.isOpen ∨ s.clnt = none then none else some { s with closed := true }
  | .readReply =>
    if s.clnt ≠ none ∧ s.outstanding = none ∧ s.channel = none then
      (c.readCall s.toClient).map fun
        | (some m, bytes) => { s with toClient := bytes }.reply m.tag (some (m.data, m.ok))
        | (none, _)       => { s with fatal := true }
    else
      none
  | .readError outstanding =>
    if s.clnt ≠ none ∧ !s.isOpen ∧ s.outstanding = none ∧ s.channel = none ∧
      c.readCall s.toClient = none ∧
        outstanding.Perm s.keys then
      some { s with closed := true, outstanding }
    else
      none
  | .fail =>
    match s.outstanding, s.channel with
    | some (tag :: outstanding), none => some ({ s with outstanding }.reply tag none)
    | _, _                            => none
  | .readRequest =>
    if s.clntEnd = none then none else
    (c.readCall s.toServer).map fun
      | (some m, bytes) => { s with toServer := bytes, handlers := s.handlers ++ [(m.tag, m.data)] }
      | (none, _)       => { s with fatal := true }
  | .serve j reply =>
    if j < s.handlers.length ∧ s.result j = none then
      some { s with result := Function.update s.result j (some reply) }
    else
      none
  | .writeReply j =>
    match s.handlers[j]?, s.result j, s.written j with
    | some (tag, _), some (data, ok), false =>
      some { s with
        written  := Function.update s.written j true
        toClient := if s.isOpen then s.toClient ++ c.writeCall ⟨tag, data, ok⟩ else s.toClient }
    | _, _, _ => none

-- Tags are used again after 2 ^ 32 calls, and longer messages have lengths that are no `uint32`.
def exceeds (c : Codec) (s : Demux) : Event → Bool
  | .newDemuxClnt clnt => 2 ^ 32 ≤ (c.marshall ⟨s.nextTag, clnt, true⟩).length
  | .tag _             => 2 ^ 32 ≤ s.calls.length + 1
  | .write k           =>
    s.calls[k]?.any fun (tag, data) => 2 ^ 32 ≤ (c.marshall ⟨tag, data, true⟩).length
  | .writeReply j      => s.handlers[j]?.any fun (tag, _) =>
    (s.result j).any fun (data, ok) => 2 ^ 32 ≤ (c.marshall ⟨tag, data, ok⟩).length
  | _                  => false

end Demux

def demux (c : Demux.Codec) : System Demux Demux.Event where
  init := {
    clnt        := none
    clntEnd     := none
    nextTag     := 0
    closed      := false
    callmap     := []
    calls       := []
    phase       := fun _ => .tagged
    channel     := none
    outstanding := none
    isOpen      := true
    toServer    := []
    toClient    := []
    handlers    := []
    result      := fun _ => none
    written     := fun _ => false
    fatal       := false }
  next s a := if s.fatal then none else s.next c a
