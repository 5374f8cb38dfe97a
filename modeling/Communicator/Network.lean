import Communicator.Lib.Lts
import Mathlib.Logic.Function.Basic

/-!
# Clients and their handlers

`server_t` of `server.cpp` with the operations its clients start. One thread runs the completion
handlers, in the order in which the operations completed. The handler of an accept holds the new
client's shared pointer, the handlers of reads and writes the bare `this`; what happens inside
`recive`, and when an operation completes, is any sequence of events.
-/

namespace Communicator

inductive Operation
  | accept (c : ℕ)
  | read (c : ℕ)
  | write (c : ℕ)
  | timer
  deriving DecidableEq

/-- The client whose `this` the handler holds. -/
def Operation.this : Operation → Option ℕ
  | .read c => some c
  | .write c => some c
  | _ => none

/-- How an operation completed; `badLength` is a read of no bytes or of a full buffer. -/
inductive Status
  | success
  | badLength
  | operationAborted
  | failure
  deriving DecidableEq

structure Completion where
  operation : Operation
  status : Status
  deriving DecidableEq

/-- The server with the operations started: `pending` has not completed, the handlers of `ready`
wait to be run. Clients are numbered as they are created. -/
structure Network where
  clients : List ℕ := []
  isOpen : ℕ → Bool := fun _ => false
  pending : List Operation := []
  ready : List Completion := []
  created : ℕ := 0

/-- What `recive` can bring about before it returns. -/
inductive Meanwhile
  | send
  | stop
  | completes (op : Operation) (status : Status)

inductive NetworkEvent
  | completes (op : Operation) (status : Status)
  | runs (during : List Meanwhile) (throws : Bool)

namespace Network

variable (s : Network)

/-- An operation on a closed socket fails at once. -/
def startOperation (op : Operation) (c : ℕ) : Network :=
  if s.isOpen c then { s with pending := s.pending ++ [op] }
  else { s with ready := s.ready ++ [⟨op, .failure⟩] }

def complete (op : Operation) (status : Status) : Network :=
  { s with pending := s.pending.erase op, ready := s.ready ++ [⟨op, status⟩] }

/-- An operation under way may complete, but only a close aborts it. -/
def CanComplete (op : Operation) (status : Status) : Prop :=
  op ∈ s.pending ∧ status ≠ .operationAborted

instance (op : Operation) (status : Status) : Decidable (s.CanComplete op status) :=
  inferInstanceAs (Decidable (_ ∧ _))

/-- `client_t::stop`. -/
def stop (c : ℕ) : Network :=
  { s with
    isOpen := Function.update s.isOpen c false
    pending := s.pending.filter fun op => op.this ≠ some c
    ready := s.ready
      ++ (s.pending.filter fun op => op.this = some c).map fun op => ⟨op, .operationAborted⟩ }

def meanwhile (c : ℕ) (s : Network) : Meanwhile → Network
  | .send => s.startOperation (.write c) c
  | .stop => s.stop c
  | .completes op status => if s.CanComplete op status then s.complete op status else s

/-- `client_t::handle_read`; an exception of `recive` is answered by a stop. -/
def handleRead (c : ℕ) (during : List Meanwhile) (throws : Bool) : Status → Network
  | .success =>
    let s := during.foldl (meanwhile c) (s.startOperation (.read c) c)
    if throws then s.stop c else s
  | .badLength => s.stop c
  | .operationAborted => s
  | .failure => s.stop c

def handleWrite (c : ℕ) : Status → Network
  | .failure => s.stop c
  | _ => s

def startAccept : Network :=
  { s with created := s.created + 1, pending := s.pending ++ [.accept s.created] }

/-- `client_t::start`, on a socket that is gone already if it throws. -/
def startClient (c : ℕ) (throws : Bool) : Network :=
  if throws then s.stop c else s.startOperation (.read c) c

def handleAccept (c : ℕ) (throws : Bool) : Status → Network
  | .success =>
    let s := { s with isOpen := Function.update s.isOpen c true }
    let s := s.startClient c throws
    ({ s with clients := s.clients ++ [c] } : Network).startAccept
  | _ => s.startAccept

def dropUnusedClients : Network := { s with clients := s.clients.filter s.isOpen }

def handleTimer : Status → Network
  | .success => ({ s with pending := s.pending ++ [.timer] } : Network).dropUnusedClients
  | _ => s

def handle (during : List Meanwhile) (throws : Bool) (d : Completion) : Network :=
  match d.operation with
  | .accept c => s.handleAccept c throws d.status
  | .read c => s.handleRead c during throws d.status
  | .write c => s.handleWrite c d.status
  | .timer => s.handleTimer d.status

def step : NetworkEvent → Option Network
  | .completes op status => if s.CanComplete op status then some (s.complete op status) else none
  | .runs during throws =>
    match s.ready with
    | [] => none
    | d :: rest => some (({ s with ready := rest } : Network).handle during throws d)

/-- The server after its constructor. -/
def start : Network := { pending := [.accept 0, .timer], created := 1 }

end Network

end Communicator
