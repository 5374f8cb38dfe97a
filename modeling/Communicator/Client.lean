import Communicator.Outcome
import Mathlib.Data.List.Basic

/-!
# The network client

`client_t::handle_read` of `client.cpp`. The protocol a client passes its data to is a parameter.
-/

namespace Communicator

def asyncBufferSize : ℕ := 8192

/-- What `protocol_base_t::recive` did: how it ended and whether it called `stop`. -/
structure Reply (σ : Type) where
  outcome : Outcome Unit
  stopped : Bool
  impl : σ

/-- A client with its protocol's state. `reading` says whether a read is outstanding, `delivered`
is a history of what `recive` was given. -/
structure Client (σ : Type) where
  isOpen : Bool := true
  reading : Bool := true
  permBuffer : List UInt8 := []
  impl : σ
  delivered : List (List UInt8) := []

inductive ReadResult
  | success (data : List UInt8)
  | operationAborted
  | failure

namespace Client

variable {σ : Type} (recive : σ → List UInt8 → Reply σ)

def stop (c : Client σ) : Client σ := { c with isOpen := false }

/-- The call of `recive` on what was read; the handler catches what it throws and stops. -/
def passOn (c : Client σ) : Client σ :=
  let r := recive c.impl c.permBuffer
  let c := { c with impl := r.impl, delivered := c.delivered ++ [c.permBuffer],
                    isOpen := c.isOpen && !r.stopped }
  match r.outcome with
  | .returned _ => c
  | _ => c.stop

def handleRead (c : Client σ) : ReadResult → Client σ
  | .success data =>
    let c := { c with reading := false }
    if data.length ≠ 0 ∧ data.length < asyncBufferSize then
      let c := { c with permBuffer := data, reading := true }
      if c.permBuffer.isEmpty then c else c.passOn recive
    else c.stop
  | .operationAborted => { c with reading := false }
  | .failure => { c with reading := false }.stop

def handleReads : Client σ → List (List UInt8) → Client σ
  | c, [] => c
  | c, data :: rest =>
    if c.reading then handleReads (c.handleRead recive (.success data)) rest else c

end Client

end Communicator
