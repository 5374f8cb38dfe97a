import Communicator.Protocol
import Communicator.Lib.Lts

/-!
# Many connections

The connections share the counter table and the backend; each has its own session. Their frames
come in any order, with anything behind them in the buffer, and each handler runs to its end before
the next one starts. The worker takes the queue at any time.
-/

namespace Communicator

open TransportHeader

/-- A frame where `recive_impl` hands it over, and what the buffer holds behind it. -/
structure Incoming where
  message : TransportMessage
  rest : List UInt8
  length_lt : (message.frame ++ rest).length < 2 ^ 63

namespace Incoming

variable (f : Incoming)

def bytes : List UInt8 := f.message.frame ++ f.rest

def IsData : Prop := f.message.cmd = TmCode.cCurrentData ∨ f.message.cmd = TmCode.cArchiveData

instance : Decidable f.IsData := inferInstanceAs (Decidable (_ ∨ _))

/-- The handler of an identification takes the frame for one. -/
def Identifies : Prop :=
  f.message.cmd = TmCode.cControllerIdent ∧ checkLength ControllerIdent.sizeof f.bytes = true

instance : Decidable f.Identifies := inferInstanceAs (Decidable (_ ∧ _))

def IsConfirm : Prop := f.message.cmd = TmCode.cDeleteConfirm

instance : Decidable f.IsConfirm := inferInstanceAs (Decidable (_ = _))

def controllerId : UInt32 :=
  UInt32.ofNat ((ControllerIdent.controllerId.read f.bytes).getD 0)

end Incoming

/-- A data frame that was accepted: for which controller, its package, and how many messages the
queue had taken before. -/
structure Acceptance where
  controllerId : UInt32
  last : UInt32
  texts : List Text
  before : ℕ
  deriving DecidableEq

/-- `received` is a history of the data frames whose handler returned. -/
structure Server (κ : Type) where
  shared : Shared
  sessions : κ → Session
  received : List Acceptance

inductive ServerEvent (κ : Type)
  | frame (k : κ) (f : Incoming)
  | take

/-- What the history gains when the handler of a frame returned. -/
def Incoming.acceptance (E : Env) (w : World) (f : Incoming) : List Acceptance :=
  if f.IsData ∧ f.message.data ≠ [] then
    match parseInfoPackage E f.bytes, DataResponse.lastMesNumber.read f.bytes with
    | .returned texts, some last =>
      [⟨w.controllerId, UInt32.ofNat last, texts, w.backend.accepted.length⟩]
    | _, _ => []
  else []

namespace Server

variable {κ : Type} [DecidableEq κ] (E : Env) (s : Server κ)

/-- The server before its first connection, with the counters it loaded. -/
def start (shared : Shared) : Server κ := ⟨shared, fun _ => {}, []⟩

/-- What the handlers of a connection see. -/
def world (k : κ) : World := ⟨s.shared, s.sessions k⟩

def put (k : κ) (w : World) (received : List Acceptance) : Server κ :=
  ⟨w.toShared, Function.update s.sessions k w.toSession, s.received ++ received⟩

def takeMessages : Server κ :=
  { s with shared := { s.shared with backend := { s.shared.backend with messages := [] } } }

def step : ServerEvent κ → Option (Server κ)
  | .frame k f =>
    match processMessage E (s.world k) f.bytes with
    | (.returned _, w) => some (s.put k w (f.acceptance E (s.world k)))
    | (.threw _, w) => some (s.put k w [])
    | (.undefined, _) => none
  | .take => some s.takeMessages

end Server

end Communicator
