import Communicator.InfoPackage
import Communicator.Backend

/-!
# The transport protocol

The frame handlers of `transport_protocol_t` (`omnicomm/protocol.cpp`). A handler sees the statics
and the backend all connections share and its own connection's members; where it throws, what it
did before stays done.
-/

namespace Communicator

open TransportHeader

inductive ProtocolState
  | waitInitial
  | waitInitialDeleteConfirm
  | processArchive
  | processCurrent
  | waitFinalDeleteConfirm
  deriving DecidableEq

/-- An enqueued message, before its parts are put into one string. -/
structure InfoMessage where
  controlId : UInt32
  firmware : UInt32
  mesNumber : ℤ
  body : Text
  deriving DecidableEq

def InfoMessage.text (m : InfoMessage) : Text :=
  Communicator.text "control_id=\"" ++ unsigned32Text m.controlId
    ++ Communicator.text "\" firmware=\"" ++ unsigned32Text m.firmware
    ++ Communicator.text "\" mes_number=\"" ++ intText m.mesNumber
    ++ Communicator.text "\" " ++ m.body

/-- `counterer_`: the last message number accepted of each controller. -/
abbrev Counterer := UInt32 → Option UInt32

structure Shared where
  counterer : Counterer
  backend : BaseImpl InfoMessage

/-- A connection's own members; `sent` lists what it handed to its client to send, and `stopped`
says whether it called `stop`. -/
structure Session where
  protocolState : ProtocolState := .waitInitial
  controllerId : UInt32 := 0
  firmwareVersion : UInt32 := 0
  sent : List Request := []
  stopped : Bool := false

structure World extends Shared, Session

namespace World

variable (w : World)

def getLastCounter (controllerId : UInt32) : UInt32 := (w.counterer controllerId).getD 0

/-- `set_last_counter`, without the copy on disk. -/
def setLastCounter (controllerId counter : UInt32) : World :=
  { w with counterer := Function.update w.counterer controllerId (some counter) }

def send (r : Request) : World := { w with sent := w.sent ++ [r] }

def stop : World := { w with stopped := true }

def identify (controllerId firmwareVersion : UInt32) : World :=
  { w with controllerId := controllerId, firmwareVersion := firmwareVersion }

def setProtocolState (s : ProtocolState) : World := { w with protocolState := s }

def sendDelete : World :=
  let lastCounter := w.getLastCounter w.controllerId
  if lastCounter ≠ 0 then w.send (.deleteData lastCounter) else w

def sendRequest : World :=
  let message := w.getLastCounter w.controllerId
  w.send (.dataRequest (if message ≠ 0 then message + 1 else message))

def intMax : ℤ := 2147483647

/-- The label of message `i` of a package; `mes_number + i` overflows past the largest `int`. -/
def label (mesNumber : ℤ) (i : ℕ) : Option ℤ :=
  if mesNumber + i ≤ intMax then some (mesNumber + i) else none

/-- The loop of `process_info_messages` from message `i` on. -/
def enqueue (w : World) (mesNumber : ℤ) : ℕ → List Text → Outcome Unit × World
  | _, [] => (.returned (), w)
  | i, body :: rest =>
    match label mesNumber i with
    | none => (.undefined, w)
    | some n =>
      match w.backend.addMessage ⟨w.controllerId, w.firmwareVersion, n, body⟩ with
      | .error e => (.threw e, w)
      | .ok b => enqueue { w with backend := b } mesNumber (i + 1) rest

end World

def World.deletion (w : World) : List Request :=
  if w.getLastCounter w.controllerId = 0 then []
  else [.deleteData (w.getLastCounter w.controllerId)]

theorem World.sendDelete_eq (w : World) :
    w.sendDelete = { w with sent := w.sent ++ w.deletion } := by
  unfold World.sendDelete World.send World.deletion
  split <;> simp_all

/-- `int mes_number = msg.last_mes_number - len`. -/
def firstLabel (lastMesNumber : UInt32) (len : ℕ) : ℤ :=
  (lastMesNumber - UInt32.ofNat len).toInt32.toInt

variable (E : Env) (w : World) (hdr : List UInt8)

def processInfoMessages : Outcome Unit × World :=
  match parseInfoPackage E hdr with
  | .undefined => (.undefined, w)
  | .threw e => (.threw e, w)
  | .returned messages =>
    match DataResponse.lastMesNumber.read hdr with
    | none => (.undefined, w)
    | some last => w.enqueue (firstLabel (UInt32.ofNat last) messages.length) 0 messages

/-- `process_info_messages` and then `set_last_counter`, as both data handlers do. -/
def acceptData : Outcome Unit × World :=
  match processInfoMessages E w hdr with
  | (.returned _, w') =>
    match DataResponse.lastMesNumber.read hdr with
    | none => (.undefined, w')
    | some last => (.returned (), w'.setLastCounter w'.controllerId (UInt32.ofNat last))
  | r => r

def processDeleteConfirmation : Outcome Unit × World :=
  match w.protocolState with
  | .waitInitialDeleteConfirm => (.returned (), w.sendRequest.setProtocolState .processArchive)
  | _ => (.returned (), w)

def processControllerIdent : Outcome Unit × World :=
  if !checkLength ControllerIdent.sizeof hdr then (.threw .wrongMessageSize, w)
  else
    match ControllerIdent.controllerId.read hdr, ControllerIdent.firmwareVersion.read hdr with
    | some id, some firmware =>
      let w := w.identify (UInt32.ofNat id) (UInt32.ofNat firmware)
      if w.getLastCounter w.controllerId = 0 then
        (.returned (), w.sendRequest.setProtocolState .processArchive)
      else (.returned (), w.sendDelete.setProtocolState .waitInitialDeleteConfirm)
    | _, _ => (.undefined, w)

def processArchiveData : Outcome Unit × World :=
  if dataLen hdr = 0 then
    (.returned (), w.sendDelete.setProtocolState .waitFinalDeleteConfirm)
  else if !checkLength DataResponse.sizeof hdr then (.threw .wrongMessageSize, w)
  else acceptData E w hdr

def processCurrentData : Outcome Unit × World :=
  if !checkLength DataResponse.sizeof hdr then (.threw .wrongMessageSize, w)
  else
    match acceptData E w hdr with
    | (.returned _, w') => (.returned (), w'.sendDelete.setProtocolState .waitFinalDeleteConfirm)
    | r => r

/-- The `switch` of `process_message`; a code it does not name is ignored. -/
def dispatch : Outcome Unit × World :=
  if cmd hdr = TmCode.cControllerIdent then processControllerIdent w hdr
  else if cmd hdr = TmCode.cCurrentData then processCurrentData E w hdr
  else if cmd hdr = TmCode.cArchiveData then processArchiveData E w hdr
  else if cmd hdr = TmCode.cDeleteConfirm then processDeleteConfirmation w
  else (.returned (), w)

/-- `process_message`: an exception stops the connection and goes on to the caller. -/
def processMessage : Outcome Unit × World :=
  match dispatch E w hdr with
  | (.threw e, w') => (.threw e, w'.stop)
  | r => r

end Communicator
