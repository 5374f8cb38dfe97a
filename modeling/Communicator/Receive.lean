import Communicator.Protocol

/-!
# Sending and receiving bytes

The framing half of `transport_protocol_t`: byte stuffing, `send` and the loop of `recive_impl`.
The loop hands each frame to `process_message`, which is a parameter here: `Handlers` over any
state, with what a call of `stop` does to it.
-/

namespace Communicator

open TransportHeader

inductive StuffState
  | normal
  | possibleStuff
  deriving DecidableEq

structure Receiver where
  state : StuffState := .normal
  buffer : List UInt8 := []
  deriving DecidableEq

/-! ## Sending -/

def stuffByteToBuffer (byte : UInt8) (buffer : List UInt8) : List UInt8 :=
  if byte = 0xC0 then buffer ++ [0xDB] ++ [0xDC]
  else if byte = 0xDB then buffer ++ [0xDB] ++ [0xDD]
  else buffer ++ [byte]

def stuffBytes (data buffer : List UInt8) : List UInt8 :=
  data.foldl (fun buffer byte => stuffByteToBuffer byte buffer) buffer

/-- `send`: the bytes handed to the client, the checksum low byte first. -/
def send : List UInt8 → List UInt8
  | [] => []
  | first :: data =>
    let crc := crc16 data
    stuffByteToBuffer (crc >>> 8).toUInt8
      (stuffByteToBuffer (crc &&& 0xFF).toUInt8 (stuffBytes data [first]))

/-- A message as a device puts it on the wire: a raw delimiter and the rest of the frame stuffed. -/
def TransportMessage.wire (m : TransportMessage) : List UInt8 := stuffBytes m.frame.tail [0xC0]

/-! ## Receiving -/

namespace Receiver

def storeByte (r : Receiver) (byte : UInt8) : Receiver :=
  match r.state with
  | .normal =>
    if byte = 0xDB then { r with state := .possibleStuff }
    else { r with buffer := r.buffer ++ [byte] }
  | .possibleStuff =>
    if byte = 0xDC then ⟨.normal, r.buffer ++ [0xC0]⟩
    else if byte = 0xDD then ⟨.normal, r.buffer ++ [0xDB]⟩
    else ⟨.normal, r.buffer ++ [0xDB] ++ [byte]⟩

def storeData (r : Receiver) (data : List UInt8) : Receiver := data.foldl storeByte r

end Receiver

/-- What `recive_impl` calls: `process_message`, on the bytes from the frame to the end of the
buffer, and `stop`. -/
structure Handlers (σ : Type) where
  processMessage : σ → List UInt8 → Outcome Unit × σ
  stop : σ → σ

/-- A call of `process_message`: where the frame starts in the buffer, its bytes, and how the call
ended. -/
structure Dispatch where
  offset : ℕ
  frame : List UInt8
  outcome : Outcome Unit
  deriving DecidableEq

structure Reception (σ : Type) where
  outcome : Outcome Unit
  state : σ
  receiver : Receiver
  dispatched : List Dispatch
  checksumError : Bool

section ReciveImpl

variable {σ : Type} (H : Handlers σ)

/-- The loop of `recive_impl`. The iterators `start` and `fin` are the bytes from them on; every
turn goes past a frame, and `fuel` counts the turns. What is left when the loop ends is kept from
`fin` on, but an exception leaves the buffer as it was. -/
def reciveLoop (r : Receiver) : ℕ → σ → List UInt8 → List UInt8 → List Dispatch → Reception σ
  | 0, s, _, _, log => ⟨.undefined, s, r, log, false⟩
  | fuel + 1, s, start, fin, log =>
    let start := start.dropWhile (· != 0xC0)
    if start.isEmpty then ⟨.returned (), s, { r with buffer := fin }, log, false⟩
    else if start.length < sizeof then
      ⟨.returned (), s, { r with buffer := fin }, log, false⟩
    else if start.length < getFullLength start then
      ⟨.returned (), s, { r with buffer := fin }, log, false⟩
    else if !checkCrc start then
      ⟨.returned (), H.stop s, { r with buffer := fin }, log, true⟩
    else
      let frame := start.take (getFullLength start)
      let call := H.processMessage s start
      let log := log ++ [⟨r.buffer.length - start.length, frame, call.1⟩]
      match call.1 with
      | .returned _ =>
        let next := start.drop (getFullLength start)
        reciveLoop r fuel call.2 next next log
      | o => ⟨o, call.2, r, log, false⟩

def reciveImpl (s : σ) (r : Receiver) (data : List UInt8) : Reception σ :=
  let r := r.storeData data
  reciveLoop H r (r.buffer.length + 1) s r.buffer r.buffer []

def reciveAll : σ → Receiver → List (List UInt8) → Reception σ
  | s, r, [] => ⟨.returned (), s, r, [], false⟩
  | s, r, chunk :: chunks =>
    let a := reciveImpl H s r chunk
    let b := reciveAll a.state a.receiver chunks
    ⟨b.outcome, b.state, b.receiver, a.dispatched ++ b.dispatched,
      a.checksumError || b.checksumError⟩

/-- What each of a sequence of calls dispatched, exceptions or not, with offsets counted from the
first un-stuffed byte of the connection; `base` is how many of them were erased so far. -/
def reciveCalls : σ → Receiver → ℕ → List (List UInt8) → List (List Dispatch)
  | _, _, _, [] => []
  | s, r, base, chunk :: chunks =>
    let a := reciveImpl H s r chunk
    let log := a.dispatched.map fun d => { d with offset := base + d.offset }
    match a.outcome with
    | .undefined => [log]
    | _ =>
      log :: reciveCalls a.state a.receiver
        (base + ((r.storeData chunk).buffer.length - a.receiver.buffer.length)) chunks

end ReciveImpl

def transportProtocol (E : Env) : Handlers World := ⟨processMessage E, World.stop⟩

end Communicator
