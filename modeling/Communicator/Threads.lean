import Communicator.System

/-!
# Two threads

`handle_read` runs in one thread and the storage worker in another. They share the queue, under its
mutex, so the worker's steps fall anywhere between two calls of `add_message` of one read. A turn of
the network thread goes once through the loop of `recive_impl`, as far as the loop of
`process_info_messages` where the frame gets there, or it goes once through that loop.
-/

namespace Communicator

open TransportHeader

/-! ## The data handlers, cut in two -/

/-- Whether the handler of the frame is one that calls `process_info_messages`. -/
def carriesMessages (hdr : List UInt8) : Bool :=
  cmd hdr == TmCode.cCurrentData || cmd hdr == TmCode.cArchiveData && dataLen hdr != 0

/-- Such a handler up to the loop over the messages: `mes_number` and the messages. -/
def beginMessages (E : Env) (hdr : List UInt8) : Outcome (ℤ × List Text) :=
  if !checkLength DataResponse.sizeof hdr then .threw .wrongMessageSize
  else
    match parseInfoPackage E hdr with
    | .undefined => .undefined
    | .threw e => .threw e
    | .returned messages =>
      match DataResponse.lastMesNumber.read hdr with
      | none => .undefined
      | some last => .returned (firstLabel (UInt32.ofNat last) messages.length, messages)

/-- What it does behind the loop. -/
def endMessages (w : World) (hdr : List UInt8) : Option World :=
  match DataResponse.lastMesNumber.read hdr with
  | none => none
  | some last =>
    let w := w.setLastCounter w.controllerId (UInt32.ofNat last)
    if cmd hdr = TmCode.cCurrentData then
      some (w.sendDelete.setProtocolState .waitFinalDeleteConfirm)
    else some w

/-! ## The network thread -/

/-- What is left to do of a `handle_read`: the loop of `recive_impl`, at whose head both iterators
are at `start`, or the loop over the messages of the frame at `hdr`, from message `i` on. -/
inductive Task
  | scanning (start : List UInt8)
  | adding (hdr : List UInt8) (mesNumber : ℤ) (i : ℕ) (rest : List Text)

/-- The server between two steps of its threads. -/
structure Threads (κ : Type) where
  system : System κ
  task : Option (κ × Task) := none

inductive ThreadsEvent (κ : Type)
  | turn
  | system (e : SystemEvent κ)

namespace Threads

variable {κ : Type} [DecidableEq κ] (E : Env) (s : Threads κ) (k : κ)

/-- `handle_read` is over. -/
def leave (w : World) (r : Receiver) : Threads κ := ⟨s.system.put k w r, none⟩

def goOn (w : World) (task : Task) : Threads κ :=
  ⟨s.system.put k w (s.system.peers k).receiver, some (k, task)⟩

/-- `process_message` on the frame at `hdr`, up to the loop over the messages if it gets there. -/
def dispatch (hdr : List UInt8) : Option (Threads κ) :=
  let w := s.system.world k
  if carriesMessages hdr then
    match beginMessages E hdr with
    | .returned (mesNumber, messages) => some (s.goOn k w (.adding hdr mesNumber 0 messages))
    | .threw _ => some (s.leave k w.stop (s.system.peers k).receiver)
    | .undefined => none
  else
    match processMessage E w hdr with
    | (.returned _, w) => some (s.goOn k w (.scanning (hdr.drop (getFullLength hdr))))
    | (.threw _, w) => some (s.leave k w.stop (s.system.peers k).receiver)
    | (.undefined, _) => none

def scan (start : List UInt8) : Option (Threads κ) :=
  let w := s.system.world k
  let r := (s.system.peers k).receiver
  let hdr := start.dropWhile (· != 0xC0)
  if hdr.isEmpty then some (s.leave k w { r with buffer := start })
  else if hdr.length < sizeof then some (s.leave k w { r with buffer := start })
  else if hdr.length < getFullLength hdr then some (s.leave k w { r with buffer := start })
  else if !checkCrc hdr then some (s.leave k w.stop { r with buffer := start })
  else s.dispatch E k hdr

def add (hdr : List UInt8) (mesNumber : ℤ) (i : ℕ) : List Text → Option (Threads κ)
  | [] =>
    (endMessages (s.system.world k) hdr).map fun w =>
      s.goOn k w (.scanning (hdr.drop (getFullLength hdr)))
  | body :: rest =>
    let w := s.system.world k
    match World.label mesNumber i with
    | none => none
    | some n =>
      match w.backend.addMessage ⟨w.controllerId, w.firmwareVersion, n, body⟩ with
      | .error _ => some (s.leave k w.stop (s.system.peers k).receiver)
      | .ok b => some (s.goOn k { w with backend := b } (.adding hdr mesNumber (i + 1) rest))

def turn : Option (Threads κ) :=
  match s.task with
  | none => none
  | some (k, .scanning start) => s.scan E k start
  | some (k, .adding hdr mesNumber i rest) => s.add k hdr mesNumber i rest

/-- The next `handle_read`, up to the loop of `recive_impl`. -/
def read (data : List UInt8) : Option (Threads κ) :=
  match s.task with
  | some _ => none
  | none =>
    let w := s.system.world k
    let r := (s.system.peers k).receiver
    if data.length ≠ 0 ∧ data.length < asyncBufferSize then
      let r := r.storeData data
      if r.buffer.length ≤ maxSize then
        some ⟨s.system.put k w r, some (k, .scanning r.buffer)⟩
      else none
    else some (s.leave k w.stop r)

def step : ThreadsEvent κ → Option (Threads κ)
  | .turn => s.turn E
  | .system (.read k data) => s.read k data
  | .system e => (s.system.step E e).map fun system => { s with system }

/-- The server before its first connection. -/
def start (loaded : Counterer) (maxMessages : ℕ) (oracle : Oracle) : Threads κ :=
  ⟨.start loaded maxMessages oracle, none⟩

end Threads

/-- What the threads are given, without the turns they take. -/
def ThreadsEvent.given {κ : Type} (es : List (ThreadsEvent κ)) : List (SystemEvent κ) :=
  es.filterMap fun
    | .turn => none
    | .system e => some e

end Communicator
