import Communicator.Client
import Communicator.Receive
import Communicator.Server
import Communicator.Database

/-!
# The whole server

All connections with the bytes they are sent, the counters and the queue they share, and the
storage worker with its database. `handle_read` of one connection runs to its end before anything
else happens; in which order the connections, the worker and the database act is up to the run.
-/

namespace Communicator

/-- A connection: its receive buffer and its other members. -/
structure Peer where
  receiver : Receiver := {}
  session : Session := {}

structure System (κ : Type) where
  counterer : Counterer
  peers : κ → Peer
  database : Database InfoMessage

inductive SystemEvent (κ : Type)
  | read (k : κ) (data : List UInt8)
  | work (a : Answers)
  | interrupt
  | lose

/-- No `std::vector` of bytes holds more. -/
def maxSize : ℕ := 2 ^ 63 - 1

namespace System

variable {κ : Type} [DecidableEq κ] (E : Env) (s : System κ)

def shared : Shared := ⟨s.counterer, s.database.worker.queue⟩

/-- What the handlers of a connection see. -/
def world (k : κ) : World := ⟨s.shared, (s.peers k).session⟩

def put (k : κ) (w : World) (r : Receiver) : System κ where
  counterer := w.counterer
  peers := Function.update s.peers k ⟨r, w.toSession⟩
  database := { s.database with worker := { s.database.worker with queue := w.backend } }

/-- `client_t::handle_read` on what a read put into the buffer of the client; it stops the client
where anything throws. -/
def handleRead (k : κ) (data : List UInt8) : Option (System κ) :=
  if data.length ≠ 0 ∧ data.length < asyncBufferSize then
    if ((s.peers k).receiver.storeData data).buffer.length ≤ maxSize then
      let a := reciveImpl (transportProtocol E) (s.world k) (s.peers k).receiver data
      match a.outcome with
      | .returned _ => some (s.put k a.state a.receiver)
      | .threw _ => some (s.put k a.state.stop a.receiver)
      | .undefined => none
    else none
  else some (s.put k (s.world k).stop (s.peers k).receiver)

def store (e : DatabaseEvent InfoMessage) : Option (System κ) :=
  (s.database.step InfoMessage.text e).map fun d => { s with database := d }

def step : SystemEvent κ → Option (System κ)
  | .read k data => s.handleRead E k data
  | .work a => s.store (.work a)
  | .interrupt => s.store .interrupt
  | .lose => s.store .lose

/-- The server before its first connection, with the counters it loaded and the backend it
constructed. -/
def start (loaded : Counterer) (maxMessages : ℕ) (oracle : Oracle) : System κ :=
  ⟨loaded, fun _ => {}, .start maxMessages [] oracle⟩

end System

end Communicator
