import Communicator.Oracle
import Communicator.Worker

/-!
# The Oracle backend

`oracle_t` of `backends/oracle.cpp` with the database behind it. A row that is inserted belongs to
the open transaction of the session until a commit, and sessions can be lost at any time. How the
calls of the client library end is up to the run.
-/

namespace Communicator

/-- A session: the rows its transaction inserted, and whether the server still knows it. -/
structure Connection where
  inserted : List Text := []
  alive : Bool := true
  deriving DecidableEq

/-- `connection_`, null or not, and the rows of the table `omnicomm` other sessions see. -/
structure Oracle where
  connection : Option Connection := none
  table : List Text := []
  deriving DecidableEq

/-- Which calls of the client library return: `createConnection`, the check query with its 1, the
insertion and the commit. `closing` says whether closing a session commits its transaction, and
`inDoubt` whether a commit that throws has happened on the server all the same. -/
structure Answers where
  created : Bool := true
  checked : Bool := true
  executed : Bool := true
  committed : Bool := true
  closing : Bool := false
  inDoubt : Bool := false

namespace Oracle

/-- `connection_.reset()`. -/
def reset (d : Oracle) (a : Answers) : Oracle :=
  match d.connection with
  | none => d
  | some c => ⟨none, if c.alive && a.closing then d.table ++ c.inserted else d.table⟩

/-- `open_connection`: whether it throws, and the backend after it. -/
def openConnection (d : Oracle) (a : Answers) : Bool × Oracle :=
  match if d.connection.isNone && a.created then some {} else d.connection with
  | none => (true, d)
  | some c =>
    let d := { d with connection := some c }
    if c.alive && a.checked then (false, d) else (true, d.reset a)

/-- `save_message_impl`, or `none` where it goes through a null pointer. -/
def saveMessageImpl (d : Oracle) (a : Answers) (msg : Text) : Option (Bool × Oracle) :=
  match d.connection with
  | none => none
  | some c =>
    if c.alive && a.executed then
      let c := { c with inserted := c.inserted ++ [storedText msg] }
      some (false, { d with connection := some c })
    else some (true, d)

/-- `end_batch_impl`, or `none` where it goes through a null pointer. -/
def endBatchImpl (d : Oracle) (a : Answers) : Option (Bool × Oracle) :=
  match d.connection with
  | none => none
  | some c =>
    if c.alive && a.committed then some (false, ⟨some ⟨[], true⟩, d.table ++ c.inserted⟩)
    else if c.alive && a.inDoubt then some (true, ⟨some ⟨[], false⟩, d.table ++ c.inserted⟩)
    else some (true, d)

/-- The server ends the session and rolls its transaction back. -/
def lose (d : Oracle) : Oracle := { d with connection := d.connection.map fun _ => ⟨[], false⟩ }

/-- The constructor: with `test_connection` it opens the connection, or throws. -/
def create (testConnection : Bool) (a : Answers) : Bool × Oracle :=
  if testConnection then openConnection {} a else (false, {})

end Oracle

/-- The storage worker with the Oracle backend. -/
structure Database (μ : Type) where
  worker : Worker μ
  oracle : Oracle
  deriving DecidableEq

inductive DatabaseEvent (μ : Type)
  | addMessage (msg : μ)
  | interrupt
  | work (a : Answers)
  | lose

namespace Database

variable {μ : Type} (render : μ → Text)

/-- The virtual function the worker's next step calls: `none` for a null pointer. The text of a
message is what `render` puts together. -/
def call (s : Database μ) (a : Answers) : Option (Bool × Oracle) :=
  match s.worker.pc with
  | .beginBatch => some (s.oracle.openConnection a)
  | .saving (msg :: _) => s.oracle.saveMessageImpl a (render msg)
  | .endBatch => s.oracle.endBatchImpl a
  | _ => some (false, s.oracle)

def step (s : Database μ) : DatabaseEvent μ → Option (Database μ)
  | .addMessage msg => (s.worker.step (.addMessage msg)).map fun w => { s with worker := w }
  | .interrupt => (s.worker.step .interrupt).map fun w => { s with worker := w }
  | .work a => (s.call render a).bind fun r => (s.worker.work r.1).map fun w => ⟨w, r.2⟩
  | .lose => some { s with oracle := s.oracle.lose }

/-- A worker that has just started on a backend that was constructed. -/
def start (maxMessages : ℕ) (messages : List μ) (oracle : Oracle) : Database μ :=
  ⟨Worker.start maxMessages messages, oracle⟩

end Database

end Communicator
