import Communicator.Protocol
import Communicator.Lib.Lts

/-!
# A device and its connections

A device keeps numbered records and answers the server's requests one after the other; its frames
reach the server in order. A frame whose handler throws stays in the server's buffer, and with it
the frames before it that were not dropped yet: all of them are handed over again by the next
read, if there is one. Other connections and the worker change what they share with this one at
any time, but not what belongs to the controller.
-/

namespace Communicator

structure Device where
  controllerId : UInt32
  firstRecord : ℕ
  record : ℕ → List UInt8

structure Package (D : Device) where
  first : ℕ
  count : ℕ
  time : UInt32
  priority : UInt8
  count_pos : 0 < count
  last_lt : first + count ≤ 2 ^ 32
  length_lt : (toLe 4 (first + count - 1) ++ toLe 4 time.toNat ++ [priority]
    ++ (List.range' first count).flatMap fun i =>
      toLe 2 (D.record i).length ++ D.record i).length < 65536

variable {D : Device}

namespace Package

variable (p : Package D)

def last : ℕ := p.first + p.count - 1

def numbers : List ℕ := List.range' p.first p.count

def data : List UInt8 :=
  toLe 4 p.last ++ toLe 4 p.time.toNat ++ [p.priority]
    ++ p.numbers.flatMap fun i => toLe 2 (D.record i).length ++ D.record i

def message (cmd : UInt8) : TransportMessage := ⟨cmd, p.data, p.length_lt⟩

end Package

theorem empty_length_lt : ([] : List UInt8).length < 65536 := by
  decide

theorem word_length_lt (n : UInt32) : (toLe 4 n.toNat).length < 65536 := by
  simp

theorem two_words_length_lt (n n' : UInt32) :
    (toLe 4 n.toNat ++ toLe 4 n'.toNat).length < 65536 := by
  simp

inductive Frame (D : Device)
  | ident (firmware : UInt32)
  | confirm (mesNumber : UInt32)
  | archive (p : Package D)
  | archiveEnd
  | current (p : Package D)

def Frame.message : Frame D → TransportMessage
  | .ident firmware =>
    ⟨TmCode.cControllerIdent, toLe 4 D.controllerId.toNat ++ toLe 4 firmware.toNat,
      two_words_length_lt _ _⟩
  | .confirm mesNumber => ⟨TmCode.cDeleteConfirm, toLe 4 mesNumber.toNat, word_length_lt mesNumber⟩
  | .archive p => p.message TmCode.cArchiveData
  | .archiveEnd => ⟨TmCode.cArchiveData, [], empty_length_lt⟩
  | .current p => p.message TmCode.cCurrentData

def Frame.numbers : Frame D → List ℕ
  | .archive p => p.numbers
  | .current p => p.numbers
  | _ => []

/-- The server and one device. `past` and `todo` are the frames handed over and not dropped yet,
and those still to come; `newest` is the device's last record, `next` the one a download has come
to, and `answered` counts the requests it has answered. `received` lists the records of every data
frame whose handler returned. -/
structure Link (D : Device) where
  world : World
  past : List (Frame D) := []
  todo : List (Frame D) := []
  newest : ℕ
  next : Option ℕ := none
  answered : ℕ := 0
  received : List ℕ := []

inductive LinkEvent (D : Device)
  | connect (firmware : UInt32)
  | record
  | answer
  | archive (p : Package D)
  | archiveEnd
  | current (p : Package D)
  | deliver
  | drop
  | others (counterer : Counterer) (messages new : List InfoMessage)

namespace Link

/-- A new connection, on which the device first identifies itself. -/
def connect (s : Link D) (firmware : UInt32) : Link D :=
  { s with
    world := { toShared := s.world.toShared }
    past := []
    todo := [.ident firmware]
    next := none
    answered := 0 }

def start (shared : Shared) (newest : ℕ) (firmware : UInt32) : Link D :=
  { world := { toShared := shared }, todo := [.ident firmware], newest := newest }

def post (s : Link D) (f : Frame D) : Link D := { s with todo := s.todo ++ [f] }

def answer (s : Link D) : Option (Link D) :=
  match s.world.sent[s.answered]? with
  | none => none
  | some (.deleteData n) => some { s.post (.confirm n) with answered := s.answered + 1 }
  | some (.dataRequest n) =>
    some { s with
      answered := s.answered + 1
      next := some (if n = 0 then D.firstRecord else n.toNat) }

def deliver (E : Env) (s : Link D) : Option (Link D) :=
  match s.todo with
  | [] => none
  | f :: rest =>
    match processMessage E s.world f.message.frame with
    | (.returned _, w) =>
      some { s with
        world := w
        past := s.past ++ [f]
        todo := rest
        received := s.received ++ f.numbers }
    | (.threw _, w) => some { s with world := w, past := [], todo := s.past ++ f :: rest }
    | (.undefined, _) => none

def step (E : Env) (s : Link D) : LinkEvent D → Option (Link D)
  | .connect firmware => some (s.connect firmware)
  | .record => some { s with newest := s.newest + 1 }
  | .answer => s.answer
  | .archive p =>
    if s.next = some p.first ∧ p.last ≤ s.newest then
      some { s.post (.archive p) with next := some (p.first + p.count) }
    else none
  | .archiveEnd => if s.next.isSome then some (s.post .archiveEnd) else none
  | .current p => if p.last = s.newest then some (s.post (.current p)) else none
  | .deliver => s.deliver E
  | .drop => some { s with past := [] }
  | .others counterer messages new =>
    if counterer D.controllerId = s.world.counterer D.controllerId
        ∧ ∀ m ∈ new, m.controlId ≠ D.controllerId then
      some { s with world := { s.world with
        counterer := counterer
        backend := { s.world.backend with
          messages := messages
          accepted := s.world.backend.accepted ++ new } } }
    else none

end Link

end Communicator
