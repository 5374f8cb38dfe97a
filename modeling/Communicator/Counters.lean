import Communicator.Protocol
import Communicator.Lib.Lts

/-!
# The counters on disk

`load_counters`, `save_counters` and `set_last_counter` of `omnicomm/protocol.cpp`. The table is
kept in one file, and a save truncates it and writes it anew. The archive library is a parameter.
-/

namespace Communicator

/-- `boost::archive`: what `<<` writes, what `>>` makes of a file and of the table it reads into,
with `false` if it throws, and whether the first bytes of a written table hold an entry of it. -/
structure Archive where
  write : Counterer → List UInt8
  read : List UInt8 → Counterer → Bool × Counterer
  holds : Counterer → ℕ → UInt32 → Bool

/-- `load_counters` with the file as it is, or none. An exception is only logged. -/
def loadCounters (A : Archive) (file : Option (List UInt8)) (counterer : Counterer) : Counterer :=
  match file with
  | none => counterer
  | some bytes => (A.read bytes counterer).2

/-- What is on disk if `save_counters` gets no further than `n` bytes after it opened the file, or
not as far as that. -/
def saveCountersUntil (A : Archive) (file : Option (List UInt8)) (counterer : Counterer) :
    Option ℕ → Option (List UInt8)
  | none => file
  | some n => some ((A.write counterer).take n)

/-! ## Callers at the same time -/

/-- The table and its file while `set_last_counter` is called by any number of callers. `pending`
holds the callers between the two locks, with the place of their updates in the history. -/
structure Counters (ι : Type) where
  counterer : Counterer
  file : List UInt8
  pending : ι → Option ℕ
  updates : List (UInt32 × UInt32)

inductive CountersEvent (ι : Type)
  | update (i : ι) (controllerId counter : UInt32)
  | save (i : ι)

namespace Counters

variable {ι : Type} [DecidableEq ι] (A : Archive)

def start (counterer : Counterer) : Counters ι :=
  ⟨counterer, A.write counterer, fun _ => none, []⟩

def step (s : Counters ι) : CountersEvent ι → Option (Counters ι)
  | .update i controllerId counter =>
    match s.pending i with
    | some _ => none
    | none => some
      { s with
        counterer := Function.update s.counterer controllerId (some counter)
        pending := Function.update s.pending i (some s.updates.length)
        updates := s.updates ++ [(controllerId, counter)] }
  | .save i =>
    match s.pending i with
    | none => none
    | some _ => some
      { s with
        file := A.write s.counterer
        pending := Function.update s.pending i none }

end Counters

end Communicator
