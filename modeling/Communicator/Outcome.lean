/-!
# How a call ends

A call returns, leaves by an exception, or does what the language gives no meaning to: reads past
the end of a buffer, overflows an `int`.
-/

namespace Communicator

inductive Fault
  | wrongMessageSize
  | unexpectedEnd
  | capacityExceeded
  deriving DecidableEq

/-- `std::exception::what`: the first two are a `length_error`, the last an `overflow_error`. -/
def Fault.what : Fault → String
  | .wrongMessageSize => "Wrong message size"
  | .unexpectedEnd => "Unexpected end of information message data block"
  | .capacityExceeded => "Message buffer capacity exceeded"

inductive Outcome (α : Type)
  | returned (a : α)
  | threw (e : Fault)
  | undefined
  deriving DecidableEq

end Communicator
