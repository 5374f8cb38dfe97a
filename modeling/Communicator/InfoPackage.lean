import Communicator.TransportMessages
import Communicator.Message
import Communicator.Outcome

/-!
# Info packages

`parse_info_package` of `omnicomm/info_package.cpp`: the data of an archive or current-data frame
is a chain of blocks, each a two-byte length and a protobuf message. The generated protobuf parser
and the printing of floating-point numbers are parameters.
-/

namespace Communicator

open TransportHeader DataResponse

/-- What the server calls outside its own sources: `RecReg::ParseFromArray`, with the message it
leaves behind, and the stream's number formats. -/
structure Env where
  parseFromArray : List UInt8 → Bool × RecReg
  formats : Formats

variable (E : Env)

/-- The messages one block yields. A block that does not parse is only logged, and the events of
the message the parser left behind are taken. -/
def blockMessages (block : List UInt8) : List Text :=
  eventTexts E.formats (E.parseFromArray block).2

/-- The loop of `parse_info_package` at index `i`, which counts bytes of the buffer and so never
wraps; every turn but the last goes forward by two bytes, and `fuel` counts the turns. -/
def parseLoop (hdr : List UInt8) (imDataSize : ℕ) : ℕ → ℕ → List Text → Outcome (List Text)
  | 0, _, _ => .undefined
  | fuel + 1, i, messages =>
    if i < imDataSize then
      match Member.read ⟨imData + i, 2⟩ hdr with
      | none => .undefined
      | some dataSize =>
        if imDataSize < i + (dataSize + 2) then .threw .unexpectedEnd
        else
          match bytesAt hdr (imData + i + 2) dataSize with
          | none => .undefined
          | some block =>
            parseLoop hdr imDataSize fuel (i + (dataSize + 2)) (messages ++ blockMessages E block)
    else .returned messages

/-- `parse_info_package` of a frame, with a turn for each byte of the buffer and one to end. -/
def parseInfoPackage (hdr : List UInt8) : Outcome (List Text) :=
  parseLoop E hdr (getImLength hdr) (hdr.length + 1) 0 []

end Communicator
