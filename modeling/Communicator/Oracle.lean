import Communicator.Protocol

/-!
# The stored text

What `oracle_t::save_message_impl` of `backends/oracle.cpp` puts into the table for a message.
-/

namespace Communicator

/-- `std::string(s.c_str())`: the bytes in front of the first zero. -/
def cString (s : Text) : Text := s.takeWhile (· ≠ 0)

/-- The value bound to the statement; the stream's text is handed over as a C string. -/
def storedText (msg : Text) : Text := cString (text "<Message " ++ msg ++ text "/>")

end Communicator
