import Communicator.Outcome
import Mathlib.Data.List.Basic

/-!
# The storage backend

`base_impl_t` of `backends/base.cpp`: the bounded queue the connections add to and the worker
drains. A message is whatever the queue holds.
-/

namespace Communicator

/-- The queue. `accepted` is a history of every message `add_message` took, in order. -/
structure BaseImpl (μ : Type) where
  maxMessages : ℕ
  messages : List μ
  accepted : List μ
  deriving DecidableEq

namespace BaseImpl

variable {μ : Type}

def addMessage (b : BaseImpl μ) (msg : μ) : Except Fault (BaseImpl μ) :=
  if b.maxMessages ≤ b.messages.length then .error .capacityExceeded
  else .ok { b with messages := b.messages ++ [msg], accepted := b.accepted ++ [msg] }

theorem addMessage_full {b : BaseImpl μ} (h : b.maxMessages ≤ b.messages.length) (msg : μ) :
    b.addMessage msg = .error .capacityExceeded := if_pos h

theorem addMessage_room {b : BaseImpl μ} (h : b.messages.length < b.maxMessages) (msg : μ) :
    b.addMessage msg
      = .ok { b with messages := b.messages ++ [msg], accepted := b.accepted ++ [msg] } :=
  if_neg (Nat.not_le.2 h)

def append (b : BaseImpl μ) (msgs : List μ) : BaseImpl μ :=
  { b with messages := b.messages ++ msgs, accepted := b.accepted ++ msgs }

@[simp]
theorem append_messages (b : BaseImpl μ) (msgs : List μ) :
    (b.append msgs).messages = b.messages ++ msgs := rfl

@[simp]
theorem append_accepted (b : BaseImpl μ) (msgs : List μ) :
    (b.append msgs).accepted = b.accepted ++ msgs := rfl

@[simp]
theorem append_maxMessages (b : BaseImpl μ) (msgs : List μ) :
    (b.append msgs).maxMessages = b.maxMessages := rfl

@[simp]
theorem append_nil (b : BaseImpl μ) : b.append [] = b := by
  simp [append]

theorem append_append (b : BaseImpl μ) (xs ys : List μ) :
    (b.append xs).append ys = b.append (xs ++ ys) := by
  simp [append]

end BaseImpl

end Communicator
