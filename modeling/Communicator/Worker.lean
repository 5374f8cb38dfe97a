import Communicator.Backend
import Communicator.Lib.Lts

/-!
# The storage worker

`base_impl_t::work_proc` as a transition system: the worker's steps interleave with calls of
`add_message` and of `stop`. The virtual functions `begin_batch_impl`, `save_message_impl` and
`end_batch_impl` return or throw at will.
-/

namespace Communicator

/-- Where the worker is. `saving rest` is the head of the loop over the batch with `rest` to go,
`interruptionPoint rest` the point after a message was saved. -/
inductive WorkerPc (μ : Type)
  | sleep
  | beginBatch
  | assign
  | saving (rest : List μ)
  | interruptionPoint (rest : List μ)
  | endBatch
  | left
  deriving DecidableEq

/-- One batch, for the record: what was taken from the queue, what `save_message_impl` was called
with, and what it returned normally for. -/
structure BatchLog (μ : Type) where
  taken : List μ
  called : List μ := []
  stored : List μ := []
  deriving DecidableEq

/-- The queue and the worker. `messages` is the worker's own batch, `log` a history of its batches,
the newest first. -/
structure Worker (μ : Type) where
  queue : BaseImpl μ
  pc : WorkerPc μ := .sleep
  messages : List μ := []
  interruptRequested : Bool := false
  log : List (BatchLog μ) := []
  deriving DecidableEq

inductive WorkerEvent (μ : Type)
  | addMessage (msg : μ)
  | interrupt
  | work (throws : Bool)
  deriving DecidableEq

namespace Worker

variable {μ : Type}

def stored (w : Worker μ) : List μ := w.log.reverse.flatMap (·.stored)

def remaining (w : Worker μ) : List μ :=
  match w.pc with
  | .saving rest => rest
  | .interruptionPoint rest => rest
  | _ => []

def record (msg : μ) (throws : Bool) : List (BatchLog μ) → List (BatchLog μ)
  | [] => []
  | b :: bs =>
    { b with called := b.called ++ [msg],
             stored := if throws then b.stored else b.stored ++ [msg] } :: bs

/-- The worker's step; `throws` says whether the function it calls there throws. -/
def work (w : Worker μ) (throws : Bool) : Option (Worker μ) :=
  match w.pc with
  | .sleep =>
    if w.interruptRequested then some { w with pc := .left, interruptRequested := false }
    else some { w with pc := .beginBatch }
  | .beginBatch => some { w with pc := if throws then .sleep else .assign }
  | .assign =>
    some { w with
      messages := w.queue.messages
      queue := { w.queue with messages := [] }
      pc := if w.queue.messages.isEmpty then .endBatch else .saving w.queue.messages
      log := { taken := w.queue.messages } :: w.log }
  | .saving [] => some { w with pc := .endBatch }
  | .saving (msg :: rest) =>
    some { w with
      pc := if throws then .sleep else .interruptionPoint rest
      log := record msg throws w.log }
  | .interruptionPoint rest =>
    -- the inner `catch (...)` takes `thread_interrupted` too, and the loop goes on
    if w.interruptRequested then some { w with pc := .sleep, interruptRequested := false }
    else some { w with pc := .saving rest }
  | .endBatch => some { w with pc := .sleep }
  | .left => none

def step (w : Worker μ) : WorkerEvent μ → Option (Worker μ)
  | .addMessage msg =>
    match w.queue.addMessage msg with
    | .ok q => some { w with queue := q }
    | .error _ => some w
  | .interrupt => some { w with interruptRequested := true }
  | .work throws => w.work throws

/-- A worker that has just started, with the queue as the connections left it so far. -/
def start (maxMessages : ℕ) (messages : List μ) : Worker μ :=
  { queue := { maxMessages, messages, accepted := messages } }

/-! ## The steps, case by case -/

inductive WorkStep (w : Worker μ) (throws : Bool) : Worker μ → Prop
  | wake (pc : w.pc = .sleep) (quiet : w.interruptRequested = false) :
      WorkStep w throws { w with pc := .beginBatch }
  | leave (pc : w.pc = .sleep) (requested : w.interruptRequested = true) :
      WorkStep w throws { w with pc := .left, interruptRequested := false }
  | begun (pc : w.pc = .beginBatch) :
      WorkStep w throws { w with pc := if throws then .sleep else .assign }
  | taken (pc : w.pc = .assign) :
      WorkStep w throws { w with
        messages := w.queue.messages
        queue := { w.queue with messages := [] }
        pc := if w.queue.messages.isEmpty then .endBatch else .saving w.queue.messages
        log := { taken := w.queue.messages } :: w.log }
  | loopEnd (pc : w.pc = .saving []) : WorkStep w throws { w with pc := .endBatch }
  | saved (msg : μ) (rest : List μ) (pc : w.pc = .saving (msg :: rest)) :
      WorkStep w throws { w with
        pc := if throws then .sleep else .interruptionPoint rest
        log := record msg throws w.log }
  | interrupted (rest : List μ) (pc : w.pc = .interruptionPoint rest)
      (requested : w.interruptRequested = true) :
      WorkStep w throws { w with pc := .sleep, interruptRequested := false }
  | resumed (rest : List μ) (pc : w.pc = .interruptionPoint rest)
      (quiet : w.interruptRequested = false) :
      WorkStep w throws { w with pc := .saving rest }
  | ended (pc : w.pc = .endBatch) : WorkStep w throws { w with pc := .sleep }

theorem work_cases {w w' : Worker μ} {throws : Bool} (h : w.work throws = some w') :
    WorkStep w throws w' := by
  unfold work at h
  cases hpc : w.pc with
  | sleep =>
    rw [hpc] at h
    by_cases hq : w.interruptRequested = true
    · obtain rfl := Option.some.inj ((if_pos hq).symm.trans h)
      exact .leave hpc hq
    · obtain rfl := Option.some.inj ((if_neg hq).symm.trans h)
      exact .wake hpc (Bool.eq_false_iff.2 hq)
  | beginBatch =>
    rw [hpc] at h
    obtain rfl := Option.some.inj h
    exact .begun hpc
  | assign =>
    rw [hpc] at h
    obtain rfl := Option.some.inj h
    exact .taken hpc
  | saving rest =>
    rw [hpc] at h
    cases rest with
    | nil =>
      obtain rfl := Option.some.inj h
      exact .loopEnd hpc
    | cons msg rest =>
      obtain rfl := Option.some.inj h
      exact .saved msg rest hpc
  | interruptionPoint rest =>
    rw [hpc] at h
    by_cases hq : w.interruptRequested = true
    · obtain rfl := Option.some.inj ((if_pos hq).symm.trans h)
      exact .interrupted rest hpc hq
    · obtain rfl := Option.some.inj ((if_neg hq).symm.trans h)
      exact .resumed rest hpc (Bool.eq_false_iff.2 hq)
  | endBatch =>
    rw [hpc] at h
    obtain rfl := Option.some.inj h
    exact .ended hpc
  | left =>
    rw [hpc] at h
    cases h

theorem addMessage_cases {w w' : Worker μ} {msg : μ} (h : w.step (.addMessage msg) = some w') :
    w' = { w with queue := w.queue.append [msg] } ∨ w' = w := by
  simp only [step] at h
  by_cases hroom : w.queue.messages.length < w.queue.maxMessages
  · rw [BaseImpl.addMessage_room hroom] at h
    exact .inl (Option.some.inj h).symm
  · rw [BaseImpl.addMessage_full (Nat.not_lt.1 hroom)] at h
    exact .inr (Option.some.inj h).symm

end Worker

end Communicator
