import Communicator.Worker
import Mathlib.Data.List.Flatten

/-!
# The batches of the storage worker

A batch is what one iteration takes from the queue, and its messages are saved in order until the
loop ends, a save throws or the interruption point after a save throws. The next iteration takes a
new batch whatever became of the last, so no message is saved twice.
-/

namespace Communicator

namespace Worker

variable {μ : Type}

/-- What the loop over the batch still has to save, while the worker is in it. -/
def ahead (w : Worker μ) : Option (List μ) :=
  match w.pc with
  | .saving rest => some rest
  | .interruptionPoint rest => some rest
  | _ => none

/-- What the step calls `save_message_impl` with. -/
def savedBy (w : Worker μ) : WorkerEvent μ → List μ
  | .work _ =>
    match w.pc with
    | .saving (msg :: _) => [msg]
    | _ => []
  | _ => []

/-- One flag for each batch, the newest first: an interruption occurred in it. -/
def markCut (w : Worker μ) (cut : List Bool) : WorkerEvent μ → List Bool
  | .work _ =>
    match w.pc with
    | .assign => false :: cut
    | .interruptionPoint _ => if w.interruptRequested then true :: cut.tail else cut
    | _ => cut
  | _ => cut

end Worker

/-- A worker with two histories: the calls of `save_message_impl` in order, and which batches an
interruption cut off. -/
structure Watched (μ : Type) where
  worker : Worker μ
  calls : List μ := []
  cut : List Bool := []

namespace Watched

open Worker

variable {μ : Type}

def step (v : Watched μ) (e : WorkerEvent μ) : Option (Watched μ) :=
  (v.worker.step e).map fun w =>
    ⟨w, v.calls ++ v.worker.savedBy e, v.worker.markCut v.cut e⟩

def start (maxMessages : ℕ) (messages : List μ) : Watched μ :=
  { worker := Worker.start maxMessages messages }

structure InOrder (v : Watched μ) : Prop where
  handedOver : v.worker.queue.accepted
    = v.worker.log.reverse.flatMap (·.taken) ++ v.worker.queue.messages
  byBatch : v.calls = v.worker.log.reverse.flatMap (·.called)
  isPrefix : ∀ b ∈ v.worker.log, b.called <+: b.taken
  whole : ∀ i b, v.worker.log[i]? = some b → b.called = b.taken ∨ i = 0 ∧ v.worker.ahead.isSome
    ∨ b.stored ≠ b.called ∨ v.cut[i]? = some true
  once : v.calls.Sublist v.worker.queue.accepted

/-- `InOrder` without what follows, and with what the loop still has to go. -/
structure Held (v : Watched μ) : Prop where
  handedOver : v.worker.queue.accepted
    = v.worker.log.reverse.flatMap (·.taken) ++ v.worker.queue.messages
  byBatch : v.calls = v.worker.log.reverse.flatMap (·.called)
  batch : ∀ b ∈ v.worker.log, b.called <+: b.taken ∧ b.stored.Sublist b.called
  whole : ∀ i b, v.worker.log[i]? = some b → b.called = b.taken ∨ i = 0 ∧ v.worker.ahead.isSome
    ∨ b.stored ≠ b.called ∨ v.cut[i]? = some true
  current : ∀ rest, v.worker.ahead = some rest → ∃ b bs c cs, v.worker.log = b :: bs
    ∧ v.cut = c :: cs ∧ b.taken = b.called ++ rest

theorem Held.inOrder {v : Watched μ} (h : Held v) : InOrder v where
  handedOver := h.handedOver
  byBatch := h.byBatch
  isPrefix := fun b hb => (h.batch b hb).1
  whole := h.whole
  once := by
    have hsub : (v.worker.log.reverse.flatMap (·.called)).Sublist
        (v.worker.log.reverse.flatMap (·.taken)) :=
      List.Sublist.flatMap_right _ fun b hb => (h.batch b (List.mem_reverse.1 hb)).1.sublist
    rw [h.byBatch, h.handedOver]
    exact hsub.trans (List.sublist_append_left _ _)

theorem held_start (maxMessages : ℕ) (messages : List μ) :
    Held (start maxMessages messages) where
  handedOver := rfl
  byBatch := rfl
  batch := by simp [start, Worker.start]
  whole := by simp [start, Worker.start]
  current := by simp [start, Worker.start, ahead]

/-- A step that leaves the queue, the log and what is ahead as they are. -/
theorem Held.congr {v : Watched μ} {w : Worker μ} (h : Held v)
    (hq : w.queue = v.worker.queue) (hl : w.log = v.worker.log)
    (ha : w.ahead = v.worker.ahead) : Held ⟨w, v.calls, v.cut⟩ where
  handedOver := by rw [hq, hl, h.handedOver]
  byBatch := by rw [hl, h.byBatch]
  batch := by rw [hl]; exact h.batch
  whole := by rw [hl, ha]; exact h.whole
  current := by rw [hl, ha]; exact h.current

/-- The loop is left, with the batch at hand saved or its end explained. -/
theorem Held.leaveLoop {v : Watched μ} {w : Worker μ} {cut : List Bool} (h : Held v)
    (hq : w.queue = v.worker.queue) (hl : w.log = v.worker.log) (ha : w.ahead = none)
    (hcut : ∀ i, cut[i + 1]? = v.cut[i + 1]?)
    (hhead : ∀ b, v.worker.log[0]? = some b →
      b.called = b.taken ∨ b.stored ≠ b.called ∨ cut[0]? = some true) :
    Held ⟨w, v.calls, cut⟩ where
  handedOver := by rw [hq, hl, h.handedOver]
  byBatch := by rw [hl, h.byBatch]
  batch := by rw [hl]; exact h.batch
  whole := by
    rw [hl, ha]
    rintro (_ | i) b hb
    · exact (hhead b hb).imp_right .inr
    · rw [hcut]
      rcases h.whole (i + 1) b hb with hw | ⟨h0, -⟩ | hw
      · exact .inl hw
      · exact absurd h0 (Nat.succ_ne_zero i)
      · exact .inr (.inr hw)
  current := by simp [ha]

theorem Held.taken {v : Watched μ} {w : Worker μ} (h : Held v) (ha : v.worker.ahead = none)
    (hq : w.queue = { v.worker.queue with messages := [] })
    (hl : w.log = { taken := v.worker.queue.messages } :: v.worker.log)
    (hw : w.ahead = if v.worker.queue.messages.isEmpty then none
      else some v.worker.queue.messages) :
    Held ⟨w, v.calls, false :: v.cut⟩ where
  handedOver := by
    rw [hq, hl]
    simp [h.handedOver]
  byBatch := by
    rw [hl]
    simp [h.byBatch]
  batch := by
    rw [hl]
    simpa using h.batch
  whole := by
    rw [hl, hw]
    rintro (_ | i) b hb
    · obtain rfl := Option.some.inj hb
      by_cases he : v.worker.queue.messages = []
      · exact .inl he.symm
      · exact .inr (.inl ⟨rfl, by simp [he]⟩)
    · rcases h.whole i b hb with hw | ⟨-, hsome⟩ | hw
      · exact .inl hw
      · simp [ha] at hsome
      · exact .inr (.inr hw)
  current := by
    rw [hl, hw]
    intro rest hr
    refine ⟨_, _, _, _, rfl, rfl, ?_⟩
    split at hr
    · cases hr
    · exact Option.some.inj hr

theorem Held.saved {v : Watched μ} {w : Worker μ} {msg : μ} {rest : List μ} {throws : Bool}
    (h : Held v) (ha : v.worker.ahead = some (msg :: rest)) (hq : w.queue = v.worker.queue)
    (hl : w.log = record msg throws v.worker.log)
    (hw : w.ahead = if throws then none else some rest) :
    Held ⟨w, v.calls ++ [msg], v.cut⟩ := by
  obtain ⟨b, bs, c, cs, hlog, hcut, htaken⟩ := h.current _ ha
  have hsub : b.stored.Sublist b.called := (h.batch b (hlog ▸ List.mem_cons_self)).2
  rw [hlog, record] at hl
  refine ⟨?_, ?_, ?_, ?_, ?_⟩
  · rw [hq, hl, h.handedOver, hlog]
    simp
  · rw [hl, h.byBatch, hlog]
    simp
  · intro b' hb'
    rw [hl] at hb'
    rcases List.mem_cons.1 hb' with rfl | hb'
    · refine ⟨⟨rest, by simp [htaken]⟩, ?_⟩
      cases throws with
      | true => exact hsub.trans (List.sublist_append_left _ _)
      | false => exact hsub.append (List.Sublist.refl _)
    · exact h.batch b' (hlog ▸ List.mem_cons_of_mem _ hb')
  · rw [hl, hw]
    rintro (_ | i) b' hb'
    · obtain rfl := Option.some.inj hb'
      cases throws with
      | true =>
        refine .inr (.inr (.inl fun heq => ?_))
        have hlen := hsub.length_le
        have heq' : b.stored = b.called ++ [msg] := heq
        rw [heq', List.length_append, List.length_singleton] at hlen
        omega
      | false => exact .inr (.inl ⟨rfl, rfl⟩)
    · rcases h.whole (i + 1) b' (hlog ▸ hb') with hw | ⟨h0, -⟩ | hw
      · exact .inl hw
      · exact absurd h0 (Nat.succ_ne_zero i)
      · exact .inr (.inr hw)
  · rw [hl, hw]
    intro rest' hr
    refine ⟨_, _, _, _, rfl, hcut, ?_⟩
    cases throws with
    | true => cases hr
    | false =>
      obtain rfl := Option.some.inj hr
      simp [htaken]

theorem held_work {v v' : Watched μ} {throws : Bool} (h : Held v)
    (hs : v.step (.work throws) = some v') : Held v' := by
  obtain ⟨w, hw, rfl⟩ := Option.map_eq_some_iff.1 hs
  have hcalls : v.calls ++ [] = v.calls := List.append_nil _
  cases work_cases hw with
  | wake pc =>
    simp only [savedBy, markCut, pc, hcalls]
    exact h.congr rfl rfl (by simp [ahead, pc])
  | leave pc =>
    simp only [savedBy, markCut, pc, hcalls]
    exact h.congr rfl rfl (by simp [ahead, pc])
  | begun pc =>
    simp only [savedBy, markCut, pc, hcalls]
    exact h.congr rfl rfl (by cases throws <;> simp [ahead, pc])
  | taken pc =>
    simp only [savedBy, markCut, pc, hcalls]
    refine h.taken (by simp [ahead, pc]) rfl rfl ?_
    cases v.worker.queue.messages <;> rfl
  | loopEnd pc =>
    have ha : v.worker.ahead = some [] := by simp [ahead, pc]
    obtain ⟨b, bs, c, cs, hlog, -, htaken⟩ := h.current _ ha
    simp only [savedBy, markCut, pc, hcalls]
    refine h.leaveLoop rfl rfl rfl (fun _ => rfl) fun b' hb => .inl ?_
    rw [hlog] at hb
    obtain rfl := Option.some.inj hb
    rw [htaken, List.append_nil]
  | saved msg rest pc =>
    have ha : v.worker.ahead = some (msg :: rest) := by simp [ahead, pc]
    simp only [savedBy, markCut, pc]
    refine h.saved ha rfl rfl ?_
    cases throws <;> rfl
  | interrupted rest pc requested =>
    have ha : v.worker.ahead = some rest := by simp [ahead, pc]
    obtain ⟨b, bs, c, cs, -, hcut, -⟩ := h.current _ ha
    simp only [savedBy, markCut, pc, hcalls, requested, if_true]
    refine h.leaveLoop rfl rfl rfl (fun i => ?_) fun b' hb => .inr (.inr rfl)
    rw [hcut]
    rfl
  | resumed rest pc quiet =>
    simp only [savedBy, markCut, pc, hcalls, quiet, Bool.false_eq_true, if_false]
    exact h.congr rfl rfl (by simp [ahead, pc])
  | ended pc =>
    simp only [savedBy, markCut, pc, hcalls]
    exact h.congr rfl rfl (by simp [ahead, pc])

theorem held_addMessage {v v' : Watched μ} {msg : μ} (h : Held v)
    (hs : v.step (.addMessage msg) = some v') : Held v' := by
  obtain ⟨w, hw, rfl⟩ := Option.map_eq_some_iff.1 hs
  have hcalls : v.calls ++ [] = v.calls := List.append_nil _
  simp only [savedBy, markCut, hcalls]
  rcases addMessage_cases hw with rfl | rfl
  · refine ⟨?_, h.byBatch, h.batch, h.whole, h.current⟩
    simp only [BaseImpl.append, h.handedOver, List.append_assoc]
  · exact h

theorem held_step {v v' : Watched μ} {e : WorkerEvent μ} (h : Held v)
    (hs : v.step e = some v') : Held v' := by
  cases e with
  | addMessage msg => exact held_addMessage h hs
  | interrupt =>
    obtain ⟨w, hw, rfl⟩ := Option.map_eq_some_iff.1 hs
    obtain rfl := Option.some.inj hw
    simp only [savedBy, markCut, List.append_nil]
    exact h.congr rfl rfl rfl
  | work throws => exact held_work h hs

/-- In every run the accepted messages are the batches taken so far and then the queue, and
`save_message_impl` is called with a prefix of each batch in turn: all of it, but for the batch at
hand and one that a throwing save or an interruption ended. -/
theorem always_inOrder (maxMessages : ℕ) (messages : List μ) (es : List (WorkerEvent μ)) :
    Lts.Always step InOrder (start maxMessages messages) es := by
  have hheld : Lts.Always step Held (start maxMessages messages) es :=
    Lts.always_of_step (fun _ _ _ h hs => held_step h hs) es (held_start _ _)
  exact hheld.imp fun _ h => h.inOrder

end Watched

end Communicator
