import Communicator.Worker
import Mathlib.Data.List.Perm.Subperm

/-!
# What the storage worker keeps

An accepted message is in one of three places: stored, to go in the batch at hand, or queued. In
a run without interruptions a step that leaves them is a save that throws: the messages not saved
yet stay in the worker's own batch, which the next iteration overwrites.
-/

namespace Communicator

namespace Worker

variable {μ : Type}

/-- Every message `add_message` accepted was stored, or is queued or ahead in the loop over the
batch. -/
def Kept (w : Worker μ) : Prop :=
  w.queue.accepted.Subperm (w.stored ++ (w.remaining ++ w.queue.messages))

def SaveThrows (w : Worker μ) (e : WorkerEvent μ) : Prop :=
  (∃ msg rest, w.pc = .saving (msg :: rest)) ∧ e = .work true

/-- What a run without interruptions and without throwing saves keeps: the three places hold the
accepted messages in order, and a batch at hand has its record. -/
structure Accounted (w : Worker μ) : Prop where
  eq : w.queue.accepted = w.stored ++ (w.remaining ++ w.queue.messages)
  log : w.remaining ≠ [] → w.log ≠ []
  quiet : w.interruptRequested = false

theorem stored_record (w : Worker μ) (pc : WorkerPc μ) (msg : μ) (throws : Bool)
    (h : w.log ≠ []) :
    stored { w with pc, log := record msg throws w.log }
      = w.stored ++ if throws then [] else [msg] := by
  cases hl : w.log with
  | nil => exact absurd hl h
  | cons b bs => cases throws <;> simp [stored, record, hl]

theorem accounted_start (maxMessages : ℕ) (messages : List μ) :
    Accounted (start maxMessages messages) :=
  ⟨by simp [start, stored, remaining], by simp [start, remaining], rfl⟩

theorem accounted_work {w w' : Worker μ} {throws : Bool} (hw : Accounted w)
    (hn : ¬ SaveThrows w (.work throws)) (h : w.work throws = some w') : Accounted w' := by
  obtain ⟨heq, hlog, hq⟩ := hw
  cases work_cases h with
  | wake pc => exact ⟨by simpa [remaining, pc, stored] using heq, by simp [remaining], hq⟩
  | leave _ requested => simp [hq] at requested
  | begun pc => refine ⟨?_, ?_, hq⟩ <;> cases throws <;> simp_all [remaining, stored]
  | taken pc =>
    refine ⟨?_, ?_, hq⟩
    · cases hm : w.queue.messages <;> simp_all [remaining, stored]
    · simp
  | loopEnd pc => exact ⟨by simpa [remaining, pc, stored] using heq, by simp [remaining], hq⟩
  | saved msg rest pc =>
    have ht : throws = false := by
      by_contra ht
      exact hn ⟨⟨msg, rest, pc⟩, by simpa using ht⟩
    subst ht
    have hl : w.log ≠ [] := hlog (by simp [remaining, pc])
    refine ⟨?_, fun _ => ?_, hq⟩
    · rw [stored_record w _ msg false hl]
      simpa [remaining, pc] using heq
    · obtain ⟨b, bs, hb⟩ := List.exists_cons_of_ne_nil hl
      simp [hb, record]
  | interrupted _ _ requested => simp [hq] at requested
  | resumed rest pc =>
    exact ⟨by simpa [remaining, pc, stored] using heq, by simpa [remaining, pc] using hlog, hq⟩
  | ended pc => exact ⟨by simpa [remaining, pc, stored] using heq, by simp [remaining], hq⟩

theorem accounted_addMessage {w w' : Worker μ} {msg : μ} (hw : Accounted w)
    (h : w.step (.addMessage msg) = some w') : Accounted w' := by
  obtain ⟨heq, hlog, hq⟩ := hw
  rcases addMessage_cases h with rfl | rfl
  · refine ⟨?_, hlog, hq⟩
    simp only [BaseImpl.append, heq, List.append_assoc]
    rfl
  · exact ⟨heq, hlog, hq⟩

theorem accounted_step {w w' : Worker μ} {e : WorkerEvent μ} (hw : Accounted w)
    (hn : ¬ SaveThrows w e) (hi : e ≠ .interrupt) (h : w.step e = some w') : Accounted w' := by
  cases e with
  | addMessage msg => exact accounted_addMessage hw h
  | interrupt => exact absurd rfl hi
  | work throws => exact accounted_work hw hn h

theorem Accounted.kept {w : Worker μ} (h : Accounted w) : w.Kept := by
  unfold Kept
  rw [h.eq]

theorem not_kept_of_saveThrows {w : Worker μ} {e : WorkerEvent μ} (hw : Accounted w)
    (ht : SaveThrows w e) : ∃ w', w.step e = some w' ∧ ¬ w'.Kept := by
  obtain ⟨⟨msg, rest, hpc⟩, rfl⟩ := ht
  have hl : w.log ≠ [] := hw.log (by simp [remaining, hpc])
  refine ⟨_, by simp only [step, work, hpc]; rfl, fun hk => ?_⟩
  have hlen := hk.length_le
  rw [stored_record w _ msg true hl] at hlen
  have := congrArg List.length hw.eq
  simp [remaining, hpc] at this hlen
  omega

/-- While nothing asks the worker to stop, a run keeps every accepted message at every state
exactly if none of its saves throws; what `begin_batch` and `end_batch` throw does no harm. -/
theorem always_kept_iff (maxMessages : ℕ) (messages : List μ) (es : List (WorkerEvent μ))
    (hi : ∀ e ∈ es, e ≠ .interrupt) :
    Lts.Always step Kept (start maxMessages messages) es
      ↔ Lts.Along step (fun w e => ¬ SaveThrows w e) (start maxMessages messages) es :=
  ⟨Lts.along_of_always (I := Accounted) (Q := (· ≠ .interrupt))
      (fun _ _ _ hw hi hG hs => accounted_step hw hG hi hs)
      (fun _ _ hw hG => not_kept_of_saveThrows hw (not_not.1 hG)) (accounted_start _ _) hi,
    fun h => (Lts.always_of_along (fun _ _ _ hw hG hs => accounted_step hw hG.1 hG.2 hs)
      (accounted_start _ _) (h.and_of_mem hi)).imp fun _ hw => hw.kept⟩

theorem always_kept_endBatch_throws :
    Lts.Always step Kept (start 4096 [])
      [.addMessage 7, .work false, .work false, .work false, .work false, .work false,
        .work false, .work true] := by
  rw [always_kept_iff (μ := ℕ) 4096 [] _ (by decide)]
  simp [Lts.Along, step, work, start, BaseImpl.addMessage, SaveThrows, record]

/-- One message added and taken; its save throws, and the next iteration overwrites the batch that
still held it. -/
theorem not_always_kept_save_throws :
    ¬ Lts.Always step Kept (start 4096 [])
      [.addMessage 7, .work false, .work false, .work false, .work true,
        .work false, .work false, .work false] := by
  intro h
  have hk : Kept { queue := ⟨4096, [], [7]⟩, pc := .endBatch, messages := [],
                   log := [⟨[], [], []⟩, ⟨[7], [7], []⟩] } := h.last rfl
  have := hk.length_le
  simp [stored, remaining] at this

end Worker

end Communicator
