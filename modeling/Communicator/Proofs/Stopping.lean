import Communicator.Proofs.Batches

/-!
# Stopping the storage worker

`stop` asks for an interruption and joins. The worker meets the next interruption point within
three steps. The one between iterations is left to the outer handler, which ends the thread; the
one after a save is inside the inner `try`, whose `catch (...)` takes the interruption with the
request and goes on.
-/

namespace Communicator

namespace Worker

variable {μ : Type}

/-- The worker is at the point after a save. -/
def AfterSave (w : Worker μ) : Prop := ∃ rest, w.pc = .interruptionPoint rest

def AtPoint (w : Worker μ) : Prop := w.pc = .sleep ∨ w.AfterSave

def SaveReturns (w : Worker μ) (e : WorkerEvent μ) : Prop :=
  (∃ msg rest, w.pc = .saving (msg :: rest)) ∧ e = .work false

/-- The event does not take the worker through an interruption point. -/
def BeforePoint (w : Worker μ) (e : WorkerEvent μ) : Prop :=
  ∀ throws, e = .work throws → ¬ w.AtPoint

/-- How many steps the next interruption point is away. -/
def distance (w : Worker μ) : ℕ :=
  match w.pc with
  | .beginBatch => 3
  | .assign => 2
  | .saving [] => 2
  | .saving (_ :: _) => 1
  | .endBatch => 1
  | _ => 0

def isWork : WorkerEvent μ → Bool
  | .work _ => true
  | _ => false

variable {w w' w₁ w₂ w₃ : Worker μ} {e : WorkerEvent μ} {es : List (WorkerEvent μ)} {throws : Bool}

theorem addMessage_step {msg : μ} (h : w.step (.addMessage msg) = some w') :
    w'.pc = w.pc ∧ w'.interruptRequested = w.interruptRequested := by
  rcases addMessage_cases h with rfl | rfl <;> exact ⟨rfl, rfl⟩

theorem interrupt_step (h : w.step .interrupt = some w') :
    w'.pc = w.pc ∧ w'.interruptRequested = true := by
  obtain rfl := Option.some.inj h
  exact ⟨rfl, rfl⟩

/-- The worker comes to the point after a save only by a save that returns. -/
theorem work_beforePoint (hb : ¬ w.AtPoint) (h : w.work throws = some w') :
    (w'.AfterSave ↔ SaveReturns w (.work throws))
      ∧ w'.interruptRequested = w.interruptRequested ∧ w'.distance < w.distance := by
  cases work_cases h with
  | wake pc => exact absurd (.inl pc) hb
  | leave pc => exact absurd (.inl pc) hb
  | begun pc => cases throws <;> simp [AfterSave, SaveReturns, distance, pc]
  | taken pc => cases hm : w.queue.messages <;> simp [AfterSave, SaveReturns, distance, pc]
  | loopEnd pc => simp [AfterSave, SaveReturns, distance, pc]
  | saved msg rest pc => cases throws <;> simp [AfterSave, SaveReturns, distance, pc]
  | interrupted rest pc => exact absurd (.inr ⟨rest, pc⟩) hb
  | resumed rest pc => exact absurd (.inr ⟨rest, pc⟩) hb
  | ended pc => simp [AfterSave, SaveReturns, distance, pc]

theorem distance_congr (h : w'.pc = w.pc) : w'.distance = w.distance := by
  unfold distance
  rw [h]

theorem afterSave_congr (h : w'.pc = w.pc) : w'.AfterSave ↔ w.AfterSave := by
  unfold AfterSave
  rw [h]

theorem step_beforePoint (hb : BeforePoint w e) (hq : w.interruptRequested = true)
    (h : w.step e = some w') :
    w'.interruptRequested = true ∧ (¬ w'.AfterSave ↔ ¬ w.AfterSave ∧ ¬ SaveReturns w e) := by
  cases e with
  | addMessage msg =>
    obtain ⟨hpc, hreq⟩ := addMessage_step h
    refine ⟨hreq.trans hq, ?_⟩
    rw [afterSave_congr hpc]
    exact (and_iff_left fun hs => by cases hs.2).symm
  | interrupt =>
    obtain ⟨hpc, hreq⟩ := interrupt_step h
    refine ⟨hreq, ?_⟩
    rw [afterSave_congr hpc]
    exact (and_iff_left fun hs => by cases hs.2).symm
  | work throws =>
    have hp := hb throws rfl
    obtain ⟨hsave, hreq, -⟩ := work_beforePoint hp h
    refine ⟨hreq.trans hq, ?_⟩
    rw [hsave, and_iff_right fun ha => hp (.inr ha)]

theorem run_beforePoint : ∀ {es : List (WorkerEvent μ)} {w w₂ : Worker μ},
    Lts.Along step BeforePoint w es → w.interruptRequested = true → Lts.run step w es = some w₂ →
      w₂.interruptRequested = true
        ∧ (¬ w₂.AfterSave ↔ ¬ w.AfterSave ∧ Lts.Along step (fun w e => ¬ SaveReturns w e) w es)
  | [], w, w₂, _, hq, hr => by
    obtain rfl := Option.some.inj hr
    exact ⟨hq, (and_iff_left trivial).symm⟩
  | e :: es, w, w₂, hb, hq, hr => by
    obtain ⟨t, ht, hr⟩ := Option.bind_eq_some_iff.1 hr
    obtain ⟨hqt, hat⟩ := step_beforePoint hb.1 hq ht
    obtain ⟨hq₂, ha₂⟩ := run_beforePoint (hb.2 t ht) hqt hr
    refine ⟨hq₂, ?_⟩
    rw [ha₂, hat, and_assoc]
    refine and_congr_right fun _ => and_congr_right fun _ => ⟨fun h s' hs => ?_, fun h => h t ht⟩
    exact Option.some.inj (ht.symm.trans hs) ▸ h

/-- The next interruption point is at most three of the worker's steps away. -/
theorem countP_isWork_le : ∀ {es : List (WorkerEvent μ)} {w w₂ : Worker μ},
    Lts.Along step BeforePoint w es → Lts.run step w es = some w₂ →
      es.countP isWork + w₂.distance ≤ w.distance
  | [], w, w₂, _, hr => by
    obtain rfl := Option.some.inj hr
    simp
  | e :: es, w, w₂, hb, hr => by
    obtain ⟨t, ht, hr⟩ := Option.bind_eq_some_iff.1 hr
    have ih := countP_isWork_le (hb.2 t ht) hr
    cases e with
    | addMessage msg =>
      rw [distance_congr (addMessage_step ht).1] at ih
      simpa [isWork] using ih
    | interrupt =>
      rw [distance_congr (interrupt_step ht).1] at ih
      simpa [isWork] using ih
    | work throws =>
      have hlt := (work_beforePoint (hb.1 throws rfl) ht).2.2
      rw [List.countP_cons_of_pos rfl]
      omega

theorem work_atPoint (hp : w.AtPoint) (hq : w.interruptRequested = true)
    (h : w.work throws = some w') : w'.pc = .left ↔ ¬ w.AfterSave := by
  cases work_cases h with
  | wake _ quiet => simp [hq] at quiet
  | leave pc => simp [AfterSave, pc]
  | interrupted rest pc => simp [AfterSave, pc]
  | resumed _ _ quiet => simp [hq] at quiet
  | begun pc => simp [AtPoint, AfterSave, pc] at hp
  | taken pc => simp [AtPoint, AfterSave, pc] at hp
  | loopEnd pc => simp [AtPoint, AfterSave, pc] at hp
  | saved _ _ pc => simp [AtPoint, AfterSave, pc] at hp
  | ended pc => simp [AtPoint, AfterSave, pc] at hp

/-- Without a request the worker does not leave its loop. -/
theorem not_left_step (he : e ≠ .interrupt) (hn : w.interruptRequested = false ∧ w.pc ≠ .left)
    (h : w.step e = some w') : w'.interruptRequested = false ∧ w'.pc ≠ .left := by
  cases e with
  | addMessage msg =>
    obtain ⟨hpc, hreq⟩ := addMessage_step h
    rw [hpc, hreq]
    exact hn
  | interrupt => exact absurd rfl he
  | work throws =>
    cases work_cases h with
    | leave _ requested => simp [hn.1] at requested
    | interrupted _ _ requested => simp [hn.1] at requested
    | begun pc => cases throws <;> simp [hn.1]
    | taken pc => cases hm : w.queue.messages <;> simp [hn.1]
    | saved msg rest pc => cases throws <;> simp [hn.1]
    | wake | loopEnd | resumed | ended => simp [hn.1]

theorem not_left_run : ∀ {es : List (WorkerEvent μ)} {w w' : Worker μ}, (∀ e ∈ es, e ≠ .interrupt) →
    w.interruptRequested = false ∧ w.pc ≠ .left → Lts.run step w es = some w' → w'.pc ≠ .left
  | [], w, w', _, hn, hr => by
    obtain rfl := Option.some.inj hr
    exact hn.2
  | e :: es, w, w', he, hn, hr => by
    obtain ⟨t, ht, hr⟩ := Option.bind_eq_some_iff.1 hr
    have hn' := not_left_step (he e List.mem_cons_self) hn ht
    exact not_left_run (fun e' h' => he e' (List.mem_cons_of_mem _ h')) hn' hr

/-- The first interruption point after a request ends the worker unless it is the point after a
save: the worker was there at the request, or a save returned in between. -/
theorem leaves_iff (throws : Bool) (h₁ : w.step .interrupt = some w₁)
    (hb : Lts.Along step BeforePoint w₁ es) (hr : Lts.run step w₁ es = some w₂)
    (hp : w₂.AtPoint) (hs : w₂.step (.work throws) = some w₃) :
    w₃.pc = .left
      ↔ ¬ w.AfterSave ∧ Lts.Along step (fun w e => ¬ SaveReturns w e) w₁ es := by
  obtain rfl := Option.some.inj h₁
  obtain ⟨hq, ha⟩ := run_beforePoint hb rfl hr
  rw [work_atPoint hp hq hs, ha]
  exact Iff.rfl

def savingEight (interruptRequested : Bool) : Worker ℕ :=
  { queue := ⟨4096, [], [7, 8]⟩, pc := .saving [8], messages := [7, 8], interruptRequested,
    log := [⟨[7, 8], [7], [7]⟩] }

/-- The save after the request throws. -/
theorem leaves_after_throw : ∃ w₂ w₃, (savingEight false).step .interrupt = some (savingEight true)
    ∧ Lts.run step (savingEight true) [.work true] = some w₂
    ∧ w₂.step (.work false) = some w₃ ∧ w₃.pc = .left := by
  have hb : Lts.Along step BeforePoint (savingEight true) [.work true] := by
    refine ⟨fun _ _ h => ?_, fun _ _ => trivial⟩
    rcases h with h | ⟨_, h⟩ <;> cases h
  have hn : Lts.Along step (fun w e => ¬ SaveReturns w e) (savingEight true) [.work true] := by
    refine ⟨fun h => ?_, fun _ _ => trivial⟩
    cases h.2
  refine ⟨_, _, rfl, rfl, rfl, ?_⟩
  refine (leaves_iff (w := savingEight false) false rfl hb rfl (.inl rfl) rfl).2 ⟨fun h => ?_, hn⟩
  obtain ⟨_, h⟩ := h
  cases h

/-- The request comes while a message is being saved. The point after it takes the interruption,
and without another request the worker never leaves. -/
theorem interruption_lost : ∃ w w₁ w₂ w₃ : Worker ℕ,
    Lts.run step (start 4096 [7]) [.work false, .work false, .work false] = some w
    ∧ w.step .interrupt = some w₁ ∧ Lts.run step w₁ [.work false] = some w₂ ∧ w₂.AtPoint
    ∧ w₂.step (.work false) = some w₃ ∧ w₃.pc ≠ .left
    ∧ ∀ es w₄, (∀ e ∈ es, e ≠ .interrupt) → Lts.run step w₃ es = some w₄ → w₄.pc ≠ .left := by
  refine ⟨_, _, _, _, rfl, rfl, rfl, .inr ⟨_, rfl⟩, rfl, by decide, fun es w₄ he hr => ?_⟩
  exact not_left_run he ⟨rfl, by decide⟩ hr

end Worker

end Communicator
