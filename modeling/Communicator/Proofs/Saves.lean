import Communicator.Counters
import Communicator.Lib.Updates

/-!
# The file behind the table

A save writes the whole table, so what a caller leaves for its own save may be on disk before, and
a save behind another one writes the same or more. The file always holds the table as it was after
some of the updates, and the callers of all later ones have not returned.
-/

namespace Communicator

namespace Counters

variable {ι : Type} [DecidableEq ι] {A : Archive} {s s' : Counters ι} {e : CountersEvent ι}
  {initial : Counterer}

/-- The file holds the table after the first `saved` updates. -/
structure Written (A : Archive) (initial : Counterer) (saved : ℕ) (s : Counters ι) : Prop where
  le : saved ≤ s.updates.length
  counterer : s.counterer = Updates.apply initial s.updates
  file : s.file = A.write (Updates.apply initial (s.updates.take saved))
  pending : ∀ j, saved ≤ j → j < s.updates.length → ∃ i, s.pending i = some j

/-- Nobody waits to save: the file holds the table. And of an update whose call returned, the file
has the value or that of a later update of the controller. -/
structure Reflected (A : Archive) (s : Counters ι) : Prop where
  idle : (∀ i, s.pending i = none) → s.file = A.write s.counterer
  returned : ∃ t, s.file = A.write t ∧ ∀ j controllerId counter,
    s.updates[j]? = some (controllerId, counter) → (∀ i, s.pending i ≠ some j) →
      ∃ j' counter', j ≤ j' ∧ s.updates[j']? = some (controllerId, counter')
        ∧ t controllerId = some counter'

theorem Written.step {saved : ℕ} (h : Written A initial saved s) (hs : s.step A e = some s') :
    ∃ saved', Written A initial saved' s' := by
  cases e with
  | update i c v =>
    cases hp : s.pending i with
    | some j => simp [Counters.step, hp] at hs
    | none =>
      simp only [Counters.step, hp] at hs
      obtain rfl := Option.some.inj hs
      refine ⟨saved, ?_, ?_, ?_, fun j h1 h2 => ?_⟩
      · rw [List.length_append]
        exact Nat.le_add_right_of_le h.le
      · rw [Updates.apply_concat, h.counterer]
      · rw [List.take_append_of_le_length h.le]
        exact h.file
      · rw [List.length_append, List.length_singleton] at h2
        rcases Nat.lt_succ_iff_lt_or_eq.1 h2 with hlt | rfl
        · obtain ⟨i', hi'⟩ := h.pending j h1 hlt
          have hne : i' ≠ i := by
            rintro rfl
            rw [hp] at hi'
            cases hi'
          exact ⟨i', (Function.update_of_ne hne _ _).trans hi'⟩
        · exact ⟨i, Function.update_self ..⟩
  | save i =>
    cases hp : s.pending i with
    | none => simp [Counters.step, hp] at hs
    | some j =>
      simp only [Counters.step, hp] at hs
      obtain rfl := Option.some.inj hs
      refine ⟨s.updates.length, le_rfl, h.counterer, ?_, fun j h1 h2 => absurd h2 (Nat.not_lt.2 h1)⟩
      rw [List.take_length, h.counterer]

omit [DecidableEq ι] in
theorem Written.reflected {saved : ℕ} (h : Written A initial saved s) : Reflected A s where
  idle hidle := by
    have hall : s.updates.length ≤ saved := by
      by_contra hlt
      obtain ⟨i, hi⟩ := h.pending saved le_rfl (Nat.lt_of_not_le hlt)
      rw [hidle i] at hi
      cases hi
    rw [h.file, h.counterer, List.take_of_length_le hall]
  returned := by
    refine ⟨_, h.file, fun j c v hj hret => ?_⟩
    have hlen : j < s.updates.length := (List.getElem?_eq_some_iff.1 hj).1
    have hlt : j < saved := by
      by_contra hle
      obtain ⟨i, hi⟩ := h.pending j (Nat.le_of_not_lt hle) hlen
      exact hret i hi
    rw [← List.getElem?_take_of_lt hlt] at hj
    obtain ⟨j', v', hle, hget, happ⟩ := Updates.exists_apply_eq hj
    have hlt' : j' < saved := by
      have hlen' := (List.getElem?_eq_some_iff.1 hget).1
      rw [List.length_take] at hlen'
      omega
    rw [List.getElem?_take_of_lt hlt'] at hget
    exact ⟨j', v', hle, hget, happ⟩

/-- In every run, by any number of callers, that starts with the table on disk. -/
theorem always_reflected (A : Archive) (initial : Counterer) (es : List (CountersEvent ι)) :
    Lts.Always (step A) (Reflected A) (start A initial) es := by
  have hwritten : Lts.Always (step A) (fun s => ∃ saved, Written A initial saved s)
      (start A initial) es := by
    refine Lts.always_of_step (fun _ _ _ h hs => ?_) es ⟨0, le_rfl, rfl, rfl, by simp [start]⟩
    obtain ⟨saved, h⟩ := h
    exact h.step hs
  refine hwritten.imp fun s h => ?_
  obtain ⟨saved, h⟩ := h
  exact h.reflected

end Counters

end Communicator
