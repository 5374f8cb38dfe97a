import Communicator.Lib.Lts
import Mathlib.Data.List.Induction

/-!
# Simulation

One system refines another if each of its steps is a run of the other, of any length, between
related states. Then every run of the one is a run of the other. Where the relation is about the
events, too, the run of the other is put together by `run_induction`.
-/

namespace Lts

variable {σ ε τ δ : Type*}

section Run

variable {step : σ → ε → Option σ}

theorem run_append : ∀ (xs ys : List ε) (s : σ),
    run step s (xs ++ ys) = (run step s xs).bind fun t => run step t ys
  | [], _, _ => rfl
  | x :: xs, ys, s => by
    simp only [List.cons_append, run, Option.bind_assoc]
    congr 1
    funext t
    exact run_append xs ys t

theorem run_trans {xs ys : List ε} {s t u : σ} (hx : run step s xs = some t)
    (hy : run step t ys = some u) : run step s (xs ++ ys) = some u := by
  rw [run_append, hx]
  exact hy

/-- A property of runs holds if the empty run has it and one more step keeps it. -/
theorem run_induction {s : σ} {P : List ε → σ → Prop} (h0 : P [] s)
    (hstep : ∀ es t e t', run step s es = some t → P es t → step t e = some t' → P (es ++ [e]) t') :
    ∀ {es : List ε} {t : σ}, run step s es = some t → P es t := by
  intro es
  induction es using List.reverseRecOn with
  | nil =>
    intro t ht
    obtain rfl := Option.some.inj ht
    exact h0
  | append_singleton es e ih =>
    intro t ht
    rw [run_append] at ht
    obtain ⟨u, hu, ht⟩ := Option.bind_eq_some_iff.1 ht
    obtain ⟨v, hv, hvt⟩ := Option.bind_eq_some_iff.1 ht
    obtain rfl := Option.some.inj hvt
    exact hstep es u e v hu (ih hu) hv

end Run

/-- Every step of the first system is a run of the second. -/
def Simulates (step : σ → ε → Option σ) (step' : τ → δ → Option τ) (R : σ → τ → Prop) : Prop :=
  ∀ s t e s', R s t → step s e = some s' → ∃ ds t', run step' t ds = some t' ∧ R s' t'

namespace Simulates

variable {step : σ → ε → Option σ} {step' : τ → δ → Option τ} {R : σ → τ → Prop}

theorem run (h : Simulates step step' R) : ∀ {es : List ε} {s s' : σ} {t : τ}, R s t →
    Lts.run step s es = some s' → ∃ ds t', Lts.run step' t ds = some t' ∧ R s' t'
  | [], _, _, t, hR, hs => by
    obtain rfl := Option.some.inj hs
    exact ⟨[], t, rfl, hR⟩
  | e :: _, s, _, t, hR, hs => by
    obtain ⟨u, hu, hs⟩ := Option.bind_eq_some_iff.1 hs
    obtain ⟨xs, v, hv, hR'⟩ := h s t e u hR hu
    obtain ⟨ys, w, hw, hR''⟩ := h.run hR' hs
    exact ⟨xs ++ ys, w, run_trans hv hw, hR''⟩

end Simulates

end Lts
