import Mathlib.Data.List.Basic

/-!
# Runs of a transition system

`step s e` is the state after event `e`, or `none` where `e` cannot happen in `s`; a run is a list
of events. `Along` says that every step of a run meets a condition on the state before it and the
event, `Always` that every state of the run has a property. An invariant is proved of one step and
holds of the run by `always_of_along`.
-/

namespace Lts

variable {σ ε : Type*} (step : σ → ε → Option σ)

def run : σ → List ε → Option σ
  | s, [] => some s
  | s, e :: es => (step s e).bind fun s' => run s' es

def Along (G : σ → ε → Prop) : σ → List ε → Prop
  | _, [] => True
  | s, e :: es => G s e ∧ ∀ s' ∈ step s e, Along G s' es

instance instDecidableAlong (G : σ → ε → Prop) [∀ s e, Decidable (G s e)] :
    ∀ (s : σ) (es : List ε), Decidable (Along step G s es)
  | _, [] => inferInstanceAs (Decidable True)
  | s, e :: es =>
    have : ∀ s', Decidable (Along step G s' es) := fun s' => instDecidableAlong G s' es
    inferInstanceAs (Decidable (G s e ∧ ∀ s' ∈ step s e, Along step G s' es))

/-- The same as `Along`, of the part of the run before the first event that ends it. -/
def AlongUntil (stop : ε → Prop) (G : σ → ε → Prop) : σ → List ε → Prop
  | _, [] => True
  | s, e :: es => stop e ∨ G s e ∧ ∀ s' ∈ step s e, AlongUntil stop G s' es

def Always (P : σ → Prop) : σ → List ε → Prop
  | s, [] => P s
  | s, e :: es => P s ∧ ∀ s' ∈ step s e, Always P s' es

variable {step} {G : σ → ε → Prop} {I P : σ → Prop}

theorem Always.here : ∀ {s : σ} {es : List ε}, Always step P s es → P s
  | _, [], h => h
  | _, _ :: _, h => h.1

theorem Along.and_of_mem {Q : ε → Prop} : ∀ {es : List ε} {s : σ}, Along step G s es →
    (∀ e ∈ es, Q e) → Along step (fun s e => G s e ∧ Q e) s es
  | [], _, _, _ => trivial
  | e :: _, _, h, hQ => ⟨⟨h.1, hQ e List.mem_cons_self⟩, fun s' hs =>
      (h.2 s' hs).and_of_mem fun e he => hQ e (List.mem_cons_of_mem _ he)⟩

theorem along_of_mem {Q : ε → Prop} : ∀ {es : List ε} {s : σ}, (∀ e ∈ es, Q e) →
    Along step (fun _ e => Q e) s es
  | [], _, _ => trivial
  | e :: _, _, hQ => ⟨hQ e List.mem_cons_self, fun _ _ =>
      along_of_mem fun e he => hQ e (List.mem_cons_of_mem _ he)⟩

theorem always_of_along (hI : ∀ s e s', I s → G s e → step s e = some s' → I s') :
    ∀ {es : List ε} {s : σ}, I s → Along step G s es → Always step I s es
  | [], _, h, _ => h
  | e :: _, s, h, ha =>
    ⟨h, fun s' hs => always_of_along hI (hI s e s' h ha.1 hs) (ha.2 s' hs)⟩

theorem always_of_step (hI : ∀ s e s', I s → step s e = some s' → I s') :
    ∀ (es : List ε) {s : σ}, I s → Always step I s es
  | [], _, h => h
  | e :: es, s, h => ⟨h, fun s' hs => always_of_step hI es (hI s e s' h hs)⟩

theorem Always.imp (hIP : ∀ s, I s → P s) :
    ∀ {es : List ε} {s : σ}, Always step I s es → Always step P s es
  | [], s, h => hIP s h
  | _ :: _, s, h => ⟨hIP s h.1, fun s' hs => Always.imp hIP (h.2 s' hs)⟩

/-- What an invariant implies of each step holds along every run. -/
theorem along_of_step (hI : ∀ s e s', I s → step s e = some s' → I s')
    (hG : ∀ s e, I s → G s e) : ∀ (es : List ε) {s : σ}, I s → Along step G s es
  | [], _, _ => trivial
  | e :: es, s, h => ⟨hG s e h, fun s' hs => along_of_step hI hG es (hI s e s' h hs)⟩

theorem run_of_step (hI : ∀ s e s', I s → step s e = some s' → I s') :
    ∀ {es : List ε} {s s' : σ}, I s → run step s es = some s' → I s'
  | [], _, _, h, hr => Option.some.inj hr ▸ h
  | e :: _, s, _, h, hr => by
    obtain ⟨t, ht, hr⟩ := Option.bind_eq_some_iff.1 hr
    exact run_of_step hI (hI s e t h ht) hr

/-- If every step that breaks `G` leads out of `P`, a run that stays in `P` keeps `G`. -/
theorem along_of_always {Q : ε → Prop}
    (hI : ∀ s e s', I s → Q e → G s e → step s e = some s' → I s')
    (hN : ∀ s e, I s → ¬ G s e → ∃ s', step s e = some s' ∧ ¬ P s') :
    ∀ {es : List ε} {s : σ}, I s → (∀ e ∈ es, Q e) → Always step P s es → Along step G s es
  | [], _, _, _, _ => trivial
  | e :: es, s, h, hQ, ha => by
    have hG : G s e := by
      by_contra hn
      obtain ⟨s', hs, hp⟩ := hN s e h hn
      exact hp (ha.2 s' hs).here
    refine ⟨hG, fun s' hs => ?_⟩
    exact along_of_always hI hN (hI s e s' h (hQ e List.mem_cons_self) hG hs)
      (fun e he => hQ e (List.mem_cons_of_mem _ he)) (ha.2 s' hs)

theorem Along.rest {post : List ε} : ∀ {pre : List ε} {s t : σ},
    Along step G s (pre ++ post) → run step s pre = some t → Along step G t post
  | [], _, _, h, hr => by
    simp only [run, Option.some.injEq] at hr
    exact hr ▸ h
  | _ :: _, _, _, h, hr => by
    obtain ⟨s', hs, hr⟩ := Option.bind_eq_some_iff.1 hr
    exact (h.2 s' hs).rest hr

theorem Along.after {e : ε} {pre post : List ε} {s t : σ} (h : Along step G s (pre ++ e :: post))
    (hr : run step s pre = some t) : G t e :=
  (h.rest hr).1

/-- Two conditions that say the same wherever an invariant holds, which the second keeps. -/
theorem along_congr {H : σ → ε → Prop} {Q : ε → Prop}
    (hI : ∀ s e s', I s → Q e → H s e → step s e = some s' → I s')
    (hGH : ∀ s e, I s → Q e → (G s e ↔ H s e)) :
    ∀ {es : List ε} {s : σ}, I s → (∀ e ∈ es, Q e) → (Along step G s es ↔ Along step H s es)
  | [], _, _, _ => Iff.rfl
  | e :: es, s, h, hQ => by
    have he := hQ e List.mem_cons_self
    refine (and_congr_left' (hGH s e h he)).trans (and_congr_right fun hH => ?_)
    exact forall₂_congr fun s' hs => along_congr hI hGH (hI s e s' h he hH hs)
      fun e' he' => hQ e' (List.mem_cons_of_mem _ he')

theorem Along.imp {H : σ → ε → Prop} (hGH : ∀ s e, I s → G s e → H s e)
    (hI : ∀ s e s', I s → G s e → step s e = some s' → I s') :
    ∀ {es : List ε} {s : σ}, I s → Along step G s es → Along step H s es
  | [], _, _, _ => trivial
  | e :: _, s, h, ha =>
    ⟨hGH s e h ha.1, fun s' hs => Along.imp hGH hI (hI s e s' h ha.1 hs) (ha.2 s' hs)⟩

theorem Always.last : ∀ {es : List ε} {s s' : σ}, Always step P s es → run step s es = some s' →
    P s'
  | [], _, _, h, hr => by
    simp only [run, Option.some.injEq] at hr
    exact hr ▸ h
  | _ :: _, _, _, h, hr => by
    obtain ⟨t, ht, hr⟩ := Option.bind_eq_some_iff.1 hr
    exact (h.2 t ht).last hr

/-- Unwinding: if the events that are left out do not show in a relation and the others keep it,
the run without them goes through and stays related. -/
theorem run_filter {R : σ → σ → Prop} {own : ε → Bool}
    (hown : ∀ s t e s', R s t → G s e → own e = true → step s e = some s' →
      ∃ t', step t e = some t' ∧ R s' t')
    (hother : ∀ s t e s', R s t → G s e → own e = false → step s e = some s' → R s' t) :
    ∀ {es : List ε} {s t s' : σ}, R s t → Along step G s es → run step s es = some s' →
      ∃ t', run step t (es.filter own) = some t' ∧ R s' t'
  | [], s, t, s', h, _, hr => by
    obtain rfl := Option.some.inj hr
    exact ⟨t, rfl, h⟩
  | e :: es, s, t, s', h, ha, hr => by
    obtain ⟨u, hu, hr⟩ := Option.bind_eq_some_iff.1 hr
    cases ho : own e with
    | true =>
      obtain ⟨v, hv, hR⟩ := hown s t e u h ha.1 ho hu
      obtain ⟨t', ht', hR'⟩ := run_filter hown hother hR (ha.2 u hu) hr
      refine ⟨t', ?_, hR'⟩
      rw [List.filter_cons_of_pos ho, run, hv]
      exact ht'
    | false =>
      rw [List.filter_cons_of_neg (by simp [ho])]
      exact run_filter hown hother (hother s t e u h ha.1 ho hu) (ha.2 u hu) hr

theorem Along.and {H : σ → ε → Prop} : ∀ {es : List ε} {s : σ}, Along step G s es →
    Along step H s es → Along step (fun s e => G s e ∧ H s e) s es
  | [], _, _, _ => trivial
  | _ :: _, _, h, h' => ⟨⟨h.1, h'.1⟩, fun s' hs => (h.2 s' hs).and (h'.2 s' hs)⟩

end Lts
