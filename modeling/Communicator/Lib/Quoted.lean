import Mathlib.Data.List.Basic

/-!
# Attribute lists with quoted values

A list of names and values written as `name="value"`, separated by blanks, over any alphabet. A
text splits into a list exactly if it is that list's text, no name has an equals sign in it and no
value a quote.
-/

namespace Quoted

structure Marks (α : Type*) where
  equals : α
  quote : α
  blank : α

variable {α : Type*} (M : Marks α)

/-- One name and value, and what follows them. -/
def pair (a : List α × List α) (rest : List α) : List α :=
  a.1 ++ M.equals :: M.quote :: (a.2 ++ M.quote :: rest)

def render : List (List α × List α) → List α
  | [] => []
  | [a] => pair M a []
  | a :: b :: as => pair M a (M.blank :: render (b :: as))

def Clean (a : List α × List α) : Prop := M.equals ∉ a.1 ∧ M.quote ∉ a.2

section Split

variable [DecidableEq α]

/-- What is in front of the first `x`, and what is behind it. -/
def cutAt (x : α) : List α → Option (List α × List α)
  | [] => none
  | a :: s => if a = x then some ([], s) else (cutAt x s).map fun c => (a :: c.1, c.2)

/-- The first name and value of a text, and what follows them. -/
def readPair (s : List α) : Option ((List α × List α) × List α) :=
  match cutAt M.equals s with
  | some (name, q :: t) =>
    if q = M.quote then (cutAt M.quote t).map fun c => ((name, c.1), c.2) else none
  | _ => none

def splitFuel : ℕ → List α → Option (List (List α × List α))
  | 0, _ => none
  | fuel + 1, s =>
    match readPair M s with
    | none => none
    | some (a, []) => some [a]
    | some (a, b :: rest) => if b = M.blank then (splitFuel fuel rest).map (a :: ·) else none

/-- A text with as many turns as it is long: each takes a pair off it. -/
def split (s : List α) : Option (List (List α × List α)) := splitFuel M s.length s

end Split

variable {M}

theorem render_cons {a : List α × List α} {as : List (List α × List α)} (h : as ≠ []) :
    render M (a :: as) = pair M a (M.blank :: render M as) := by
  obtain ⟨b, bs, rfl⟩ := List.exists_cons_of_ne_nil h
  rfl

theorem length_le_render : ∀ as : List (List α × List α), as.length ≤ (render M as).length
  | [] => Nat.le_refl _
  | [a] => by
    simp only [render, pair, List.length_append, List.length_cons, List.length_nil]
    omega
  | a :: b :: as => by
    have ih := length_le_render (b :: as)
    simp only [render, pair, List.length_append, List.length_cons] at ih ⊢
    omega

theorem mem_render : ∀ {as : List (List α × List α)} {a : List α × List α} {x : α}, a ∈ as →
    x ∈ a.2 → x ∈ render M as
  | [b], a, x, ha, hx => by
    obtain rfl := List.mem_singleton.1 ha
    simp [render, pair, hx]
  | b :: c :: as, a, x, ha, hx => by
    rcases List.mem_cons.1 ha with rfl | ha
    · simp [render, pair, hx]
    · have ih := mem_render ha hx
      simp [render, pair, ih]

theorem of_mem_pair {a : List α × List α} {x : α} {rest : List α} (h : x ∈ pair M a rest) :
    (x = M.equals ∨ x = M.quote) ∨ (x ∈ a.1 ∨ x ∈ a.2) ∨ x ∈ rest := by
  simp only [pair, List.mem_append, List.mem_cons] at h
  tauto

theorem of_mem_render : ∀ {as : List (List α × List α)} {x : α}, x ∈ render M as →
    (x = M.equals ∨ x = M.quote ∨ x = M.blank) ∨ ∃ a ∈ as, x ∈ a.1 ∨ x ∈ a.2
  | [a], x, h => by
    rcases of_mem_pair h with h | h | h
    · exact .inl (h.imp_right .inl)
    · exact .inr ⟨a, List.mem_cons_self, h⟩
    · exact absurd h List.not_mem_nil
  | a :: b :: as, x, h => by
    rcases of_mem_pair h with h | h | h
    · exact .inl (h.imp_right .inl)
    · exact .inr ⟨a, List.mem_cons_self, h⟩
    · rcases List.mem_cons.1 h with rfl | h
      · exact .inl (.inr (.inr rfl))
      · refine (of_mem_render h).imp_right fun h => ?_
        obtain ⟨c, hc, hx⟩ := h
        exact ⟨c, List.mem_cons_of_mem _ hc, hx⟩

variable [DecidableEq α]

theorem cutAt_eq_some_iff {x : α} {s p rest : List α} :
    cutAt x s = some (p, rest) ↔ s = p ++ x :: rest ∧ x ∉ p := by
  induction s generalizing p with
  | nil => simp [cutAt]
  | cons a s ih =>
    unfold cutAt
    by_cases ha : a = x
    · rw [if_pos ha, Option.some.injEq, Prod.mk.injEq]
      constructor
      · rintro ⟨rfl, rfl⟩
        exact ⟨by rw [ha]; rfl, List.not_mem_nil⟩
      · rintro ⟨hs, hx⟩
        cases p with
        | nil => exact ⟨rfl, (List.cons.inj hs).2⟩
        | cons b p => exact absurd ((List.cons.inj hs).1 ▸ ha) (List.ne_of_not_mem_cons hx).symm
    · rw [if_neg ha, Option.map_eq_some_iff]
      constructor
      · rintro ⟨c, hc, heq⟩
        obtain ⟨rfl, rfl⟩ := Prod.mk.inj heq
        obtain ⟨hs, hx⟩ := ih.1 hc
        exact ⟨by rw [hs]; rfl, List.not_mem_cons_of_ne_of_not_mem (Ne.symm ha) hx⟩
      · rintro ⟨hs, hx⟩
        cases p with
        | nil => exact absurd (List.cons.inj hs).1 ha
        | cons b p =>
          obtain ⟨rfl, htail⟩ := List.cons.inj hs
          exact ⟨(p, rest), ih.2 ⟨htail, List.not_mem_of_not_mem_cons hx⟩, rfl⟩

theorem readPair_eq_some_iff {a : List α × List α} {s rest : List α} :
    readPair M s = some (a, rest) ↔ s = pair M a rest ∧ Clean M a := by
  obtain ⟨name, value⟩ := a
  constructor
  · intro h
    unfold readPair at h
    split at h
    · rename_i n q t hn
      split at h
      · rename_i hq
        obtain ⟨c, hc, heq⟩ := Option.map_eq_some_iff.1 h
        simp only [Prod.mk.injEq] at heq
        obtain ⟨⟨rfl, rfl⟩, rfl⟩ := heq
        obtain ⟨hs, hne⟩ := cutAt_eq_some_iff.1 hn
        obtain ⟨ht, hnq⟩ := cutAt_eq_some_iff.1 hc
        exact ⟨by rw [hs, hq, ht]; rfl, hne, hnq⟩
      · cases h
    · cases h
  · rintro ⟨rfl, hne, hnq⟩
    have h₁ : cutAt M.equals (pair M (name, value) rest)
        = some (name, M.quote :: (value ++ M.quote :: rest)) := cutAt_eq_some_iff.2 ⟨rfl, hne⟩
    have h₂ : cutAt M.quote (value ++ M.quote :: rest) = some (value, rest) :=
      cutAt_eq_some_iff.2 ⟨rfl, hnq⟩
    rw [readPair, h₁]
    simp only [if_true]
    rw [h₂]
    rfl

theorem splitFuel_render : ∀ {as : List (List α × List α)} {fuel : ℕ}, as ≠ [] →
    (∀ a ∈ as, Clean M a) → as.length ≤ fuel → splitFuel M fuel (render M as) = some as
  | [], _, hne, _, _ => absurd rfl hne
  | [a], fuel, _, h, hf => by
    obtain ⟨fuel, rfl⟩ := Nat.exists_eq_add_of_le' hf
    have hread : readPair M (render M [a]) = some (a, []) :=
      readPair_eq_some_iff.2 ⟨rfl, h a List.mem_cons_self⟩
    rw [List.length_singleton, splitFuel, hread]
  | a :: b :: as, fuel, _, h, hf => by
    obtain ⟨fuel, rfl⟩ := Nat.exists_eq_add_of_le' hf
    have ih : splitFuel M (fuel + (b :: as).length) (render M (b :: as)) = some (b :: as) :=
      splitFuel_render (List.cons_ne_nil b as) (fun c hc => h c (List.mem_cons_of_mem _ hc))
        (Nat.le_add_left _ _)
    have hread : readPair M (render M (a :: b :: as))
        = some (a, M.blank :: render M (b :: as)) :=
      readPair_eq_some_iff.2 ⟨rfl, h a List.mem_cons_self⟩
    rw [List.length_cons, ← Nat.add_assoc, splitFuel, hread]
    simp only [if_true]
    rw [ih]
    rfl

theorem eq_render_of_splitFuel : ∀ {fuel : ℕ} {s : List α} {as : List (List α × List α)},
    splitFuel M fuel s = some as → s = render M as ∧ as ≠ [] ∧ ∀ a ∈ as, Clean M a
  | 0, _, _, h => by cases h
  | fuel + 1, s, as, h => by
    unfold splitFuel at h
    split at h
    · cases h
    · rename_i a heq
      obtain rfl := Option.some.inj h
      obtain ⟨hs, hc⟩ := readPair_eq_some_iff.1 heq
      exact ⟨hs, List.cons_ne_nil _ _, by simpa using hc⟩
    · rename_i a b rest heq
      split at h
      · rename_i hb
        obtain ⟨bs, hrest, rfl⟩ := Option.map_eq_some_iff.1 h
        obtain ⟨hs, hc⟩ := readPair_eq_some_iff.1 heq
        obtain ⟨hr, hne, hcs⟩ := eq_render_of_splitFuel hrest
        refine ⟨?_, List.cons_ne_nil _ _, List.forall_mem_cons.2 ⟨hc, hcs⟩⟩
        rw [render_cons hne, ← hr, ← hb, hs]
      · cases h

theorem split_eq_some_iff {s : List α} {as : List (List α × List α)} :
    split M s = some as ↔ s = render M as ∧ as ≠ [] ∧ ∀ a ∈ as, Clean M a := by
  refine ⟨eq_render_of_splitFuel, ?_⟩
  rintro ⟨rfl, hne, h⟩
  exact splitFuel_render hne h (length_le_render as)

end Quoted
