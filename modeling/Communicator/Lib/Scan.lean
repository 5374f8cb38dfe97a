import Mathlib.Data.List.Basic

/-!
# Scanning a growing buffer

A scanner looks for the first item in a buffer. When what it finds is not changed by bytes
appended later, scanning a buffer that grows piece by piece, and dropping what was consumed in
between, finds what one scan of the whole finds (`scan_append`).
-/

namespace Scan

variable {α : Type*}

/-- What a scanner finds at the front of a buffer: nothing complete yet, input that is broken for
good, or an item behind symbols to skip. -/
inductive Hit (α : Type*)
  | more
  | bad
  | item (skipped body rest : List α)

/-- A search for the first item whose answers, but for `more`, are kept as the buffer grows. -/
structure Scanner (α : Type*) where
  next : List α → Hit α
  next_item : ∀ {xs g b r}, next xs = .item g b r → xs = g ++ b ++ r ∧ b ≠ []
  item_append : ∀ {xs g b r} (ys : List α), next xs = .item g b r →
    next (xs ++ ys) = .item g b (r ++ ys)
  bad_append : ∀ {xs} (ys : List α), next xs = .bad → next (xs ++ ys) = .bad

/-- The items of a buffer with their offsets, where the last one ends, and whether the scan
stopped at broken input. -/
structure Result (α : Type*) where
  items : List (ℕ × List α)
  used : ℕ
  broken : Bool

def Result.andThen (a b : Result α) : Result α :=
  ⟨a.items ++ b.items.map fun i => (a.used + i.1, i.2), a.used + b.used, b.broken⟩

theorem Result.andThen_assoc (a b c : Result α) :
    (a.andThen b).andThen c = a.andThen (b.andThen c) := by
  simp [Result.andThen, Function.comp_def, Nat.add_assoc]

theorem Scanner.next_item_length (S : Scanner α) {xs g b r : List α} (h : S.next xs = .item g b r) :
    r.length < xs.length := by
  obtain ⟨rfl, hb⟩ := S.next_item h
  have := List.length_pos_iff.2 hb
  simp only [List.length_append]
  omega

def Scanner.scan (S : Scanner α) (xs : List α) : Result α :=
  match h : S.next xs with
  | .more => ⟨[], 0, false⟩
  | .bad => ⟨[], 0, true⟩
  | .item g b r =>
    have := S.next_item_length h
    Result.andThen ⟨[(g.length, b)], g.length + b.length, false⟩ (S.scan r)
  termination_by xs.length

variable (S : Scanner α)

theorem Scanner.scan_more {xs : List α} (h : S.next xs = .more) :
    S.scan xs = ⟨[], 0, false⟩ := by
  rw [Scanner.scan]
  split <;> simp_all

theorem Scanner.scan_bad {xs : List α} (h : S.next xs = .bad) : S.scan xs = ⟨[], 0, true⟩ := by
  rw [Scanner.scan]
  split <;> simp_all

theorem Scanner.scan_item {xs g b r : List α} (h : S.next xs = .item g b r) :
    S.scan xs = Result.andThen ⟨[(g.length, b)], g.length + b.length, false⟩ (S.scan r) := by
  rw [Scanner.scan]
  split <;> simp_all

def Scanner.leftover (xs : List α) : List α := xs.drop (S.scan xs).used

theorem Scanner.scan_induction {P : List α → Prop} (more : ∀ xs, S.next xs = .more → P xs)
    (bad : ∀ xs, S.next xs = .bad → P xs)
    (item : ∀ xs g b r, S.next xs = .item g b r → P r → P xs) (xs : List α) : P xs := by
  induction hn : xs.length using Nat.strongRecOn generalizing xs with
  | ind n ih =>
    cases h : S.next xs with
    | more => exact more xs h
    | bad => exact bad xs h
    | item g b r => exact item xs g b r h (ih _ (hn ▸ S.next_item_length h) r rfl)

theorem Scanner.leftover_item {xs g b r : List α} (h : S.next xs = .item g b r) :
    S.leftover xs = S.leftover r := by
  obtain ⟨rfl, -⟩ := S.next_item h
  rw [leftover, S.scan_item h, leftover]
  simp only [Result.andThen]
  rw [← List.drop_drop, ← List.length_append, List.drop_left]

/-- Scanning a buffer that grew is scanning it, dropping what was used, and scanning the rest
with what was appended. -/
theorem Scanner.scan_append (xs ys : List α) :
    S.scan (xs ++ ys) = (S.scan xs).andThen (S.scan (S.leftover xs ++ ys)) := by
  induction xs using S.scan_induction with
  | more xs h => simp [leftover, S.scan_more h, Result.andThen]
  | bad xs h => simp [leftover, S.scan_bad h, S.scan_bad (S.bad_append ys h), Result.andThen]
  | item xs g b r h ih =>
    rw [S.scan_item (S.item_append ys h), ih, S.leftover_item h, S.scan_item h,
      Result.andThen_assoc]

theorem Scanner.used_le (xs : List α) : (S.scan xs).used ≤ xs.length := by
  induction xs using S.scan_induction with
  | more xs h => simp [S.scan_more h]
  | bad xs h => simp [S.scan_bad h]
  | item xs g b r h ih =>
    obtain ⟨rfl, -⟩ := S.next_item h
    simp only [S.scan_item h, Result.andThen, List.length_append]
    omega

theorem Scanner.leftover_append (xs ys : List α) :
    S.leftover (xs ++ ys) = S.leftover (S.leftover xs ++ ys) := by
  rw [leftover, S.scan_append]
  simp only [Result.andThen]
  rw [← List.drop_drop, List.drop_append_of_le_length (S.used_le xs)]
  rfl

theorem Scanner.scan_leftover_of_broken (xs ys : List α) (h : (S.scan xs).broken) :
    S.scan (S.leftover xs ++ ys) = ⟨[], 0, true⟩ := by
  induction xs using S.scan_induction with
  | more xs hn => simp [S.scan_more hn] at h
  | bad xs hn => simp [leftover, S.scan_bad hn, S.scan_bad (S.bad_append ys hn)]
  | item xs g b r hn ih =>
    rw [S.leftover_item hn]
    rw [S.scan_item hn] at h
    exact ih h

theorem Scanner.scan_leftover (xs : List α) :
    S.scan (S.leftover xs) = ⟨[], 0, (S.scan xs).broken⟩ := by
  induction xs using S.scan_induction with
  | more xs h => simp [leftover, S.scan_more h]
  | bad xs h => simp [leftover, S.scan_bad h]
  | item xs g b r h ih => rw [S.leftover_item h, ih, S.scan_item h]; rfl

/-- The items do not overlap and lie inside what is used. -/
theorem Scanner.items_spec (xs : List α) :
    (S.scan xs).items.Pairwise (fun i j => i.1 + i.2.length ≤ j.1)
      ∧ ∀ i ∈ (S.scan xs).items,
        i.2 ≠ [] ∧ i.1 + i.2.length ≤ (S.scan xs).used ∧ i.2 <+: xs.drop i.1 := by
  induction xs using S.scan_induction with
  | more xs h => simp [S.scan_more h]
  | bad xs h => simp [S.scan_bad h]
  | item xs g b r h ih =>
    obtain ⟨hp, hm⟩ := ih
    obtain ⟨rfl, hb⟩ := S.next_item h
    rw [S.scan_item h]
    simp only [Result.andThen, List.singleton_append, List.pairwise_cons, List.mem_map,
      List.pairwise_map, List.mem_cons]
    refine ⟨⟨?_, hp.imp fun h => by omega⟩, ?_⟩
    · rintro _ ⟨i, -, rfl⟩
      exact Nat.le_add_right _ _
    · rintro _ (rfl | ⟨i, hi, rfl⟩)
      · exact ⟨hb, Nat.le_add_right _ _, by simp⟩
      · obtain ⟨h1, h2, h3⟩ := hm i hi
        refine ⟨h1, by simp only []; omega, ?_⟩
        rw [← List.drop_drop, ← List.length_append, List.drop_left]
        exact h3

end Scan
