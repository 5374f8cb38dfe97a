import Mathlib.Data.List.Basic

/-!
# Chains of blocks

A chain is a list of blocks, each behind a header of fixed width that holds its length. Splitting
a chain finds the blocks it was joined from (`split_join`), or fails
where the last block is cut short.
-/

namespace Chain

variable {α : Type*}

/-- A length header: how it is read, and how a length below the bound is written. -/
structure Header (α : Type*) where
  width : ℕ
  width_pos : 0 < width
  size : List α → ℕ
  bound : ℕ
  write : ℕ → List α
  length_write : ∀ n, (write n).length = width
  size_write : ∀ {n}, n < bound → size (write n) = n

variable (F : Header α)

/-- The blocks of a chain, or `none` where it ends inside of one. -/
def split (xs : List α) : Option (List (List α)) :=
  if h : xs = [] then some []
  else if xs.length < F.width + F.size (xs.take F.width) then none
  else
    have : xs.length - (F.width + F.size (xs.take F.width)) < xs.length := by
      have := F.width_pos
      have := List.length_pos_iff.2 h
      omega
    (split (xs.drop (F.width + F.size (xs.take F.width)))).map
      (((xs.drop F.width).take (F.size (xs.take F.width))) :: ·)
  termination_by xs.length
  decreasing_by simpa using this

def join (blocks : List (List α)) : List α := blocks.flatMap fun b => F.write b.length ++ b

@[simp]
theorem split_nil : split F [] = some [] := by
  rw [split, dif_pos rfl]

theorem split_of_short {xs : List α} (h : xs ≠ [])
    (hl : xs.length < F.width + F.size (xs.take F.width)) : split F xs = none := by
  rw [split, dif_neg h, if_pos hl]

theorem split_of_le {xs : List α} (h : xs ≠ [])
    (hl : F.width + F.size (xs.take F.width) ≤ xs.length) :
    split F xs = (split F (xs.drop (F.width + F.size (xs.take F.width)))).map
      (((xs.drop F.width).take (F.size (xs.take F.width))) :: ·) := by
  rw [split, dif_neg h, if_neg (Nat.not_lt.2 hl)]

theorem split_write {b : List α} (h : b.length < F.bound) (rest : List α) :
    split F (F.write b.length ++ (b ++ rest)) = (split F rest).map (b :: ·) := by
  have hw := F.length_write b.length
  have hb := F.size_write h
  have ht : (F.write b.length ++ (b ++ rest)).take F.width = F.write b.length := by
    rw [← hw, List.take_left]
  have hd : (F.write b.length ++ (b ++ rest)).drop F.width = b ++ rest := by
    rw [← hw, List.drop_left]
  have hne : F.write b.length ++ (b ++ rest) ≠ [] := by
    intro hn
    have := F.width_pos
    simp_all
  rw [split_of_le F hne (by rw [ht, hb]; simp; omega), ht, hb, hd, ← List.drop_drop, hd,
    List.take_left, List.drop_left]

theorem split_join_append : ∀ (blocks : List (List α)) (rest : List α),
    (∀ b ∈ blocks, b.length < F.bound) →
      split F (join F blocks ++ rest) = (split F rest).map (blocks ++ ·)
  | [], rest, _ => by simp [join]
  | b :: blocks, rest, h => by
    have ih := split_join_append blocks rest fun c hc => h c (List.mem_cons_of_mem _ hc)
    have hj : join F (b :: blocks) ++ rest
        = F.write b.length ++ (b ++ (join F blocks ++ rest)) := by
      simp [join]
    rw [hj, split_write F (h b List.mem_cons_self), ih, Option.map_map]
    rfl

theorem split_join (blocks : List (List α)) (h : ∀ b ∈ blocks, b.length < F.bound) :
    split F (join F blocks) = some blocks := by
  have := split_join_append F blocks [] h
  rw [split_nil] at this
  simpa using this

/-- Where every header is one that is written, only chains are split. -/
theorem join_of_split
    (hF : ∀ xs, xs.length = F.width → F.size xs < F.bound ∧ F.write (F.size xs) = xs)
    (xs : List α) : ∀ {blocks : List (List α)}, split F xs = some blocks →
      xs = join F blocks ∧ ∀ b ∈ blocks, b.length < F.bound := by
  induction xs using split.induct F with
  | case1 =>
    rintro blocks h
    rw [split_nil] at h
    obtain rfl := Option.some.inj h
    exact ⟨rfl, by simp⟩
  | case2 xs hne hl =>
    rintro blocks h
    simp [split_of_short F hne hl] at h
  | case3 xs hne hl hlt ih =>
    rintro blocks h
    have hle := Nat.not_lt.1 hl
    rw [split_of_le F hne hle] at h
    obtain ⟨blocks, hs, rfl⟩ := Option.map_eq_some_iff.1 h
    obtain ⟨hx, hb⟩ := ih hs
    have htake : (xs.take F.width).length = F.width := List.length_take_of_le (by omega)
    obtain ⟨hlt, hw⟩ := hF _ htake
    have hlen : ((xs.drop F.width).take (F.size (xs.take F.width))).length
        = F.size (xs.take F.width) := by
      simp
      omega
    refine ⟨?_, List.forall_mem_cons.2 ⟨by rwa [hlen], hb⟩⟩
    rw [join, List.flatMap_cons, ← join, ← hx, hlen, hw, ← List.drop_drop, List.append_assoc,
      List.take_append_drop, List.take_append_drop]

end Chain
