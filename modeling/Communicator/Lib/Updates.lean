import Mathlib.Data.List.Basic
import Mathlib.Data.List.Induction
import Mathlib.Logic.Function.Basic

/-!
# A table and a list of updates

What a table holds after updates were made one after another: for each key the last of its updates.
And what is left of an update if only some entries of the new table are kept.
-/

namespace Updates

variable {κ ν : Type*} [DecidableEq κ]

def apply (m : κ → Option ν) (us : List (κ × ν)) : κ → Option ν :=
  us.foldl (fun m u => Function.update m u.1 (some u.2)) m

variable {m : κ → Option ν} {us : List (κ × ν)} {k : κ} {v : ν}

theorem apply_concat : apply m (us ++ [(k, v)]) = Function.update (apply m us) k (some v) := by
  rw [apply, List.foldl_append]
  rfl

/-- What an update wrote is there unless a later update of the same key replaced it. -/
theorem exists_apply_eq {j : ℕ} (h : us[j]? = some (k, v)) :
    ∃ j' v', j ≤ j' ∧ us[j']? = some (k, v') ∧ apply m us k = some v' := by
  induction us using List.reverseRecOn with
  | nil => simp at h
  | append_singleton us u ih =>
    obtain ⟨k', v'⟩ := u
    have hlt : j < (us ++ [(k', v')]).length := (List.getElem?_eq_some_iff.1 h).1
    rw [List.length_append, List.length_singleton] at hlt
    by_cases hk : k' = k
    · subst hk
      refine ⟨us.length, v', by omega, by simp, ?_⟩
      rw [apply_concat, Function.update_self]
    · have hj : j < us.length := by
        refine Nat.lt_of_le_of_ne (by omega) fun hj => hk ?_
        rw [hj, List.getElem?_concat_length, Option.some.injEq, Prod.mk.injEq] at h
        exact h.1
      rw [List.getElem?_append_left hj] at h
      obtain ⟨j', w, hle, hget, happ⟩ := ih h
      have hj' : j' < us.length := (List.getElem?_eq_some_iff.1 hget).1
      refine ⟨j', w, hle, by rw [List.getElem?_append_left hj', hget], ?_⟩
      rw [apply_concat, Function.update_of_ne (Ne.symm hk), happ]

/-- The entries of the keys that are kept. -/
def restrict (kept : κ → Bool) (m : κ → Option ν) : κ → Option ν :=
  fun k => if kept k then m k else none

/-- An updated table of which some entries were lost is the old table or the new one exactly if
the keys of the old table kept theirs. -/
theorem restrict_update_iff (kept : κ → Bool) (m : κ → Option ν) (k : κ) (v : ν) :
    (restrict kept (Function.update m k (some v)) = m
      ∨ restrict kept (Function.update m k (some v)) = Function.update m k (some v))
      ↔ ∀ d, m d ≠ none → kept d = true := by
  have hgone : ∀ d, kept d ≠ true → restrict kept (Function.update m k (some v)) d = none :=
    fun d hd => if_neg hd
  have hkept : ∀ d, kept d = true → restrict kept (Function.update m k (some v)) d
      = Function.update m k (some v) d := fun d hd => if_pos hd
  constructor
  · intro h d hd
    by_contra hk
    rcases h with h | h
    · exact hd ((congrFun h d).symm.trans (hgone d hk))
    · have hnone := (congrFun h d).symm.trans (hgone d hk)
      by_cases hdk : d = k
      · subst hdk
        simp at hnone
      · rw [Function.update_of_ne hdk] at hnone
        exact hd hnone
  · intro h
    have hnone : ∀ d, kept d ≠ true → m d = none := fun d hd => not_not.1 fun hm => hd (h d hm)
    by_cases hk : kept k = true
    · refine .inr (funext fun d => ?_)
      by_cases hd : kept d = true
      · exact hkept d hd
      · have hdk : d ≠ k := fun hdk => hd (hdk ▸ hk)
        rw [hgone d hd, Function.update_of_ne hdk, hnone d hd]
    · refine .inl (funext fun d => ?_)
      by_cases hd : kept d = true
      · have hdk : d ≠ k := fun hdk => hk (hdk ▸ hd)
        rw [hkept d hd, Function.update_of_ne hdk]
      · rw [hgone d hd, hnone d hd]

end Updates
