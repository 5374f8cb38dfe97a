import Mathlib.Data.List.Basic
import Mathlib.Data.Nat.Notation

/-!
# Loops over tagged records

An input is read one record at a time: a tag, and then a body whose reader the tag decides.
`Loop.run` is the loop as parser generators write it: behind a record it first tries the tags that
usually come next, and jumps to their readers. `Loop.merge` is the plain loop, which looks up every
tag. The two agree when the labels are right (`run_eq_merge`), so the rest is about the plain one.
-/

namespace Tagged

/-- What a tag reader finds in front of it. -/
inductive Next (τ β : Type*)
  | atEnd
  | invalid
  | tag (t : τ) (rest : List β)

/-- Reads a body into a record: the record it leaves behind, and the input after the body, or
`none` when it failed. -/
abbrev Reader (μ β : Type*) := μ → List β → μ × Option (List β)

/-- Why a loop stopped. -/
inductive Stop (τ β : Type*)
  | atEnd
  | invalid
  | closed (t : τ) (rest : List β)
  | failed
  | exhausted

/-- What is tried behind a record: a tag with the label to go to, or the end of the input. -/
inductive Check (τ ι : Type*)
  | expect (t : τ) (i : ι)
  | atEnd

structure Loop (τ ι β μ : Type*) where
  next : List β → Next τ β
  expect : τ → List β → Option (List β)
  expectAtEnd : List β → Bool
  switch : τ → Option (Reader μ β × ι)
  label : ι → Reader μ β
  checks : ι → List (Check τ ι)
  closes : τ → Bool
  skip : τ → Reader μ β

inductive Exit (ι β : Type*)
  | goto (i : ι) (rest : List β)
  | leave
  | head

inductive Turn (τ β μ : Type*)
  | stop (m : μ) (why : Stop τ β)
  | next (m : μ) (rest : List β)

variable {τ ι β μ : Type*}

/-- What a reader's result means for the loop. -/
def Turn.of : μ × Option (List β) → Turn τ β μ
  | (m, none) => .stop m .failed
  | (m, some rest) => .next m rest

namespace Loop

variable (L : Loop τ ι β μ)

/-! ## The two loops -/

def exit : List (Check τ ι) → List β → Exit ι β
  | [], _ => .head
  | .expect t i :: checks, s =>
    match L.expect t s with
    | some rest => .goto i rest
    | none => exit checks s
  | .atEnd :: checks, s => if L.expectAtEnd s then .leave else exit checks s

/-- Where the loop goes once the reader of `i` returned `result`; `go` is the rest of the loop. -/
def after (go : Option ι → μ → List β → μ × Stop τ β) (i : ι) :
    μ × Option (List β) → μ × Stop τ β
  | (m, none) => (m, .failed)
  | (m, some s) =>
    match L.exit (L.checks i) s with
    | .goto j rest => go (some j) m rest
    | .leave => (m, .atEnd)
    | .head => go none m s

/-- The loop from its head, or from the label `some i`; `fuel` counts the records. -/
def run : ℕ → Option ι → μ → List β → μ × Stop τ β
  | 0, _, m, _ => (m, .exhausted)
  | fuel + 1, some i, m, s => L.after (run fuel) i (L.label i m s)
  | fuel + 1, none, m, s =>
    match L.next s with
    | .atEnd => (m, .atEnd)
    | .invalid => (m, .invalid)
    | .tag t rest =>
      match L.switch t with
      | some (read, i) => L.after (run fuel) i (read m rest)
      | none =>
        if L.closes t then (m, .closed t rest)
        else
          match L.skip t m rest with
          | (m, none) => (m, .failed)
          | (m, some s) => run fuel none m s

/-- The reader of a tag's body, or `none` for a tag that closes the loop. -/
def act (t : τ) : Option (Reader μ β) :=
  match L.switch t with
  | some (read, _) => some read
  | none => if L.closes t then none else some (L.skip t)

def turn (m : μ) (s : List β) : Turn τ β μ :=
  match L.next s with
  | .atEnd => .stop m .atEnd
  | .invalid => .stop m .invalid
  | .tag t rest =>
    match L.act t with
    | none => .stop m (.closed t rest)
    | some read => .of (read m rest)

def turns : ℕ → μ → List β → μ × Stop τ β
  | 0, m, _ => (m, .exhausted)
  | fuel + 1, m, s =>
    match L.turn m s with
    | .stop m why => (m, why)
    | .next m rest => turns fuel m rest

def merge (m : μ) (s : List β) : μ × Stop τ β := L.turns (s.length + 1) m s

/-! ## The plain loop ends -/

structure Shrinks : Prop where
  next_lt : ∀ {s t rest}, L.next s = .tag t rest → rest.length < s.length
  act_le : ∀ {t read m s m' rest}, L.act t = some read → read m s = (m', some rest) →
    rest.length ≤ s.length

variable {L}

theorem turn_tag {s rest : List β} {t : τ} {read : Reader μ β} (hs : L.next s = .tag t rest)
    (ht : L.act t = some read) (m : μ) : L.turn m s = .of (read m rest) := by
  unfold turn
  rw [hs]
  simp only [ht]

theorem turn_next {m m' : μ} {s rest : List β} (h : L.turn m s = .next m' rest) :
    ∃ t body read, L.next s = .tag t body ∧ L.act t = some read
      ∧ read m body = (m', some rest) := by
  unfold turn at h
  split at h
  · cases h
  · cases h
  · rename_i t body hs
    split at h
    · cases h
    · rename_i read ht
      rcases hr : read m body with ⟨m₁, _ | s₁⟩
      · rw [hr] at h
        cases h
      · rw [hr] at h
        cases h
        exact ⟨t, body, read, hs, ht, hr⟩

theorem Shrinks.turn_lt (h : L.Shrinks) {m m' : μ} {s rest : List β}
    (ht : L.turn m s = .next m' rest) : rest.length < s.length := by
  obtain ⟨t, body, read, hs, hact, hr⟩ := turn_next ht
  have h₁ := h.next_lt hs
  have h₂ := h.act_le hact hr
  omega

theorem Shrinks.turns_eq (h : L.Shrinks) : ∀ (f g : ℕ) (m : μ) (s : List β), s.length < f →
    s.length < g → L.turns f m s = L.turns g m s
  | 0, _, _, _, hf, _ => absurd hf (Nat.not_lt_zero _)
  | _, 0, _, _, _, hg => absurd hg (Nat.not_lt_zero _)
  | f + 1, g + 1, m, s, hf, hg => by
    unfold turns
    split
    · rfl
    · rename_i m' rest ht
      have hlt := h.turn_lt ht
      exact turns_eq h f g m' rest (by omega) (by omega)

theorem Shrinks.merge_eq (h : L.Shrinks) (m : μ) (s : List β) :
    L.merge m s = match L.turn m s with
      | .stop m why => (m, why)
      | .next m rest => L.merge m rest := by
  unfold merge
  rw [turns]
  split
  · rfl
  · rename_i m' rest ht
    have hlt := h.turn_lt ht
    exact h.turns_eq _ _ m' rest (by omega) (by omega)

theorem Shrinks.merge_next (h : L.Shrinks) {m m' : μ} {s rest : List β}
    (ht : L.turn m s = .next m' rest) : L.merge m s = L.merge m' rest := by
  rw [h.merge_eq, ht]

theorem Shrinks.merge_stop (h : L.Shrinks) {m m' : μ} {s : List β} {why : Stop τ β}
    (ht : L.turn m s = .stop m' why) : L.merge m s = (m', why) := by
  rw [h.merge_eq, ht]

/-- Induction on the turns of the plain loop. -/
theorem Shrinks.merge_induct (h : L.Shrinks) {motive : μ → List β → μ × Stop τ β → Prop}
    (stop : ∀ m s m' why, L.turn m s = .stop m' why → motive m s (m', why))
    (next : ∀ m s m' rest, L.turn m s = .next m' rest → motive m' rest (L.merge m' rest) →
      motive m s (L.merge m' rest)) (m : μ) (s : List β) : motive m s (L.merge m s) := by
  induction hn : s.length using Nat.strongRecOn generalizing m s with
  | _ n ih =>
    rcases ht : L.turn m s with ⟨m', why⟩ | ⟨m', rest⟩
    · rw [h.merge_stop ht]
      exact stop m s m' why ht
    · rw [h.merge_next ht]
      have hlt := h.turn_lt ht
      exact next m s m' rest ht (ih rest.length (by omega) m' rest rfl)

theorem turn_stop {m m' : μ} {s : List β} {why : Stop τ β} (h : L.turn m s = .stop m' why)
    (hw : why ≠ .failed) : m' = m := by
  unfold turn at h
  split at h
  · cases h
    rfl
  · cases h
    rfl
  · rename_i t body hs
    split at h
    · cases h
      rfl
    · rename_i read ht
      rcases hr : read m body with ⟨m₁, _ | s₁⟩
      · rw [hr] at h
        cases h
        exact absurd rfl hw
      · rw [hr] at h
        cases h

theorem Shrinks.merge_ne_exhausted (h : L.Shrinks) (m : μ) (s : List β) :
    (L.merge m s).2 ≠ .exhausted := by
  refine h.merge_induct (motive := fun _ _ r => r.2 ≠ .exhausted) ?_ (fun _ _ _ _ _ ih => ih) m s
  intro m s m' why ht hw
  obtain rfl : why = .exhausted := hw
  unfold turn at ht
  split at ht
  · cases ht
  · cases ht
  · rename_i t body _
    split at ht
    · cases ht
    · rename_i read _
      rcases hr : read m body with ⟨m₁, _ | s₁⟩ <;> rw [hr] at ht <;> cases ht

/-- What every successful turn keeps, a loop that does not fail keeps. -/
theorem Shrinks.merge_keeps (h : L.Shrinks) {P : μ → Prop}
    (hP : ∀ {s₀ t read m s m' rest}, L.next s₀ = .tag t s → L.act t = some read →
      read m s = (m', some rest) → P m → P m')
    {m : μ} {s : List β} (hm : P m) (hw : (L.merge m s).2 ≠ .failed) : P (L.merge m s).1 := by
  refine h.merge_induct (motive := fun m _ r => P m → r.2 ≠ .failed → P r.1) ?_ ?_ m s hm hw
  · intro m s m' why ht hm hw
    rw [turn_stop ht hw]
    exact hm
  · intro m s m' rest ht ih hm hw
    obtain ⟨t, body, read, hs, hact, hr⟩ := turn_next ht
    exact ih (hP hs hact hr hm) hw

/-- What a loop that ended at a closing tag leaves is shorter than what it was given. -/
theorem Shrinks.closed_lt (h : L.Shrinks) {m m' : μ} {s rest : List β} {t : τ}
    (hm : L.merge m s = (m', .closed t rest)) : rest.length < s.length := by
  refine h.merge_induct (motive := fun _ s r => ∀ t rest, r.2 = .closed t rest →
    rest.length < s.length) ?_ ?_ m s t rest (congrArg Prod.snd hm)
  · rintro m s m' why ht t rest rfl
    unfold turn at ht
    split at ht
    · cases ht
    · cases ht
    · rename_i t₁ body hs
      split at ht
      · cases ht
        exact h.next_lt hs
      · rename_i read _
        rcases hr : read m body with ⟨m₁, _ | s₁⟩ <;> rw [hr] at ht <;> cases ht
  · intro m s m' rest₁ ht ih t rest hr
    exact Nat.lt_trans (ih t rest hr) (h.turn_lt ht)

/-! ## The loop with jumps is the plain loop -/

structure Sound (L : Loop τ ι β μ) : Prop where
  expect_next : ∀ {t s rest}, L.expect t s = some rest → L.next s = .tag t rest
  atEnd_next : ∀ {s}, L.expectAtEnd s = true → L.next s = .atEnd
  label_switch : ∀ {i t j}, .expect t j ∈ L.checks i → L.switch t = some (L.label j, j)

theorem exit_goto {s rest : List β} {j : ι} : ∀ {checks : List (Check τ ι)},
    L.exit checks s = .goto j rest → ∃ t, .expect t j ∈ checks ∧ L.expect t s = some rest
  | [], h => by cases h
  | .expect t i :: checks, h => by
    unfold exit at h
    split at h
    · rename_i rest' he
      cases h
      exact ⟨t, List.mem_cons_self, he⟩
    · obtain ⟨t', hmem, he⟩ := exit_goto h
      exact ⟨t', List.mem_cons_of_mem _ hmem, he⟩
  | .atEnd :: checks, h => by
    unfold exit at h
    split at h
    · cases h
    · obtain ⟨t', hmem, he⟩ := exit_goto h
      exact ⟨t', List.mem_cons_of_mem _ hmem, he⟩

theorem exit_leave {s : List β} : ∀ {checks : List (Check τ ι)}, L.exit checks s = .leave →
    L.expectAtEnd s = true
  | [], h => by cases h
  | .expect t i :: checks, h => by
    unfold exit at h
    split at h
    · cases h
    · exact exit_leave h
  | .atEnd :: checks, h => by
    unfold exit at h
    split at h
    · assumption
    · exact exit_leave h

/-- The loop behind a record, when the rest of it agrees with the plain loop. -/
theorem Sound.after_eq (hS : L.Sound) (hL : L.Shrinks) {go : Option ι → μ → List β → μ × Stop τ β}
    {n : ℕ} (head : ∀ m s, s.length < n → go none m s = L.merge m s)
    (label : ∀ m s t j rest, s.length < n → L.next s = .tag t rest →
      L.switch t = some (L.label j, j) → go (some j) m rest = L.merge m s)
    {i : ι} {r : μ × Option (List β)} (hr : ∀ s, r.2 = some s → s.length < n) :
    L.after go i r = match Turn.of (τ := τ) r with
      | .stop m why => (m, why)
      | .next m rest => L.merge m rest := by
  rcases r with ⟨m, _ | s⟩
  · rfl
  · have hs := hr s rfl
    simp only [after, Turn.of]
    split
    · rename_i j rest he
      obtain ⟨t, hmem, hx⟩ := exit_goto he
      exact label m s t j rest hs (hS.expect_next hx) (hS.label_switch hmem)
    · rename_i he
      have hx := hS.atEnd_next (exit_leave he)
      have hturn : L.turn m s = .stop m .atEnd := by
        unfold turn
        rw [hx]
      rw [hL.merge_stop hturn]
    · exact head m s hs

theorem Sound.run_eq (hS : L.Sound) (hL : L.Shrinks) : ∀ (fuel : ℕ) (m : μ) (s : List β),
    s.length < fuel → L.run fuel none m s = L.merge m s
      ∧ ∀ t i rest, L.next s = .tag t rest → L.switch t = some (L.label i, i) →
        L.run fuel (some i) m rest = L.merge m s
  | 0, _, _, h => absurd h (Nat.not_lt_zero _)
  | fuel + 1, m, s, h => by
    have head : ∀ m s, s.length < fuel → L.run fuel none m s = L.merge m s :=
      fun m s hs => (run_eq hS hL fuel m s hs).1
    have label : ∀ m s t j rest, s.length < fuel → L.next s = .tag t rest →
        L.switch t = some (L.label j, j) → L.run fuel (some j) m rest = L.merge m s :=
      fun m s t j rest hs => (run_eq hS hL fuel m s hs).2 t j rest
    have short : ∀ {t read rest}, L.next s = .tag t rest → L.act t = some read →
        ∀ s', (read m rest).2 = some s' → s'.length < fuel := by
      intro t read rest hs hact s' hr
      have h₁ := hL.next_lt hs
      have h₂ := hL.act_le hact (Prod.ext (rfl : _ = (read m rest).1) hr)
      omega
    constructor
    · rw [hL.merge_eq]
      unfold run turn
      cases hs : L.next s with
      | atEnd => rfl
      | invalid => rfl
      | tag t rest =>
        cases ht : L.switch t with
        | some p =>
          obtain ⟨read, i⟩ := p
          have hact : L.act t = some read := by simp only [act, ht]
          simp only [ht, hact]
          exact hS.after_eq hL head label (short hs hact)
        | none =>
          by_cases hc : L.closes t = true
          · simp only [act, ht, hc, if_true]
          · have hact : L.act t = some (L.skip t) := by simp only [act, ht, hc]; rfl
            simp only [ht, hact, if_neg hc]
            rcases hr : L.skip t m rest with ⟨m', _ | s'⟩
            · rfl
            · exact head m' s' (short hs hact s' (by rw [hr]))
    · intro t i rest hs ht
      have hact : L.act t = some (L.label i) := by simp only [act, ht]
      rw [hL.merge_eq, turn_tag hs hact]
      unfold run
      exact hS.after_eq hL head label (short hs hact)

theorem Sound.run_eq_merge (hS : L.Sound) (hL : L.Shrinks) (m : μ) (s : List β) :
    L.run (s.length + 1) none m s = L.merge m s :=
  (hS.run_eq hL _ m s (Nat.lt_succ_self _)).1

/-! ## Pieces of input -/

/-- The loop takes `bytes` in whatever follows them, and does `f` to the record. -/
def Feeds (L : Loop τ ι β μ) (bytes : List β) (f : μ → μ) : Prop :=
  ∀ m s, L.merge m (bytes ++ s) = L.merge (f m) s

theorem Shrinks.feeds (h : L.Shrinks) {bytes : List β} {f : μ → μ}
    (ht : ∀ m s, L.turn m (bytes ++ s) = .next (f m) s) : L.Feeds bytes f :=
  fun m s => h.merge_next (ht m s)

theorem Feeds.nil : L.Feeds [] fun m => m := fun _ _ => rfl

theorem Feeds.append {bytes bytes' : List β} {f g : μ → μ} (hf : L.Feeds bytes f)
    (hg : L.Feeds bytes' g) : L.Feeds (bytes ++ bytes') fun m => g (f m) := by
  intro m s
  rw [List.append_assoc, hf, hg]

theorem Feeds.flatMap {α : Type*} {write : α → List β} {effect : α → μ → μ} : ∀ {xs : List α},
    (∀ x ∈ xs, L.Feeds (write x) (effect x)) →
      L.Feeds (xs.flatMap write) fun m => xs.foldl (fun m x => effect x m) m
  | [], _ => Feeds.nil
  | x :: xs, h => by
    rw [List.flatMap_cons]
    exact (h x List.mem_cons_self).append (flatMap fun y hy => h y (List.mem_cons_of_mem _ hy))

end Loop

end Tagged
