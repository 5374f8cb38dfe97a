import Mathlib.Data.List.Basic
import Mathlib.Data.List.GetD

/-!
# Division by a polynomial in a shift register

A register of `w` bits takes in a stream one bit at a time, the most significant first, and gives
back the remainder of the stream's polynomial by its own. A step is linear over exclusive or, so
what an error does to the remainder depends on the error alone; and if the polynomial has a
constant term, no error within `w` consecutive bits leaves the remainder as it was.
-/

namespace ShiftRegister

variable {w : ℕ}

def feed (p x : BitVec w) (b : Bool) : BitVec w :=
  if x.msb != b then (x <<< 1) ^^^ p else x <<< 1

def feeds (p x : BitVec w) (bs : List Bool) : BitVec w := bs.foldl (feed p) x

/-- The bits of a word, the most significant first. -/
def bits (x : BitVec w) : List Bool := (List.range w).map x.getMsbD

variable {p x y : BitVec w} {b : Bool} {bs cs : List Bool}

@[simp]
theorem feeds_nil : feeds p x [] = x := rfl

@[simp]
theorem feeds_cons : feeds p x (b :: bs) = feeds p (feed p x b) bs := rfl

theorem feeds_append : feeds p x (bs ++ cs) = feeds p (feeds p x bs) cs := List.foldl_append

@[simp]
theorem length_bits (x : BitVec w) : (bits x).length = w := by
  simp [bits]

theorem getD_bits (x : BitVec w) (i : ℕ) : (bits x).getD i false = x.getMsbD i := by
  by_cases h : i < w
  · rw [List.getD_eq_getElem _ _ (by simpa using h)]
    simp [bits]
  · rw [List.getD_eq_default _ _ (by simpa using h), BitVec.getMsbD_of_ge _ _ (Nat.le_of_not_lt h)]

/-! ## Linearity -/

theorem feed_xor (p x y : BitVec w) (b c : Bool) :
    feed p (x ^^^ y) (b ^^ c) = feed p x b ^^^ feed p y c := by
  have hcancel : ∀ a d : BitVec w, a ^^^ p ^^^ (d ^^^ p) = a ^^^ d := fun a d => by
    rw [BitVec.xor_comm d p, BitVec.xor_assoc, ← BitVec.xor_assoc p p d, BitVec.xor_self,
      BitVec.zero_xor]
  unfold feed
  rw [BitVec.msb_xor, BitVec.shiftLeft_xor_distrib]
  cases x.msb <;> cases y.msb <;> cases b <;> cases c <;>
    simp [hcancel, BitVec.xor_assoc, BitVec.xor_comm p]

theorem feeds_xor : ∀ {bs cs : List Bool} {x y : BitVec w}, bs.length = cs.length →
    feeds p (x ^^^ y) (List.zipWith xor bs cs) = feeds p x bs ^^^ feeds p y cs
  | [], [], _, _, _ => rfl
  | b :: bs, c :: cs, x, y, h => by
    rw [List.zipWith_cons_cons, feeds_cons, feed_xor, feeds_xor (Nat.succ.inj h)]
    rfl

theorem zipWith_false : ∀ bs : List Bool,
    List.zipWith xor (List.replicate bs.length false) bs = bs
  | [] => rfl
  | b :: bs => by
    rw [List.length_cons, List.replicate_succ, List.zipWith_cons_cons, zipWith_false bs,
      Bool.false_xor]

/-! ## When nothing is left -/

/-- While the bits that come in are those that go out, the register only shifts. -/
theorem feeds_eq_shiftLeft : ∀ {bs : List Bool} {x : BitVec w},
    (∀ i < bs.length, x.getMsbD i = bs.getD i false) → feeds p x bs = x <<< bs.length
  | [], x, _ => by simp
  | b :: bs, x, h => by
    have hmsb : x.msb = b := h 0 (Nat.succ_pos _)
    have hfeed : feed p x b = x <<< 1 := by simp [feed, hmsb]
    have hnext : ∀ i < bs.length, (x <<< 1).getMsbD i = bs.getD i false := by
      intro i hi
      rw [BitVec.getMsbD_shiftLeft]
      exact h (i + 1) (Nat.succ_lt_succ hi)
    rw [feeds_cons, hfeed, feeds_eq_shiftLeft hnext, ← BitVec.shiftLeft_add, List.length_cons,
      Nat.add_comm]

/-- The register is empty after a stream that fits into it exactly if it held the stream. -/
theorem feeds_eq_zero_iff (hp : p.getMsbD (w - 1) = true) : ∀ {bs : List Bool} {x : BitVec w},
    bs.length ≤ w → (feeds p x bs = 0#w ↔ ∀ i, x.getMsbD i = bs.getD i false)
  | [], x, _ => by
    constructor
    · rintro rfl i
      simp
    · intro h
      exact BitVec.eq_of_getMsbD_eq fun i _ => by simpa using h i
  | b :: bs, x, hlen => by
    rw [List.length_cons] at hlen
    rw [feeds_cons, feeds_eq_zero_iff hp (by omega)]
    constructor
    · intro h
      have hmsb : x.msb = b := by
        by_contra hne
        have hlast := h (w - 1)
        rw [List.getD_eq_default _ _ (by omega)] at hlast
        have hfeed : feed p x b = (x <<< 1) ^^^ p := if_pos (by simpa using hne)
        rw [hfeed, BitVec.getMsbD_xor, BitVec.getMsbD_shiftLeft, hp,
          BitVec.getMsbD_of_ge _ _ (by omega)] at hlast
        cases hlast
      have hfeed : feed p x b = x <<< 1 := by simp [feed, hmsb]
      rintro (_ | i)
      · exact hmsb
      · have hi := h i
        rw [hfeed, BitVec.getMsbD_shiftLeft] at hi
        exact hi
    · intro h
      have hmsb : x.msb = b := h 0
      have hfeed : feed p x b = x <<< 1 := by simp [feed, hmsb]
      intro i
      rw [hfeed, BitVec.getMsbD_shiftLeft, h (i + 1)]
      rfl

/-- Zeros empty no register that was not empty. -/
theorem feeds_false_eq_zero_iff (hw : 0 < w) (hp : p.getMsbD (w - 1) = true) :
    ∀ {bs : List Bool} {x : BitVec w}, (∀ b ∈ bs, b = false) → (feeds p x bs = 0#w ↔ x = 0#w)
  | [], _, _ => Iff.rfl
  | b :: bs, x, h => by
    obtain rfl := h b List.mem_cons_self
    have hone : feed p x false = 0#w ↔ x = 0#w := by
      refine (feeds_eq_zero_iff hp (show [false].length ≤ w from hw)).trans ⟨fun hx => ?_, ?_⟩
      · refine BitVec.eq_of_getMsbD_eq fun i _ => ?_
        rw [hx i]
        cases i <;> simp
      · rintro rfl i
        cases i <;> simp
    rw [feeds_cons, feeds_false_eq_zero_iff hw hp fun b hb => h b (List.mem_cons_of_mem _ hb)]
    exact hone

/-- An error within `w` consecutive bits leaves something. -/
theorem feeds_burst_ne_zero (hw : 0 < w) (hp : p.getMsbD (w - 1) = true) {bs : List Bool} {s : ℕ}
    (hout : ∀ i, i < s ∨ s + w ≤ i → bs.getD i false = false) (hne : true ∈ bs) :
    feeds p 0#w bs ≠ 0#w := by
  have hsplit : bs = bs.take s ++ ((bs.drop s).take w ++ (bs.drop s).drop w) := by
    rw [List.take_append_drop, List.take_append_drop]
  have hfront : ∀ b ∈ bs.take s, b = false := by
    intro b hb
    obtain ⟨i, hi, rfl⟩ := List.getElem_of_mem hb
    rw [List.length_take] at hi
    rw [List.getElem_take, ← hout i (.inl (by omega)), List.getD_eq_getElem _ _ (by omega)]
  have hback : ∀ b ∈ (bs.drop s).drop w, b = false := by
    intro b hb
    rw [List.drop_drop] at hb
    obtain ⟨i, hi, rfl⟩ := List.getElem_of_mem hb
    rw [List.length_drop] at hi
    rw [List.getElem_drop, ← hout (s + w + i) (.inr (by omega)),
      List.getD_eq_getElem _ _ (by omega)]
  intro h0
  rw [hsplit, feeds_append, feeds_append, feeds_false_eq_zero_iff hw hp hback,
    (feeds_false_eq_zero_iff hw hp hfront).2 rfl,
    feeds_eq_zero_iff hp (List.length_take_le _ _)] at h0
  have hmiddle : ∀ b ∈ (bs.drop s).take w, b = false := by
    intro b hb
    obtain ⟨i, hi, rfl⟩ := List.getElem_of_mem hb
    rw [← List.getD_eq_getElem _ false hi, ← h0 i, BitVec.getMsbD_zero]
  rw [hsplit] at hne
  rcases List.mem_append.1 hne with h | h
  · cases hfront _ h
  · rcases List.mem_append.1 h with h | h
    · cases hmiddle _ h
    · cases hback _ h

theorem getD_zipWith_xor : ∀ {bs cs : List Bool}, bs.length = cs.length → ∀ i,
    (List.zipWith xor bs cs).getD i false = xor (bs.getD i false) (cs.getD i false)
  | [], [], _, i => by simp
  | b :: bs, c :: cs, h, i => by
    cases i with
    | zero => rfl
    | succ i => exact getD_zipWith_xor (Nat.succ.inj h) i

theorem true_mem_zipWith_xor : ∀ {bs cs : List Bool}, bs.length = cs.length → bs ≠ cs →
    true ∈ List.zipWith xor bs cs
  | [], [], _, h => absurd rfl h
  | b :: bs, c :: cs, hlen, h => by
    rw [List.zipWith_cons_cons]
    by_cases hbc : b = c
    · subst hbc
      have hne : bs ≠ cs := fun he => h (he ▸ rfl)
      exact List.mem_cons_of_mem _ (true_mem_zipWith_xor (Nat.succ.inj hlen) hne)
    · have hxor : xor b c = true := by simpa using hbc
      rw [hxor]
      exact List.mem_cons_self

/-- Two streams that differ, and only within `w` consecutive bits, leave different remainders. -/
theorem feeds_ne_of_burst (hw : 0 < w) (hp : p.getMsbD (w - 1) = true) (x : BitVec w)
    (hlen : bs.length = cs.length) {s : ℕ}
    (hout : ∀ i, i < s ∨ s + w ≤ i → bs.getD i false = cs.getD i false) (hne : bs ≠ cs) :
    feeds p x bs ≠ feeds p x cs := by
  intro h
  have hdiff : ∀ i, i < s ∨ s + w ≤ i → (List.zipWith xor bs cs).getD i false = false := by
    intro i hi
    rw [getD_zipWith_xor hlen, hout i hi, Bool.xor_self]
  have hzero : feeds p (x ^^^ x) (List.zipWith xor bs cs) = 0#w := by
    rw [feeds_xor hlen, h, BitVec.xor_self]
  rw [BitVec.xor_self] at hzero
  exact feeds_burst_ne_zero hw hp hdiff (true_mem_zipWith_xor hlen hne) hzero

end ShiftRegister
