import Mathlib.Data.List.Basic

/-!
# Escape codes

A symbol that delimits a stream is kept out of its payload by writing an escape symbol and a
stand-in. The decoder carries one bit, whether the symbol before was an escape, so decoding a
stream piece by piece is decoding it whole (`decode_append`), and it reads back what was encoded
(`decode_encode`).
-/

namespace Stuffing

variable {α : Type*}

/-- An escape symbol, what stands in for the symbols written escaped, and what a stand-in is
read as. The escape symbol is written escaped itself. -/
structure Code (α : Type*) where
  esc : α
  standIn : α → Option α
  original : α → Option α
  original_standIn : ∀ {a c}, standIn a = some c → original c = some a
  standIn_esc : (standIn esc).isSome

variable (C : Code α)

def encodeOne (a : α) : List α :=
  match C.standIn a with
  | some c => [C.esc, c]
  | none => [a]

def encode (xs : List α) : List α := xs.flatMap (encodeOne C)

/-- A symbol that is written escaped, is not the escape symbol and stands in for none does not
occur in an encoded stream. -/
theorem not_mem_encode {d : α} (hd : (C.standIn d).isSome) (he : d ≠ C.esc)
    (hc : ∀ a, C.standIn a ≠ some d) (xs : List α) : d ∉ encode C xs := by
  intro h
  obtain ⟨a, -, ha⟩ := List.mem_flatMap.1 h
  unfold encodeOne at ha
  cases hs : C.standIn a with
  | none =>
    simp only [hs, List.mem_singleton] at ha
    simp [ha, hs] at hd
  | some c =>
    simp only [hs, List.mem_cons, List.not_mem_nil, or_false] at ha
    rcases ha with ha | rfl
    · exact he ha
    · exact hc a hs

section Decode

variable [DecidableEq α]

/-- What one symbol appends to the decoded stream, and whether it opened an escape; `pending`
says whether the symbol before did. An escape followed by no stand-in stands for itself. -/
def decodeStep (pending : Bool) (a : α) : List α × Bool :=
  if pending then
    match C.original a with
    | some b => ([b], false)
    | none => ([C.esc, a], false)
  else if a = C.esc then ([], true)
  else ([a], false)

def decode : Bool → List α → List α × Bool
  | s, [] => ([], s)
  | s, a :: as =>
    ((decodeStep C s a).1 ++ (decode (decodeStep C s a).2 as).1,
      (decode (decodeStep C s a).2 as).2)

@[simp]
theorem decode_nil (s : Bool) : decode C s [] = ([], s) := rfl

theorem decode_append : ∀ (s : Bool) (xs ys : List α),
    decode C s (xs ++ ys) = ((decode C s xs).1 ++ (decode C (decode C s xs).2 ys).1,
      (decode C (decode C s xs).2 ys).2)
  | _, [], _ => rfl
  | s, a :: as, ys => by
    simp only [List.cons_append, decode, decode_append _ as ys, List.append_assoc]

theorem decode_encodeOne (a : α) : decode C false (encodeOne C a) = ([a], false) := by
  unfold encodeOne
  cases h : C.standIn a with
  | none =>
    have ha : a ≠ C.esc := by
      rintro rfl
      simpa [h] using C.standIn_esc
    simp [decode, decodeStep, ha]
  | some c => simp [decode, decodeStep, C.original_standIn h]

theorem decode_encode : ∀ xs : List α, decode C false (encode C xs) = (xs, false)
  | [] => rfl
  | a :: as => by
    have ih := decode_encode as
    unfold encode at ih ⊢
    rw [List.flatMap_cons, decode_append, decode_encodeOne, ih]
    rfl

end Decode

end Stuffing
