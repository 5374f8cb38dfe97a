import Mathlib.Tactic.Ring
import Mathlib.Data.List.Basic

/-!
# Bytes in memory

Integers are little-endian, as on the machines the server is built for. A pointer into a buffer is
the list of the bytes from it to the end of the buffer, so that reading past the end is an outcome
of its own.
-/

namespace Communicator

def le : List UInt8 → ℕ
  | [] => 0
  | b :: bs => b.toNat + 256 * le bs

/-- The `w` bytes of an integer of that width. -/
def toLe : ℕ → ℕ → List UInt8
  | 0, _ => []
  | w + 1, v => UInt8.ofNat v :: toLe w (v / 256)

@[simp]
theorem length_toLe : ∀ w v : ℕ, (toLe w v).length = w
  | 0, _ => rfl
  | w + 1, v => by simp [toLe, length_toLe w]

theorem le_toLe : ∀ w v : ℕ, le (toLe w v) = v % 256 ^ w
  | 0, v => by simp [toLe, le, Nat.mod_one]
  | w + 1, v => by
    simp only [toLe, le, le_toLe w, UInt8.toNat_ofNat']
    rw [show 256 ^ (w + 1) = 256 * 256 ^ w from pow_succ' 256 w, Nat.mod_mul]

theorem le_lt : ∀ bs : List UInt8, le bs < 256 ^ bs.length
  | [] => by simp [le]
  | b :: bs => by
    have h1 := b.toNat_lt
    have h2 := le_lt bs
    simp only [le, List.length_cons, pow_succ]
    omega

theorem toLe_le : ∀ bs : List UInt8, toLe bs.length (le bs) = bs
  | [] => rfl
  | b :: bs => by
    have h1 := b.toNat_lt
    simp only [List.length_cons, toLe, le, List.cons.injEq]
    refine ⟨?_, ?_⟩
    · apply UInt8.toNat_inj.1
      rw [UInt8.toNat_ofNat']
      omega
    · rw [show (b.toNat + 256 * le bs) / 256 = le bs by omega, toLe_le bs]

/-- The `n` bytes at offset `k`, where the buffer holds them all. -/
def bytesAt (mem : List UInt8) (k n : ℕ) : Option (List UInt8) :=
  if k + n ≤ mem.length then some ((mem.drop k).take n) else none

theorem bytesAt_eq_some {mem bs : List UInt8} {k n : ℕ} :
    bytesAt mem k n = some bs ↔ k + n ≤ mem.length ∧ (mem.drop k).take n = bs := by
  simp [bytesAt]

theorem bytesAt_eq_none {mem : List UInt8} {k n : ℕ} :
    bytesAt mem k n = none ↔ mem.length < k + n := by
  simp [bytesAt]

theorem bytesAt_append {mem : List UInt8} {k n : ℕ} (h : k + n ≤ mem.length) (rest : List UInt8) :
    bytesAt (mem ++ rest) k n = bytesAt mem k n := by
  have h' : k + n ≤ (mem ++ rest).length := by
    rw [List.length_append]
    omega
  rw [bytesAt, bytesAt, if_pos h, if_pos h', List.drop_append_of_le_length (by omega),
    List.take_append_of_le_length (by rw [List.length_drop]; omega)]

end Communicator
