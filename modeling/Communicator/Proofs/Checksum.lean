import Communicator.Crc
import Communicator.Lib.ShiftRegister

/-!
# The checksum bit by bit

A word of the table is what a byte leaves in the register in front of it, and the step over a byte
is that word for the byte and the checksum's upper half, and the lower half moved up.
-/

namespace Communicator

open ShiftRegister

/-- The bits of the bytes, of each the most significant first. -/
def byteBits (data : List UInt8) : List Bool := data.flatMap fun b => bits b.toBitVec

/-- CRC-16/CCITT-FALSE. -/
def crcCcittFalse (data : List UInt8) : BitVec 16 := feeds 0x1021#16 0xFFFF#16 (byteBits data)

example : crcCcittFalse [0x31, 0x32, 0x33, 0x34, 0x35, 0x36, 0x37, 0x38, 0x39] = 0x29B1#16 := by
  decide +kernel

theorem byteBits_cons (b : UInt8) (data : List UInt8) :
    byteBits (b :: data) = bits b.toBitVec ++ byteBits data := List.flatMap_cons

theorem byteBits_append (data data' : List UInt8) :
    byteBits (data ++ data') = byteBits data ++ byteBits data' := List.flatMap_append

theorem crcTable_eq : ∀ i : Fin 256, (crcTable.getD i 0).toBitVec
    = feeds 0x1021#16 (BitVec.ofNat 16 i <<< 8) (List.replicate 8 false) := by
  decide +kernel

/-- The index `crc16` looks up. -/
def tableIndex (crc : BitVec 16) (byte : BitVec 8) : BitVec 16 :=
  ((crc >>> 8) ^^^ byte.setWidth 16) &&& 0xFF#16

theorem tableIndex_lt (crc : BitVec 16) (byte : BitVec 8) : (tableIndex crc byte).toNat < 256 := by
  rw [tableIndex, BitVec.toNat_and]
  exact Nat.lt_of_le_of_lt Nat.and_le_right (by decide)

/-- The upper half and the byte taken off, what is left only moves up. -/
theorem feeds_lower (crc : BitVec 16) (byte : BitVec 8) :
    feeds 0x1021#16 (crc ^^^ tableIndex crc byte <<< 8) (bits byte) = crc <<< 8 := by
  have hupper : ∀ i < (bits byte).length,
      (crc ^^^ tableIndex crc byte <<< 8).getMsbD i = (bits byte).getD i false := by
    intro i hi
    rw [length_bits] at hi
    have hmask : (0xFF#16).getMsbD (i + 8) = true := by
      revert i
      decide
    have hcrc : (crc >>> 8).getMsbD (i + 8) = crc.getMsbD i := by
      rw [BitVec.getMsbD_ushiftRight, Nat.add_sub_cancel, decide_eq_true (by omega),
        decide_eq_false (by omega)]
      rfl
    have hbyte : (byte.setWidth 16).getMsbD (i + 8) = byte.getMsbD i := by
      rw [BitVec.getMsbD_setWidth, decide_eq_true (by omega), Bool.true_and]
      exact congrArg _ (by omega)
    rw [getD_bits, BitVec.getMsbD_xor, BitVec.getMsbD_shiftLeft, tableIndex, BitVec.getMsbD_and,
      hmask, BitVec.getMsbD_xor, hcrc, hbyte]
    cases crc.getMsbD i <;> cases byte.getMsbD i <;> rfl
  have hgone : (tableIndex crc byte <<< 8) <<< 8 = 0#16 := by
    rw [← BitVec.shiftLeft_add]
    exact BitVec.shiftLeft_eq_zero (by decide)
  rw [feeds_eq_shiftLeft hupper, length_bits, BitVec.shiftLeft_xor_distrib, hgone, BitVec.xor_zero]

theorem crcStep_eq (crc : UInt16) (byte : UInt8) :
    (crcStep crc byte).toBitVec = feeds 0x1021#16 crc.toBitVec (bits byte.toBitVec) := by
  generalize hcrc : crc.toBitVec = x
  generalize hbyte : byte.toBitVec = y
  have htable := crcTable_eq ⟨(tableIndex x y).toNat, tableIndex_lt x y⟩
  have hzeros : List.zipWith xor (List.replicate 8 false) (bits y) = bits y :=
    zipWith_false (bits y)
  have hsplit : x = tableIndex x y <<< 8 ^^^ (x ^^^ tableIndex x y <<< 8) := by
    rw [BitVec.xor_comm x, ← BitVec.xor_assoc, BitVec.xor_self, BitVec.zero_xor]
  calc (crcStep crc byte).toBitVec
      = (crcTable.getD (tableIndex x y).toNat 0).toBitVec ^^^ x <<< 8 := by
        rw [← hcrc, ← hbyte]
        rfl
    _ = feeds 0x1021#16 (tableIndex x y <<< 8) (List.replicate 8 false)
          ^^^ feeds 0x1021#16 (x ^^^ tableIndex x y <<< 8) (bits y) := by
        rw [feeds_lower, htable, BitVec.ofNat_toNat, BitVec.setWidth_eq]
    _ = feeds 0x1021#16 x (bits y) := by
        rw [← feeds_xor (by simp), hzeros, ← hsplit]

/-- The table-driven loop computes CRC-16/CCITT-FALSE. -/
theorem crc16_eq (data : List UInt8) : (crc16 data).toBitVec = crcCcittFalse data := by
  have hfold : ∀ (data : List UInt8) (crc : UInt16), (data.foldl crcStep crc).toBitVec
      = feeds 0x1021#16 crc.toBitVec (byteBits data) := by
    intro data
    induction data with
    | nil => exact fun _ => rfl
    | cons b data ih =>
      intro crc
      rw [List.foldl_cons, ih, crcStep_eq, byteBits_cons, feeds_append]
  exact hfold data 0xFFFF

end Communicator
