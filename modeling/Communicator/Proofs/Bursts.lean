import Communicator.Proofs.Checksum
import Communicator.TransportMessages

/-!
# What the checksum catches

The trailer is read high byte first, so it continues the bytes before it: a frame is accepted
exactly if the checksum over all of it, the trailer included, is zero. Two frames of one length
whose bytes differ in a few bits next to each other cannot both be accepted.
-/

namespace Communicator

open ShiftRegister TransportHeader

/-- The bytes from `cmd` to the end of the trailer. -/
def covered (hdr : List UInt8) : List UInt8 := (hdr.drop 1).take (dataLen hdr + 5)

theorem length_byteBits (data : List UInt8) : (byteBits data).length = 8 * data.length := by
  induction data with
  | nil => rfl
  | cons b data ih =>
    rw [byteBits_cons, List.length_append, length_bits, ih, List.length_cons]
    omega

theorem byteBits_injective : Function.Injective byteBits := by
  intro data
  induction data with
  | nil =>
    intro data' h
    have hlen := congrArg List.length h
    rw [length_byteBits, length_byteBits] at hlen
    exact (List.length_eq_zero_iff.1 (by simpa using hlen.symm)).symm
  | cons b data ih =>
    intro data' h
    cases data' with
    | nil =>
      have hlen := congrArg List.length h
      rw [length_byteBits, length_byteBits] at hlen
      simp at hlen
    | cons c data' =>
      rw [byteBits_cons, byteBits_cons] at h
      obtain ⟨hb, hrest⟩ := List.append_inj h (by rw [length_bits, length_bits])
      have hbc : b.toBitVec = c.toBitVec := by
        refine BitVec.eq_of_getMsbD_eq fun i _ => ?_
        rw [← getD_bits, hb, getD_bits]
      rw [UInt8.toBitVec_inj.1 hbc, ih hrest]

/-- Two bytes as `get_crc` puts them together. -/
theorem getMsbD_trailer (hi lo : UInt8) (i : ℕ) :
    ((hi.toUInt16 <<< 8) ||| lo.toUInt16).toBitVec.getMsbD i
      = (bits hi.toBitVec ++ bits lo.toBitVec).getD i false := by
  have hword : ((hi.toUInt16 <<< 8) ||| lo.toUInt16).toBitVec
      = (hi.toBitVec.setWidth 16 <<< 8) ||| lo.toBitVec.setWidth 16 := rfl
  rw [hword, BitVec.getMsbD_or, BitVec.getMsbD_shiftLeft, BitVec.getMsbD_setWidth,
    BitVec.getMsbD_setWidth]
  by_cases h : i < 8
  · have hup : i + 8 + 8 - 16 = i := by omega
    rw [List.getD_append _ _ _ _ (by simpa using h), getD_bits, hup,
      decide_eq_true (show 16 - 8 ≤ i + 8 by omega), decide_eq_false (show ¬ 16 - 8 ≤ i by omega),
      Bool.true_and, Bool.false_and, Bool.or_false]
  · have hdown : i + 8 - 16 = i - 8 := by omega
    rw [List.getD_append_right _ _ _ _ (by simpa using h), getD_bits, length_bits, hdown,
      BitVec.getMsbD_of_ge _ _ (show 8 ≤ i + 8 + 8 - 16 by omega),
      decide_eq_true (show 16 - 8 ≤ i by omega), Bool.and_false, Bool.false_or, Bool.true_and]

theorem checkCrc_iff {hdr : List UInt8} (hlen : getFullLength hdr ≤ hdr.length) :
    checkCrc hdr = true ↔ crcCcittFalse (covered hdr) = 0#16 := by
  rw [getFullLength, sizeof] at hlen
  have hcovered : covered hdr = (hdr.drop 1).take (dataLen hdr + 1 + 2)
      ++ [hdr.getD (4 + dataLen hdr) 0, hdr.getD (4 + dataLen hdr + 1) 0] := by
    have hget : ∀ k < hdr.length, (hdr[k]?).toList = [hdr.getD k 0] := fun k hk => by
      rw [List.getElem?_eq_getElem hk, List.getD_eq_getElem _ _ hk]
      rfl
    rw [covered, show dataLen hdr + 5 = dataLen hdr + 1 + 2 + 1 + 1 by omega,
      List.take_add_one, List.take_add_one, List.getElem?_drop, List.getElem?_drop,
      show 1 + (dataLen hdr + 1 + 2) = 4 + dataLen hdr by omega,
      show 1 + (dataLen hdr + 1 + 2 + 1) = 4 + dataLen hdr + 1 by omega,
      hget _ (by omega), hget _ (by omega), List.append_assoc]
    rfl
  have hfeeds : crcCcittFalse (covered hdr) = feeds 0x1021#16 (calcCrc hdr).toBitVec
      (bits (hdr.getD (4 + dataLen hdr) 0).toBitVec
        ++ bits (hdr.getD (4 + dataLen hdr + 1) 0).toBitVec) := by
    rw [hcovered, crcCcittFalse, byteBits_append, feeds_append, ← crcCcittFalse, ← crc16_eq,
      byteBits_cons, byteBits_cons]
    exact congrArg _ (congrArg _ (List.append_nil _))
  rw [hfeeds, feeds_eq_zero_iff (by decide) (by simp), checkCrc, beq_iff_eq, ← UInt16.toBitVec_inj]
  constructor
  · intro h i
    rw [← h, ← getMsbD_trailer]
    rfl
  · intro h
    refine BitVec.eq_of_getMsbD_eq fun i _ => ?_
    rw [h i, ← getMsbD_trailer]
    rfl

/-- Of two frames of one length, both in the buffer whole, that differ in the bytes from `cmd` to
the end of the trailer, but only within 16 consecutive bits, at most one is accepted. -/
theorem burst_rejected {hdr hdr' : List UInt8} (hlen : getFullLength hdr ≤ hdr.length)
    (hlen' : getFullLength hdr' ≤ hdr'.length) (hdata : dataLen hdr' = dataLen hdr) {s : ℕ}
    (hburst : ∀ i, i < s ∨ s + 16 ≤ i →
      (byteBits (covered hdr)).getD i false = (byteBits (covered hdr')).getD i false)
    (hne : covered hdr ≠ covered hdr') (h : checkCrc hdr = true) : checkCrc hdr' = false := by
  rw [checkCrc_iff hlen] at h
  by_contra h'
  rw [Bool.not_eq_false, checkCrc_iff hlen'] at h'
  have hlength : (byteBits (covered hdr)).length = (byteBits (covered hdr')).length := by
    rw [getFullLength, sizeof] at hlen hlen'
    simp only [length_byteBits, covered, List.length_take, List.length_drop]
    omega
  exact feeds_ne_of_burst (by decide) (by decide) _ hlength hburst
    (fun he => hne (byteBits_injective he)) (h.trans h'.symm)

/-- A confirmation with two bits of its code turned over. -/
theorem burst_in_code : checkCrc [0xC0, 0x88, 0, 0, 0x5E, 0x67] = true
    ∧ checkCrc [0xC0, 0x8D, 0, 0, 0x5E, 0x67] = false := by
  have h : checkCrc [0xC0, 0x88, 0, 0, 0x5E, 0x67] = true := by decide +kernel
  refine ⟨h, burst_rejected (s := 0) (by decide) (by decide) (by decide) (fun i hi => ?_)
    (by decide) h⟩
  have hcov : ∀ c, covered [0xC0, c, 0, 0, 0x5E, 0x67] = [c, 0, 0, 0x5E, 0x67] := fun _ => rfl
  have hle : 16 ≤ i := by omega
  rw [hcov, hcov, byteBits_cons, byteBits_cons 0x8D,
    List.getD_append_right _ _ _ _ (by rw [length_bits]; omega),
    List.getD_append_right _ _ _ _ (by rw [length_bits]; omega)]
  rfl

end Communicator
