import Communicator.Memory
import Communicator.Crc
import Mathlib.Data.List.GetD

/-!
# Transport messages

The packed structures of `omnicomm/transport_messages.hpp`. A frame is read through a pointer to
its first byte, so the functions on a header take the bytes from there to the end of the buffer.
-/

namespace Communicator

/-! ## Codes -/

namespace TmCode

def cControllerIdent : UInt8 := 0x80
def sDataRequest : UInt8 := 0x85
def cArchiveData : UInt8 := 0x86
def sDeleteData : UInt8 := 0x87
def cDeleteConfirm : UInt8 := 0x88
def cCurrentData : UInt8 := 0x95

end TmCode

/-! ## Members -/

structure Member where
  offset : ℕ
  size : ℕ

def Member.read (m : Member) (hdr : List UInt8) : Option ℕ :=
  (bytesAt hdr m.offset m.size).map le

namespace TransportHeader

def sizeof : ℕ := 4

def cmd (hdr : List UInt8) : UInt8 := hdr.getD 1 0

/-- `data_len`; the receiver looks at no header before the buffer holds its four bytes. -/
def dataLen (hdr : List UInt8) : ℕ := (Member.read ⟨2, 2⟩ hdr).getD 0

def getData (hdr : List UInt8) : List UInt8 := (hdr.drop sizeof).take (dataLen hdr)

def getCrc (hdr : List UInt8) : UInt16 :=
  ((hdr.getD (sizeof + dataLen hdr) 0).toUInt16 <<< 8)
    ||| (hdr.getD (sizeof + dataLen hdr + 1) 0).toUInt16

def calcCrc (hdr : List UInt8) : UInt16 := crc16 ((hdr.drop 1).take (dataLen hdr + 1 + 2))

def checkCrc (hdr : List UInt8) : Bool := getCrc hdr == calcCrc hdr

def getFullLength (hdr : List UInt8) : ℕ := sizeof + dataLen hdr + 2

end TransportHeader

open TransportHeader

/-- `transport_message_t<C, T>::check_length`, for a `T` of `sizeofT` bytes; `false` where the code
throws. -/
def checkLength (sizeofT : ℕ) (hdr : List UInt8) : Bool :=
  !decide (sizeof + dataLen hdr + 2 < sizeofT)

namespace ControllerIdent

def sizeof : ℕ := 12
def controllerId : Member := ⟨4, 4⟩
def firmwareVersion : Member := ⟨8, 4⟩

end ControllerIdent

def sizeSub (a b : ℕ) : ℕ := if b ≤ a then a - b else a + 2 ^ 64 - b

namespace DataResponse

def sizeof : ℕ := 13
def lastMesNumber : Member := ⟨4, 4⟩
def firstMesTime : Member := ⟨8, 4⟩
def priority : Member := ⟨12, 1⟩

def imData : ℕ := 13

def getImLength (hdr : List UInt8) : ℕ := sizeSub (sizeSub (getFullLength hdr) sizeof) 2

end DataResponse

/-! ## Frames on the wire -/

/-- A transport message: its code and its data, whose length fits `data_len`. -/
structure TransportMessage where
  cmd : UInt8
  data : List UInt8
  length_lt : data.length < 65536

namespace TransportMessage

variable (m : TransportMessage)

def bytes : List UInt8 := 0xC0 :: m.cmd :: toLe 2 m.data.length ++ m.data

/-- The checksum a frame of the message ends with, high byte first. -/
def trailer : List UInt8 :=
  [(crc16 m.bytes.tail >>> 8).toUInt8, crc16 m.bytes.tail |>.toUInt8]

def frame : List UInt8 := m.bytes ++ m.trailer

end TransportMessage

/-- What the server sends: `data_request_t` and `delete_data_t`, with their `mes_number`. -/
inductive Request
  | dataRequest (mesNumber : UInt32)
  | deleteData (mesNumber : UInt32)
  deriving DecidableEq

def Request.message : Request → TransportMessage
  | .dataRequest n => ⟨TmCode.sDataRequest, toLe 4 n.toNat, by simp⟩
  | .deleteData n => ⟨TmCode.sDeleteData, toLe 4 n.toNat, by simp⟩

/-! ## Reading a frame back -/

section Frame

variable (m : TransportMessage) (t rest : List UInt8)

@[simp]
theorem bytes_length : m.bytes.length = 4 + m.data.length := by
  simp [TransportMessage.bytes]
  omega

@[simp]
theorem frame_length : m.frame.length = 4 + m.data.length + 2 := by
  simp [TransportMessage.frame, TransportMessage.trailer]

theorem bytes_append :
    m.bytes ++ t = 0xC0 :: m.cmd :: (toLe 2 m.data.length ++ (m.data ++ t)) := by
  simp [TransportMessage.bytes]

theorem frame_append : m.frame ++ rest = m.bytes ++ (m.trailer ++ rest) := by
  simp [TransportMessage.frame]

@[simp]
theorem drop_bytes : (m.bytes ++ t).drop 4 = m.data ++ t := by
  rw [bytes_append, List.drop_succ_cons, List.drop_succ_cons]
  exact List.drop_left' (length_toLe 2 _)

@[simp]
theorem cmd_bytes : TransportHeader.cmd (m.bytes ++ t) = m.cmd := by
  simp [bytes_append, TransportHeader.cmd]

@[simp]
theorem dataLen_bytes : dataLen (m.bytes ++ t) = m.data.length := by
  have h : bytesAt (m.bytes ++ t) 2 2 = some (toLe 2 m.data.length) := by
    rw [bytesAt_eq_some, bytes_append]
    refine ⟨by simp, ?_⟩
    rw [List.drop_succ_cons, List.drop_succ_cons, List.drop_zero]
    exact List.take_left' (length_toLe 2 _)
  rw [dataLen, Member.read, h]
  simp only [Option.map_some, Option.getD_some, le_toLe]
  exact Nat.mod_eq_of_lt m.length_lt

@[simp]
theorem getFullLength_bytes : getFullLength (m.bytes ++ t) = 4 + m.data.length + 2 := by
  simp [getFullLength, TransportHeader.sizeof]

@[simp]
theorem getData_bytes : getData (m.bytes ++ t) = m.data := by
  simp [getData, TransportHeader.sizeof]

theorem calcCrc_bytes : calcCrc (m.bytes ++ t) = crc16 m.bytes.tail := by
  have h : m.bytes.tail.length = m.data.length + 1 + 2 := by
    rw [List.length_tail, bytes_length]
    omega
  rw [calcCrc, dataLen_bytes, ← h, List.drop_one, List.tail_append_of_ne_nil (by
    simp [TransportMessage.bytes]), List.take_left]

theorem getCrc_bytes (h l : UInt8) :
    getCrc (m.bytes ++ h :: l :: rest) = (h.toUInt16 <<< 8) ||| l.toUInt16 := by
  have h0 : TransportHeader.sizeof + dataLen (m.bytes ++ h :: l :: rest) = m.bytes.length := by
    simp [TransportHeader.sizeof]
  rw [getCrc, h0]
  simp [List.getD_eq_getElem?_getD]

theorem shift_or_eq_iff (h l : UInt8) (c : UInt16) :
    (h.toUInt16 <<< 8) ||| l.toUInt16 = c ↔ h = (c >>> 8).toUInt8 ∧ l = c.toUInt8 := by
  have hh := h.toNat_lt
  have hl := l.toNat_lt
  have hc := c.toNat_lt
  have hor : h.toNat * 256 ||| l.toNat = 256 * h.toNat + l.toNat := by
    rw [Nat.mul_comm]
    exact (Nat.two_pow_add_eq_or_of_lt (i := 8) hl h.toNat).symm
  rw [← UInt16.toNat_inj, ← UInt8.toNat_inj, ← UInt8.toNat_inj]
  simp only [UInt16.toNat_or, UInt16.toNat_shiftLeft, UInt8.toNat_toUInt16, UInt16.toNat_toUInt8,
    UInt16.toNat_shiftRight, Nat.shiftLeft_eq, Nat.shiftRight_eq_div_pow]
  simp [Nat.mod_eq_of_lt (show h.toNat * 256 < 65536 by omega), hor]
  omega

theorem checkCrc_bytes (h l : UInt8) :
    checkCrc (m.bytes ++ h :: l :: rest) = true ↔ [h, l] = m.trailer := by
  rw [checkCrc, beq_iff_eq, getCrc_bytes, calcCrc_bytes, shift_or_eq_iff]
  simp [TransportMessage.trailer]

theorem checkCrc_frame : checkCrc (m.frame ++ rest) = true := by
  rw [frame_append]
  exact (checkCrc_bytes m rest _ _).2 rfl

end Frame

/-! ## A frame and what follows it -/

theorem dataLen_append {hdr : List UInt8} (h : TransportHeader.sizeof ≤ hdr.length)
    (ys : List UInt8) : dataLen (hdr ++ ys) = dataLen hdr := by
  rw [dataLen, dataLen, Member.read, Member.read, bytesAt_append h]

theorem getFullLength_append {hdr : List UInt8} (h : TransportHeader.sizeof ≤ hdr.length)
    (ys : List UInt8) : getFullLength (hdr ++ ys) = getFullLength hdr := by
  rw [getFullLength, getFullLength, dataLen_append h]

theorem four_le_getFullLength (hdr : List UInt8) :
    TransportHeader.sizeof ≤ getFullLength hdr := by
  simp only [getFullLength]
  omega

theorem checkCrc_append {hdr : List UInt8} (h : getFullLength hdr ≤ hdr.length)
    (ys : List UInt8) : checkCrc (hdr ++ ys) = checkCrc hdr := by
  have hl := dataLen_append ((four_le_getFullLength hdr).trans h) ys
  simp only [getFullLength, TransportHeader.sizeof] at h
  have h1 : (TransportHeader.sizeof + dataLen hdr) < hdr.length := by
    simp only [TransportHeader.sizeof]
    omega
  have h2 : (TransportHeader.sizeof + dataLen hdr + 1) < hdr.length := by
    simp only [TransportHeader.sizeof]
    omega
  rw [checkCrc, checkCrc, getCrc, getCrc, calcCrc, calcCrc, hl,
    List.getD_append _ _ _ _ h1, List.getD_append _ _ _ _ h2,
    List.drop_append_of_le_length (by omega),
    List.take_append_of_le_length (by rw [List.length_drop]; omega)]

end Communicator
