import Communicator.Protobuf
import Communicator.Lib.WireFormat
import Mathlib.Data.List.Infix

/-!
# A runtime

The runtime's functions as the wire format has them. They behave as documented
(`wireFormat_lawful`), so the promises of `Wire.Lawful` go together. What is left open there is
the simplest choice: no element of a repeated field is reserved in advance.
-/

namespace Communicator.Protobuf

open Tagged WireFormat

/-- The elements of a packed field, and whether all bytes belong to one. -/
def readElements : ℕ → List UInt32 → List UInt8 → List UInt32 × Bool
  | 0, vs, s => (vs, s.isEmpty)
  | k + 1, vs, s =>
    if s.isEmpty then (vs, true)
    else
      match readUInt 32 s with
      | none => (vs, false)
      | some (v, rest) => readElements k (vs ++ [UInt32.ofNat v]) rest

def wireFormat : Wire UnknownField where
  readTag := WireFormat.readTag
  expectTag t s :=
    if 0 < t ∧ t < 2 ^ 14 ∧ (writeUInt t).isPrefixOf s then some (s.drop (writeUInt t).length)
    else none
  expectAtEnd s := s.isEmpty
  readUInt32 s := (readUInt 32 s).map fun r => (UInt32.ofNat r.1, r.2)
  readSInt32 s := (readUInt 32 s).map fun r => (Int32.ofInt (zigZagDecode r.1), r.2)
  readBytes old s :=
    match readUInt 32 s with
    | none => (old, none)
    | some (n, rest) =>
      if 2 ^ 31 ≤ n then (old, none)
      else if rest.length < n then (rest, none)
      else (rest.take n, some (rest.drop n))
  readPacked old s :=
    match readUInt 32 s with
    | none => (old, none)
    | some (n, rest) =>
      let r := readElements (rest.take n).length old (rest.take n)
      if rest.length < n ∨ ¬ r.2 then (r.1, none) else (r.1, some (rest.drop n))
  readRepeated _ old s :=
    match readUInt 32 s with
    | none => (old, none)
    | some (v, rest) => (old ++ [UInt32.ofNat v], some rest)
  skipField _ t old s :=
    match skip (s.length + 1) t s with
    | none => (old, none)
    | some (f, rest) => (old ++ [f], some rest)
  writeTag := writeUInt
  writeUInt32 v := writeUInt v.toNat
  writeSInt32 v := writeUInt (zigZagEncode v.toInt)
  writeVarint32 := writeUInt
  writeBytes v := writeUInt v.length ++ v
  writeUnknownField f := writeUInt f.tag ++ f.body
  uint32Size v := (writeUInt v.toNat).length
  sint32Size v := (writeUInt (zigZagEncode v.toInt)).length
  int32Size n := (writeUInt n).length
  bytesSize v := (writeUInt v.length ++ v).length
  computeUnknownFieldsSize us := (us.flatMap fun f => writeUInt f.tag ++ f.body).length

theorem readUInt_toNat (v : UInt32) (s : List UInt8) :
    readUInt 32 (writeUInt v.toNat ++ s) = some (v.toNat, s) :=
  readUInt_write (by decide) v.toNat_lt s

theorem readElements_write : ∀ (vs : List UInt32) {k : ℕ} (old : List UInt32), vs.length ≤ k →
    readElements k old (vs.flatMap fun v => writeUInt v.toNat) = (old ++ vs, true)
  | [], k, old, _ => by
    rw [List.append_nil]
    cases k <;> rfl
  | v :: vs, 0, old, h => by simp at h
  | v :: vs, k + 1, old, h => by
    have hpos := length_writeVarint_pos 9 v.toNat
    have hne : (writeUInt v.toNat ++ vs.flatMap fun v => writeUInt v.toNat).isEmpty = false := by
      rw [List.isEmpty_eq_false_iff, ← List.length_pos_iff, List.length_append]
      exact Nat.lt_add_right _ hpos
    rw [List.flatMap_cons, readElements, hne, if_neg Bool.false_ne_true, readUInt_toNat]
    simp only [UInt32.ofNat_toNat]
    rw [readElements_write vs (old ++ [v]) (Nat.le_of_succ_le_succ h), List.append_assoc]
    rfl

theorem length_le_elements (vs : List UInt32) :
    vs.length ≤ (vs.flatMap fun v => writeUInt v.toNat).length := by
  induction vs with
  | nil => exact Nat.le_refl 0
  | cons v vs ih =>
    have hpos := length_writeVarint_pos 9 v.toNat
    rw [List.flatMap_cons, List.length_append, List.length_cons]
    simp only [writeUInt] at ih ⊢
    omega

theorem zigZagEncode_toInt_lt (v : Int32) : zigZagEncode v.toInt < 2 ^ 32 :=
  zigZagEncode_lt (n := 2 ^ 31) v.le_toInt v.toInt_lt

theorem rereads_of_valid {f : UnknownField} (hf : f.Valid) (depth : ℕ) :
    wireFormat.Rereads depth f.tag f := by
  refine ⟨f.body, rfl, ?_⟩
  intro us s
  have hlen : f.body.length < (f.body ++ s).length + 1 := by
    rw [List.length_append]
    omega
  have hskip := (skip_write _).1 f s hf hlen
  simp only [wireFormat, hskip]

section Promises

variable {s rest : List UInt8} {t : ℕ}

theorem wireFormat_expectTag (h : wireFormat.expectTag t s = some rest) :
    wireFormat.readTag s = .tag t rest := by
  simp only [wireFormat] at h
  split at h
  · rename_i hp
    obtain ⟨hpos, hlt, hbytes⟩ := hp
    obtain ⟨r, rfl⟩ := List.isPrefixOf_iff_prefix.1 hbytes
    rw [List.drop_left] at h
    cases h
    exact WireFormat.readTag_write _ hpos (Nat.lt_trans hlt (by decide))
  · cases h

theorem wireFormat_readUInt32_le {v : UInt32} (h : wireFormat.readUInt32 s = some (v, rest)) :
    rest.length ≤ s.length := by
  obtain ⟨⟨n, r⟩, hr, heq⟩ := Option.map_eq_some_iff.1 h
  cases heq
  exact Nat.le_of_lt (readUInt_some hr).2

theorem wireFormat_readUInt32_write (v : UInt32) (s : List UInt8) :
    wireFormat.readUInt32 (wireFormat.writeUInt32 v ++ s) = some (v, s) := by
  simp only [wireFormat, readUInt_toNat, Option.map_some, UInt32.ofNat_toNat]

theorem wireFormat_readSInt32_le {v : Int32} (h : wireFormat.readSInt32 s = some (v, rest)) :
    rest.length ≤ s.length := by
  obtain ⟨⟨n, r⟩, hr, heq⟩ := Option.map_eq_some_iff.1 h
  cases heq
  exact Nat.le_of_lt (readUInt_some hr).2

theorem wireFormat_readSInt32_write (v : Int32) (s : List UInt8) :
    wireFormat.readSInt32 (wireFormat.writeSInt32 v ++ s) = some (v, s) := by
  have hread := readUInt_write (by decide) (zigZagEncode_toInt_lt v) s
  simp only [wireFormat, hread, Option.map_some, zigZagDecode_encode, Int32.ofInt_toInt]

theorem wireFormat_readBytes_le {old v : Text} (h : wireFormat.readBytes old s = (v, some rest)) :
    rest.length ≤ s.length := by
  simp only [wireFormat] at h
  split at h
  · cases h
  · rename_i n r hr
    have hlen := (readUInt_some hr).2
    split at h
    · cases h
    · split at h
      · cases h
      · cases h
        rw [List.length_drop]
        omega

theorem wireFormat_readBytes_write (old v : Text) (s : List UInt8) (hv : v.length < sizeLimit) :
    wireFormat.readBytes old (wireFormat.writeBytes v ++ s) = (v, some s) := by
  have hread := readUInt_write (by decide)
    (Nat.lt_trans hv (by decide : sizeLimit < 2 ^ 32)) (v ++ s)
  have hlim : ¬ 2 ^ 31 ≤ v.length := Nat.not_le.2 hv
  simp only [wireFormat, List.append_assoc, hread, if_neg hlim, List.length_append,
    List.take_left, List.drop_left]
  exact if_neg (by omega)

theorem wireFormat_readPacked_le {old vs : List UInt32}
    (h : wireFormat.readPacked old s = (vs, some rest)) : rest.length ≤ s.length := by
  simp only [wireFormat] at h
  split at h
  · cases h
  · rename_i n r hr
    have hlen := (readUInt_some hr).2
    split at h
    · cases h
    · cases h
      rw [List.length_drop]
      omega

theorem wireFormat_readPacked_write (old vs : List UInt32) (s : List UInt8)
    (hv : (vs.flatMap wireFormat.writeUInt32).length < sizeLimit) :
    wireFormat.readPacked old
        (wireFormat.writeVarint32 (vs.flatMap wireFormat.writeUInt32).length
          ++ vs.flatMap wireFormat.writeUInt32 ++ s) = (old ++ vs, some s) := by
  simp only [wireFormat] at hv
  have hread := readUInt_write (by decide)
    (Nat.lt_trans hv (by decide : sizeLimit < 2 ^ 32))
    ((vs.flatMap fun v => writeUInt v.toNat) ++ s)
  have hall := readElements_write vs old (length_le_elements vs)
  simp only [wireFormat, List.append_assoc, hread, List.take_left, hall, List.drop_left,
    List.length_append]
  exact if_neg (by simp)

theorem wireFormat_readRepeated_le {old vs : List UInt32}
    (h : wireFormat.readRepeated t old s = (vs, some rest)) : rest.length ≤ s.length := by
  simp only [wireFormat] at h
  split at h
  · cases h
  · rename_i n r hr
    cases h
    exact Nat.le_of_lt (readUInt_some hr).2

theorem wireFormat_skipField {d : ℕ} {old us : List UnknownField}
    (h : wireFormat.skipField d t old s = (us, some rest)) :
    ∃ u : UnknownField, us = old ++ [u] ∧ u.tag = t ∧ (t < 2 ^ 32 → u.Valid)
      ∧ rest.length ≤ s.length := by
  simp only [wireFormat] at h
  split at h
  · cases h
  · rename_i u r hr
    cases h
    obtain ⟨htag, hvalid, hlen⟩ := (skip_valid _).1 hr
    exact ⟨u, rfl, htag, hvalid, hlen⟩

theorem wireFormat_length_writeTag (ht : t < 2 ^ 14) :
    (wireFormat.writeTag t).length = tagLength t := by
  simp only [wireFormat, writeUInt, tagLength]
  split
  · rename_i hlt
    rw [writeVarint_of_lt hlt]
    rfl
  · rename_i hge
    rw [writeVarint_two hge ht]
    rfl

end Promises

theorem wireFormat_lawful : wireFormat.Lawful where
  readTag_lt h := (readTag_some h).2.2
  readTag_range h := ⟨(readTag_some h).1, (readTag_some h).2.1⟩
  readTag_nil := rfl
  readTag_write s hpos hlt := WireFormat.readTag_write s hpos hlt
  expectTag_readTag := wireFormat_expectTag
  expectAtEnd_readTag := by
    intro s h
    rw [List.isEmpty_iff.1 h]
    rfl
  readUInt32_le := wireFormat_readUInt32_le
  readUInt32_write := wireFormat_readUInt32_write
  readSInt32_le := wireFormat_readSInt32_le
  readSInt32_write := wireFormat_readSInt32_write
  readBytes_le := wireFormat_readBytes_le
  readBytes_write := wireFormat_readBytes_write
  readPacked_le := wireFormat_readPacked_le
  readPacked_write := wireFormat_readPacked_write
  readRepeated_le := wireFormat_readRepeated_le
  skipField_le h := by
    obtain ⟨-, -, -, -, hlen⟩ := wireFormat_skipField h
    exact hlen
  skipField_rereads ht h := by
    obtain ⟨u, hus, rfl, hvalid, -⟩ := wireFormat_skipField h
    exact ⟨u, hus, rereads_of_valid (hvalid ht) _⟩
  length_writeTag := wireFormat_length_writeTag
  length_writeUInt32 _ := rfl
  uint32Size_pos v := length_writeVarint_pos 9 v.toNat
  length_writeSInt32 _ := rfl
  length_writeVarint32 _ := rfl
  length_writeBytes _ := rfl
  length_le_writeBytes v := by
    simp only [wireFormat, List.length_append]
    omega
  length_writeUnknownFields _ := rfl

end Communicator.Protobuf
