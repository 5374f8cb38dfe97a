import Communicator.Lib.Tagged
import Mathlib.Data.Int.Notation
import Mathlib.Algebra.Group.Nat.Defs

/-!
# The wire format of tagged records

Base-128 varints, zigzag numbers, tags, and fields that are skipped without being known: whatever
is skipped is kept as an `UnknownField`, and read back from what is written for it.
-/

namespace WireFormat

open Tagged

/-! ## Varints -/

/-- A number in at most `k + 1` groups of seven bits, the lowest first. -/
def writeVarint : ℕ → ℕ → List UInt8
  | 0, n => [UInt8.ofNat n]
  | k + 1, n =>
    if n < 128 then [UInt8.ofNat n] else UInt8.ofNat (n % 128 + 128) :: writeVarint k (n / 128)

def readVarint : ℕ → List UInt8 → Option (ℕ × List UInt8)
  | _, [] => none
  | 0, b :: s => if b.toNat < 128 then some (b.toNat, s) else none
  | k + 1, b :: s =>
    if b.toNat < 128 then some (b.toNat, s)
    else (readVarint k s).map fun r => (b.toNat - 128 + 128 * r.1, r.2)

theorem readVarint_write : ∀ (k : ℕ) {n : ℕ} (s : List UInt8), n < 128 ^ (k + 1) →
    readVarint k (writeVarint k n ++ s) = some (n, s)
  | 0, n, s, h => by
    have hn : (UInt8.ofNat n).toNat = n := UInt8.toNat_ofNat_of_lt' (by
      simp only [UInt8.size]
      omega)
    simp only [writeVarint, List.cons_append, List.nil_append, readVarint, hn]
    exact if_pos (by omega)
  | k + 1, n, s, h => by
    unfold writeVarint
    split
    · rename_i hlt
      have hn : (UInt8.ofNat n).toNat = n := UInt8.toNat_ofNat_of_lt' (by
        simp only [UInt8.size]
        omega)
      simp only [List.cons_append, List.nil_append, readVarint, hn]
      exact if_pos hlt
    · have hn : (UInt8.ofNat (n % 128 + 128)).toNat = n % 128 + 128 := UInt8.toNat_ofNat_of_lt' (by
        simp only [UInt8.size]
        omega)
      have hdiv : n / 128 < 128 ^ (k + 1) := by
        rw [Nat.pow_succ] at h
        exact Nat.div_lt_of_lt_mul (by omega)
      simp only [List.cons_append, readVarint, hn, readVarint_write k s hdiv, Option.map_some]
      rw [if_neg (by omega)]
      congr 2
      omega

theorem readVarint_lt : ∀ {k n : ℕ} {s rest : List UInt8}, readVarint k s = some (n, rest) →
    rest.length < s.length
  | k, n, [], rest, h => by cases k <;> cases h
  | 0, n, b :: s, rest, h => by
    unfold readVarint at h
    split at h
    · cases h
      exact Nat.lt_succ_self _
    · cases h
  | k + 1, n, b :: s, rest, h => by
    unfold readVarint at h
    split at h
    · cases h
      exact Nat.lt_succ_self _
    · obtain ⟨⟨m, r⟩, hr, heq⟩ := Option.map_eq_some_iff.1 h
      cases heq
      exact Nat.lt_succ_of_lt (readVarint_lt hr)

theorem length_writeVarint_pos (k n : ℕ) : 0 < (writeVarint k n).length := by
  cases k with
  | zero => exact Nat.zero_lt_one
  | succ k =>
    unfold writeVarint
    split
    · exact Nat.zero_lt_one
    · exact Nat.succ_pos _

theorem writeVarint_of_lt {k n : ℕ} (h : n < 128) : writeVarint k n = [UInt8.ofNat n] := by
  cases k with
  | zero => rfl
  | succ k => exact if_pos h

theorem writeVarint_two {k n : ℕ} (h : ¬ n < 128) (h' : n < 2 ^ 14) :
    writeVarint (k + 1) n = [UInt8.ofNat (n % 128 + 128), UInt8.ofNat (n / 128)] := by
  rw [writeVarint, if_neg h, writeVarint_of_lt (by omega)]

/-- Varints have room for 64 bits; a reader of fewer bits drops the rest. -/
def readUInt (bits : ℕ) (s : List UInt8) : Option (ℕ × List UInt8) :=
  (readVarint 9 s).map fun r => (r.1 % 2 ^ bits, r.2)

def writeUInt (n : ℕ) : List UInt8 := writeVarint 9 n

theorem readUInt_write {bits n : ℕ} (hb : bits ≤ 64) (hn : n < 2 ^ bits) (s : List UInt8) :
    readUInt bits (writeUInt n ++ s) = some (n, s) := by
  have hle : 2 ^ bits ≤ 2 ^ 64 := Nat.pow_le_pow_right Nat.two_pos hb
  have hlt : n < 128 ^ (9 + 1) := Nat.lt_of_lt_of_le hn (Nat.le_trans hle (by decide))
  unfold readUInt writeUInt
  rw [readVarint_write 9 s hlt, Option.map_some, Nat.mod_eq_of_lt hn]

theorem readUInt_some {bits n : ℕ} {s rest : List UInt8} (h : readUInt bits s = some (n, rest)) :
    n < 2 ^ bits ∧ rest.length < s.length := by
  obtain ⟨⟨m, r⟩, hr, heq⟩ := Option.map_eq_some_iff.1 h
  cases heq
  exact ⟨Nat.mod_lt _ (Nat.two_pow_pos _), readVarint_lt hr⟩

/-! ## Zigzag numbers -/

def zigZagEncode : ℤ → ℕ
  | .ofNat n => 2 * n
  | .negSucc n => 2 * n + 1

def zigZagDecode (n : ℕ) : ℤ := if n % 2 = 0 then .ofNat (n / 2) else .negSucc (n / 2)

theorem zigZagDecode_encode (i : ℤ) : zigZagDecode (zigZagEncode i) = i := by
  unfold zigZagDecode
  cases i with
  | ofNat n =>
    rw [zigZagEncode, if_pos (by omega)]
    congr 1
    omega
  | negSucc n =>
    rw [zigZagEncode, if_neg (by omega)]
    congr 1
    omega

theorem zigZagEncode_lt {i : ℤ} {n : ℕ} (h : -(n : ℤ) ≤ i) (h' : i < n) :
    zigZagEncode i < 2 * n := by
  cases i with
  | ofNat m =>
    simp only [zigZagEncode]
    have : m < n := by
      simpa using h'
    omega
  | negSucc m =>
    simp only [zigZagEncode]
    rw [Int.negSucc_eq] at h
    omega

/-! ## Tags -/

def readTag (s : List UInt8) : Next ℕ UInt8 :=
  match s with
  | [] => .atEnd
  | _ =>
    match readUInt 32 s with
    | none => .invalid
    | some (t, rest) => if t = 0 then .invalid else .tag t rest

theorem readTag_some {s rest : List UInt8} {t : ℕ} (h : readTag s = .tag t rest) :
    0 < t ∧ t < 2 ^ 32 ∧ rest.length < s.length := by
  unfold readTag at h
  split at h
  · cases h
  · split at h
    · cases h
    · rename_i hr
      split at h
      · cases h
      · rename_i hne
        cases h
        obtain ⟨hlt, hlen⟩ := readUInt_some hr
        exact ⟨Nat.pos_of_ne_zero hne, hlt, hlen⟩

theorem readTag_write {t : ℕ} (s : List UInt8) (hpos : 0 < t) (hlt : t < 2 ^ 32) :
    readTag (writeUInt t ++ s) = .tag t s := by
  have hread := readUInt_write (by decide) hlt s
  have hlen := length_writeVarint_pos 9 t
  unfold readTag
  split
  · rename_i h
    have hnil := congrArg List.length h
    rw [List.length_append] at hnil
    simp only [writeUInt, List.length_nil] at hnil
    omega
  · rw [hread]
    exact if_neg (Nat.pos_iff_ne_zero.1 hpos)

/-! ## Skipped fields -/

inductive UnknownField
  | varint (number value : ℕ)
  | fixed64 (number : ℕ) (bytes : List UInt8)
  | lengthDelimited (number : ℕ) (bytes : List UInt8)
  | group (number : ℕ) (fields : List UnknownField)
  | fixed32 (number : ℕ) (bytes : List UInt8)

namespace UnknownField

def tag : UnknownField → ℕ
  | varint n _ => n * 8
  | fixed64 n _ => n * 8 + 1
  | lengthDelimited n _ => n * 8 + 2
  | group n _ => n * 8 + 3
  | fixed32 n _ => n * 8 + 5

mutual

/-- What is written behind the tag. -/
def body : UnknownField → List UInt8
  | varint _ v => writeUInt v
  | fixed64 _ bytes => bytes
  | lengthDelimited _ bytes => writeUInt bytes.length ++ bytes
  | group n fields => writeAll fields ++ writeUInt (n * 8 + 4)
  | fixed32 _ bytes => bytes

def writeAll : List UnknownField → List UInt8
  | [] => []
  | f :: fields => writeUInt f.tag ++ f.body ++ writeAll fields

end

mutual

/-- The values a field can have that was read. -/
def Valid : UnknownField → Prop
  | varint _ v => v < 2 ^ 64
  | fixed64 _ bytes => bytes.length = 8
  | lengthDelimited _ bytes => bytes.length < 2 ^ 31
  | group n fields => n * 8 + 4 < 2 ^ 32 ∧ ValidAll fields
  | fixed32 _ bytes => bytes.length = 4

def ValidAll : List UnknownField → Prop
  | [] => True
  | f :: fields => (0 < f.tag ∧ f.tag < 2 ^ 32 ∧ f.Valid) ∧ ValidAll fields

end

end UnknownField

def takeBytes (n : ℕ) (s : List UInt8) : Option (List UInt8 × List UInt8) :=
  if n ≤ s.length then some (s.take n, s.drop n) else none

theorem takeBytes_append (bytes s : List UInt8) :
    takeBytes bytes.length (bytes ++ s) = some (bytes, s) := by
  unfold takeBytes
  rw [if_pos (by simp), List.take_left, List.drop_left]

theorem takeBytes_some {n : ℕ} {s bytes rest : List UInt8}
    (h : takeBytes n s = some (bytes, rest)) :
    bytes.length = n ∧ rest.length ≤ s.length := by
  unfold takeBytes at h
  split at h
  · cases h
    simp only [List.length_take, List.length_drop]
    omega
  · cases h

def readLengthDelimited (s : List UInt8) : Option (List UInt8 × List UInt8) :=
  match readUInt 32 s with
  | none => none
  | some (n, rest) => if n < 2 ^ 31 then takeBytes n rest else none

theorem readLengthDelimited_write {bytes : List UInt8} (h : bytes.length < 2 ^ 31)
    (s : List UInt8) :
    readLengthDelimited (writeUInt bytes.length ++ bytes ++ s) = some (bytes, s) := by
  unfold readLengthDelimited
  rw [List.append_assoc, readUInt_write (by decide) (Nat.lt_trans h (by decide))]
  simp only [if_pos h, takeBytes_append]

theorem readLengthDelimited_some {s bytes rest : List UInt8}
    (h : readLengthDelimited s = some (bytes, rest)) :
    bytes.length < 2 ^ 31 ∧ rest.length ≤ s.length := by
  unfold readLengthDelimited at h
  split at h
  · cases h
  · rename_i n r hr
    split at h
    · rename_i hlt
      have hlen := (readUInt_some hr).2
      obtain ⟨hb, hle⟩ := takeBytes_some h
      omega
    · cases h

mutual

/-- Reads the field of the tag `t`; `fuel` bounds the fields in it. -/
def skip : ℕ → ℕ → List UInt8 → Option (UnknownField × List UInt8)
  | 0, _, _ => none
  | fuel + 1, t, s =>
    match t % 8 with
    | 0 => (readUInt 64 s).map fun r => (.varint (t / 8) r.1, r.2)
    | 1 => (takeBytes 8 s).map fun r => (.fixed64 (t / 8) r.1, r.2)
    | 2 => (readLengthDelimited s).map fun r => (.lengthDelimited (t / 8) r.1, r.2)
    | 3 => (skipGroup fuel (t / 8) s).map fun r => (.group (t / 8) r.1, r.2)
    | 5 => (takeBytes 4 s).map fun r => (.fixed32 (t / 8) r.1, r.2)
    | _ => none

/-- Reads fields up to the end tag of the group `n`. -/
def skipGroup : ℕ → ℕ → List UInt8 → Option (List UnknownField × List UInt8)
  | 0, _, _ => none
  | fuel + 1, n, s =>
    match readTag s with
    | .tag t rest =>
      if t % 8 = 4 then if t = n * 8 + 4 then some ([], rest) else none
      else
        match skip fuel t rest with
        | none => none
        | some (f, rest) => (skipGroup fuel n rest).map fun r => (f :: r.1, r.2)
    | _ => none

end

/-- Whatever is skipped is a valid field of the tag that was read. -/
theorem skip_valid : ∀ (fuel : ℕ),
    (∀ {t f s rest}, skip fuel t s = some (f, rest) →
      f.tag = t ∧ (t < 2 ^ 32 → f.Valid) ∧ rest.length ≤ s.length)
    ∧ ∀ {n fields s rest}, skipGroup fuel n s = some (fields, rest) →
      UnknownField.ValidAll fields ∧ rest.length ≤ s.length
  | 0 => ⟨fun h => by simp [skip] at h, fun h => by simp [skipGroup] at h⟩
  | fuel + 1 => by
    obtain ⟨ihskip, ihgroup⟩ := skip_valid fuel
    constructor
    · intro t f s rest h
      unfold skip at h
      split at h
      · rename_i hw
        obtain ⟨⟨v, r⟩, hr, heq⟩ := Option.map_eq_some_iff.1 h
        cases heq
        obtain ⟨hlt, hlen⟩ := readUInt_some hr
        exact ⟨by simp only [UnknownField.tag]; omega, fun _ => hlt, Nat.le_of_lt hlen⟩
      · rename_i hw
        obtain ⟨⟨v, r⟩, hr, heq⟩ := Option.map_eq_some_iff.1 h
        cases heq
        obtain ⟨hb, hle⟩ := takeBytes_some hr
        exact ⟨by simp only [UnknownField.tag]; omega, fun _ => hb, hle⟩
      · rename_i hw
        obtain ⟨⟨v, r⟩, hr, heq⟩ := Option.map_eq_some_iff.1 h
        cases heq
        obtain ⟨hb, hle⟩ := readLengthDelimited_some hr
        exact ⟨by simp only [UnknownField.tag]; omega, fun _ => hb, hle⟩
      · rename_i hw
        obtain ⟨⟨fields, r⟩, hr, heq⟩ := Option.map_eq_some_iff.1 h
        cases heq
        obtain ⟨hvalid, hle⟩ := ihgroup hr
        exact ⟨by simp only [UnknownField.tag]; omega, fun _ => ⟨by omega, hvalid⟩, hle⟩
      · rename_i hw
        obtain ⟨⟨v, r⟩, hr, heq⟩ := Option.map_eq_some_iff.1 h
        cases heq
        obtain ⟨hb, hle⟩ := takeBytes_some hr
        exact ⟨by simp only [UnknownField.tag]; omega, fun _ => hb, hle⟩
      · cases h
    · intro n fields s rest h
      unfold skipGroup at h
      split at h
      · rename_i t body htag
        obtain ⟨hpos, hlt, hlen⟩ := readTag_some htag
        split at h
        · split at h
          · cases h
            exact ⟨trivial, Nat.le_of_lt hlen⟩
          · cases h
        · split at h
          · cases h
          · rename_i f rest₁ hf
            obtain ⟨⟨fields', r⟩, hr, heq⟩ := Option.map_eq_some_iff.1 h
            cases heq
            obtain ⟨rfl, hvalid, hle⟩ := ihskip hf
            obtain ⟨hall, hle'⟩ := ihgroup hr
            exact ⟨⟨⟨hpos, hlt, hvalid hlt⟩, hall⟩,
              Nat.le_trans hle' (Nat.le_trans hle (Nat.le_of_lt hlen))⟩
      · cases h

theorem UnknownField.tag_mod (f : UnknownField) : f.tag % 8 ≠ 4 := by
  cases f <;> simp only [tag] <;> omega

theorem skip_write : ∀ (fuel : ℕ),
    (∀ (f : UnknownField) s, f.Valid → f.body.length < fuel →
      skip fuel f.tag (f.body ++ s) = some (f, s))
    ∧ ∀ (fields : List UnknownField) n s, UnknownField.ValidAll fields → n * 8 + 4 < 2 ^ 32 →
      (UnknownField.writeAll fields).length < fuel →
        skipGroup fuel n (UnknownField.writeAll fields ++ writeUInt (n * 8 + 4) ++ s)
          = some (fields, s)
  | 0 => ⟨fun _ _ _ h => absurd h (Nat.not_lt_zero _), fun _ _ _ _ _ h =>
      absurd h (Nat.not_lt_zero _)⟩
  | fuel + 1 => by
    obtain ⟨ihskip, ihgroup⟩ := skip_write fuel
    constructor
    · intro f s hv hlen
      cases f with
      | varint n v =>
        simp only [UnknownField.tag, UnknownField.body, skip, Nat.mul_mod_left,
          readUInt_write (Nat.le_refl 64) hv, Option.map_some]
        congr 3
        omega
      | fixed64 n bytes =>
        have hw : (n * 8 + 1) % 8 = 1 := by omega
        have hn : (n * 8 + 1) / 8 = n := by omega
        have htake := takeBytes_append bytes s
        rw [show bytes.length = 8 from hv] at htake
        simp only [UnknownField.tag, UnknownField.body, skip, hw, hn, htake, Option.map_some]
      | lengthDelimited n bytes =>
        have hw : (n * 8 + 2) % 8 = 2 := by omega
        have hn : (n * 8 + 2) / 8 = n := by omega
        simp only [UnknownField.tag, UnknownField.body, skip, hw, hn,
          readLengthDelimited_write hv, Option.map_some]
      | group n fields =>
        have hw : (n * 8 + 3) % 8 = 3 := by omega
        have hn : (n * 8 + 3) / 8 = n := by omega
        have hend := length_writeVarint_pos 9 (n * 8 + 4)
        simp only [UnknownField.body, List.length_append, writeUInt] at hlen
        simp only [UnknownField.tag, UnknownField.body, skip, hw, hn,
          ihgroup fields n s hv.2 hv.1 (by omega), Option.map_some]
      | fixed32 n bytes =>
        have hw : (n * 8 + 5) % 8 = 5 := by omega
        have hn : (n * 8 + 5) / 8 = n := by omega
        have htake := takeBytes_append bytes s
        rw [show bytes.length = 4 from hv] at htake
        simp only [UnknownField.tag, UnknownField.body, skip, hw, hn, htake, Option.map_some]
    · intro fields n s hv hn hlen
      cases fields with
      | nil =>
        have htag := readTag_write s (t := n * 8 + 4) (by omega) hn
        have hw : (n * 8 + 4) % 8 = 4 := by omega
        simp only [UnknownField.writeAll, List.nil_append, skipGroup, htag, hw, if_true]
      | cons f fields =>
        obtain ⟨⟨hpos, hlt, hf⟩, hall⟩ := hv
        have hone := length_writeVarint_pos 9 f.tag
        simp only [UnknownField.writeAll, List.length_append, writeUInt] at hlen
        simp only [UnknownField.writeAll, List.append_assoc, skipGroup, readTag_write _ hpos hlt,
          if_neg f.tag_mod, ihskip f _ hf (by omega)]
        have hrest := ihgroup fields n s hall hn (by omega)
        rw [List.append_assoc] at hrest
        rw [hrest, Option.map_some]

end WireFormat
