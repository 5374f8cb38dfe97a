import Communicator.Message
import Communicator.Lib.Tagged

/-!
# Protobuf messages

What the generated classes of `omnicomm/message.pb.cc` have in common. Each is a table of fields,
and its `MergePartialFromCodedStream`, `SerializeWithCachedSizes`, `ByteSize` and `MergeFrom` go
through that table. The coded streams and the readers and writers of single values belong to the
protobuf runtime, which is a parameter: `Wire` is its interface and `Wire.Lawful` its documentation.
-/

namespace Communicator.Protobuf

open Tagged

def wiretypeVarint : ℕ := 0
def wiretypeLengthDelimited : ℕ := 2
def wiretypeStartGroup : ℕ := 3
def wiretypeEndGroup : ℕ := 4

def makeTag (number wireType : ℕ) : ℕ := number * 8 + wireType
def getTagFieldNumber (tag : ℕ) : ℕ := tag / 8
def getTagWireType (tag : ℕ) : ℕ := tag % 8

/-- Sizes are `int`s. -/
def sizeLimit : ℕ := 2 ^ 31

/-- The bytes of a tag below `2 ^ 14`. -/
def tagLength (tag : ℕ) : ℕ := if tag < 2 ^ 7 then 1 else 2

/-! ## The runtime -/

/-- The runtime's functions. `φ` is one field of an `UnknownFieldSet`; the readers of strings,
repeated values and unknown fields work in place and may leave part of a value behind when they
fail. The first argument of `skipField` is the number of groups the field is in. -/
structure Wire (φ : Type) where
  readTag : List UInt8 → Next ℕ UInt8
  expectTag : ℕ → List UInt8 → Option (List UInt8)
  expectAtEnd : List UInt8 → Bool
  readUInt32 : List UInt8 → Option (UInt32 × List UInt8)
  readSInt32 : List UInt8 → Option (Int32 × List UInt8)
  readBytes : Reader Text UInt8
  readPacked : Reader (List UInt32) UInt8
  readRepeated : ℕ → Reader (List UInt32) UInt8
  skipField : ℕ → ℕ → Reader (List φ) UInt8
  writeTag : ℕ → List UInt8
  writeUInt32 : UInt32 → List UInt8
  writeSInt32 : Int32 → List UInt8
  writeVarint32 : ℕ → List UInt8
  writeBytes : Text → List UInt8
  writeUnknownField : φ → List UInt8
  uint32Size : UInt32 → ℕ
  sint32Size : Int32 → ℕ
  int32Size : ℕ → ℕ
  bytesSize : Text → ℕ
  computeUnknownFieldsSize : List φ → ℕ

/-- The unknown field `u` is written as something that is skipped as `u` again, `depth` groups
deep, under the tag `t`. -/
def Wire.Rereads {φ : Type} (W : Wire φ) (depth t : ℕ) (u : φ) : Prop :=
  ∃ body, W.writeUnknownField u = W.writeTag t ++ body
    ∧ ∀ us s, W.skipField depth t us (body ++ s) = (us ++ [u], some s)

/-- The runtime's documented behaviour. -/
structure Wire.Lawful {φ : Type} (W : Wire φ) : Prop where
  readTag_lt : ∀ {s t rest}, W.readTag s = .tag t rest → rest.length < s.length
  readTag_range : ∀ {s t rest}, W.readTag s = .tag t rest → 0 < t ∧ t < 2 ^ 32
  readTag_nil : W.readTag [] = .atEnd
  readTag_write : ∀ {t} s, 0 < t → t < 2 ^ 32 → W.readTag (W.writeTag t ++ s) = .tag t s
  expectTag_readTag : ∀ {t s rest}, W.expectTag t s = some rest → W.readTag s = .tag t rest
  expectAtEnd_readTag : ∀ {s}, W.expectAtEnd s = true → W.readTag s = .atEnd
  readUInt32_le : ∀ {s v rest}, W.readUInt32 s = some (v, rest) → rest.length ≤ s.length
  readUInt32_write : ∀ v s, W.readUInt32 (W.writeUInt32 v ++ s) = some (v, s)
  readSInt32_le : ∀ {s v rest}, W.readSInt32 s = some (v, rest) → rest.length ≤ s.length
  readSInt32_write : ∀ v s, W.readSInt32 (W.writeSInt32 v ++ s) = some (v, s)
  readBytes_le : ∀ {old s v rest}, W.readBytes old s = (v, some rest) → rest.length ≤ s.length
  readBytes_write : ∀ old v s, v.length < sizeLimit →
    W.readBytes old (W.writeBytes v ++ s) = (v, some s)
  readPacked_le : ∀ {old s vs rest}, W.readPacked old s = (vs, some rest) → rest.length ≤ s.length
  readPacked_write : ∀ old (vs : List UInt32) s,
    (vs.flatMap W.writeUInt32).length < sizeLimit →
      W.readPacked old (W.writeVarint32 (vs.flatMap W.writeUInt32).length
        ++ vs.flatMap W.writeUInt32 ++ s) = (old ++ vs, some s)
  readRepeated_le : ∀ {t old s vs rest}, W.readRepeated t old s = (vs, some rest) →
    rest.length ≤ s.length
  skipField_le : ∀ {d t old s us rest}, W.skipField d t old s = (us, some rest) →
    rest.length ≤ s.length
  skipField_rereads : ∀ {d t old s us rest}, t < 2 ^ 32 →
    W.skipField d t old s = (us, some rest) → ∃ u, us = old ++ [u] ∧ W.Rereads d t u
  length_writeTag : ∀ {t}, t < 2 ^ 14 → (W.writeTag t).length = tagLength t
  length_writeUInt32 : ∀ v, (W.writeUInt32 v).length = W.uint32Size v
  uint32Size_pos : ∀ v, 0 < W.uint32Size v
  length_writeSInt32 : ∀ v, (W.writeSInt32 v).length = W.sint32Size v
  length_writeVarint32 : ∀ n, (W.writeVarint32 n).length = W.int32Size n
  length_writeBytes : ∀ v, (W.writeBytes v).length = W.bytesSize v
  length_le_writeBytes : ∀ v, v.length ≤ (W.writeBytes v).length
  length_writeUnknownFields : ∀ us, (us.flatMap W.writeUnknownField).length
    = W.computeUnknownFieldsSize us

/-! ## Fields -/

/-- A member of a message: `has_x`, `x` and `set_x` in one. -/
structure Lens (μ V : Type) where
  get : μ → V
  put : V → μ → μ
  put_get : ∀ m, put (get m) m = m
  get_put : ∀ v m, get (put v m) = v
  put_put : ∀ v w m, put v (put w m) = put v m

/-- A member that is not the one with the unknown fields. -/
structure Accessor {φ μ : Type} (U : Lens μ (List φ)) (V : Type) extends Lens μ V where
  get_unknown : ∀ us m, get (U.put us m) = get m
  put_unknown : ∀ v us m, put v (U.put us m) = U.put us (put v m)

def access {φ μ V : Type} {U : Lens μ (List φ)} (get : μ → V) (put : V → μ → μ)
    (put_get : ∀ m, put (get m) m = m := by intro _; rfl)
    (get_put : ∀ v m, get (put v m) = v := by intro _ _; rfl)
    (put_put : ∀ v w m, put v (put w m) = put v m := by intro _ _ _; rfl)
    (get_unknown : ∀ us m, get (U.put us m) = get m := by intro _ _; rfl)
    (put_unknown : ∀ v us m, put v (U.put us m) = U.put us (put v m) := by intro _ _ _; rfl) :
    Accessor U V :=
  ⟨⟨get, put, put_get, get_put, put_put⟩, get_unknown, put_unknown⟩

/-- The types of field in `message.proto` other than groups. -/
inductive Kind {φ μ : Type} (U : Lens μ (List φ))
  | uint32 (x : Accessor U (Option UInt32))
  | sint32 (x : Accessor U (Option Int32))
  | bytes (x : Accessor U (Option Text))
  | packed (x : Accessor U (List UInt32))
  | strings (x : Accessor U (List Text))

/-- A line of a class: the number of the field, the size of its tags in `ByteSize`, what
`MergePartialFromCodedStream` tries behind it (a tag with the number of the field it jumps to), and
the member it is kept in. -/
structure Entry {φ μ : Type} (U : Lens μ (List φ)) where
  number : ℕ
  tagSize : ℕ
  checks : List (Check ℕ ℕ)
  kind : Kind U

/-- The code for one field of a message with its unknown fields in `U`. -/
structure Field {φ μ : Type} (U : Lens μ (List φ)) where
  number : ℕ
  tagSize : ℕ
  wireType : ℕ
  checks : List (Check ℕ ℕ)
  parse : Reader μ UInt8
  unpacked : Option (Reader μ UInt8)
  write : μ → List UInt8
  size : μ → ℕ
  copy : μ → μ → μ

section Kind

variable {φ μ : Type} (W : Wire φ) {U : Lens μ (List φ)}

namespace Kind

def wireType : Kind U → ℕ
  | .uint32 _ | .sint32 _ => wiretypeVarint
  | .bytes _ | .packed _ | .strings _ => wiretypeLengthDelimited

def parse : Kind U → Reader μ UInt8
  | .uint32 x, m, s =>
    match W.readUInt32 s with
    | none => (m, none)
    | some (v, rest) => (x.put (some v) m, some rest)
  | .sint32 x, m, s =>
    match W.readSInt32 s with
    | none => (m, none)
    | some (v, rest) => (x.put (some v) m, some rest)
  | .bytes x, m, s =>
    -- `mutable_x()` sets the has bit before anything is read
    let r := W.readBytes ((x.get m).getD []) s
    (x.put (some r.1) m, r.2)
  | .packed x, m, s =>
    let r := W.readPacked (x.get m) s
    (x.put r.1 m, r.2)
  | .strings x, m, s =>
    let r := W.readBytes [] s
    (x.put (x.get m ++ [r.1]) m, r.2)

/-- A packed field is read element by element too, with the tag of the packed form passed on. -/
def unpacked (number : ℕ) : Kind U → Option (Reader μ UInt8)
  | .packed x => some fun m s =>
    let r := W.readRepeated (makeTag number wiretypeLengthDelimited) (x.get m) s
    (x.put r.1 m, r.2)
  | _ => none

def write (number : ℕ) : Kind U → μ → List UInt8
  | .uint32 x, m =>
    match x.get m with
    | none => []
    | some v => W.writeTag (makeTag number wiretypeVarint) ++ W.writeUInt32 v
  | .sint32 x, m =>
    match x.get m with
    | none => []
    | some v => W.writeTag (makeTag number wiretypeVarint) ++ W.writeSInt32 v
  | .bytes x, m =>
    match x.get m with
    | none => []
    | some v => W.writeTag (makeTag number wiretypeLengthDelimited) ++ W.writeBytes v
  | .packed x, m =>
    -- `ByteSize` stored the size of the elements
    if x.get m = [] then []
    else W.writeTag (makeTag number wiretypeLengthDelimited)
      ++ (W.writeVarint32 ((x.get m).map W.uint32Size).sum ++ (x.get m).flatMap W.writeUInt32)
  | .strings x, m => (x.get m).flatMap fun v =>
    W.writeTag (makeTag number wiretypeLengthDelimited) ++ W.writeBytes v

def size (tagSize : ℕ) : Kind U → μ → ℕ
  | .uint32 x, m =>
    match x.get m with
    | none => 0
    | some v => tagSize + W.uint32Size v
  | .sint32 x, m =>
    match x.get m with
    | none => 0
    | some v => tagSize + W.sint32Size v
  | .bytes x, m =>
    match x.get m with
    | none => 0
    | some v => tagSize + W.bytesSize v
  | .packed x, m =>
    let dataSize := ((x.get m).map W.uint32Size).sum
    (if 0 < dataSize then tagSize + W.int32Size dataSize else 0) + dataSize
  | .strings x, m => tagSize * (x.get m).length + ((x.get m).map W.bytesSize).sum

def copy : Kind U → μ → μ → μ
  | .uint32 x, source, m => x.put ((x.get source).or (x.get m)) m
  | .sint32 x, source, m => x.put ((x.get source).or (x.get m)) m
  | .bytes x, source, m => x.put ((x.get source).or (x.get m)) m
  | .packed x, source, m => x.put (x.get m ++ x.get source) m
  | .strings x, source, m => x.put (x.get m ++ x.get source) m

end Kind

def field (e : Entry U) : Field U where
  number := e.number
  tagSize := e.tagSize
  wireType := e.kind.wireType
  checks := e.checks
  parse := e.kind.parse W
  unpacked := e.kind.unpacked W e.number
  write := e.kind.write W e.number
  size := e.kind.size W e.tagSize
  copy := e.kind.copy

end Kind

/-! ## Messages -/

/-- A generated class: a message without content, where it keeps its unknown fields, and its
fields in the order of their numbers. -/
structure Layout (φ μ : Type) where
  empty : μ
  unknown : Lens μ (List φ)
  fields : List (Field unknown)

namespace Layout

variable {φ μ : Type} (W : Wire φ)

/-- A class without groups. -/
def ofTable (empty : μ) (unknown : Lens μ (List φ)) (table : List (Entry unknown)) :
    Layout φ μ := ⟨empty, unknown, table.map (field W)⟩

variable (l : Layout φ μ)

def find (number : ℕ) : Option (Field l.unknown) := l.fields.find? (·.number = number)

/-- The `switch` on the field number with the tests of the wire type in its cases. -/
def switch (tag : ℕ) : Option (Reader μ UInt8 × ℕ) :=
  match l.find (getTagFieldNumber tag) with
  | none => none
  | some f =>
    if getTagWireType tag = f.wireType then some (f.parse, f.number)
    else if getTagWireType tag = wiretypeVarint then f.unpacked.map fun read => (read, f.number)
    else none

/-- The loop of `MergePartialFromCodedStream`; a label is the number of the field behind it. -/
def loop (depth : ℕ) : Loop ℕ ℕ UInt8 μ where
  next := W.readTag
  expect := W.expectTag
  expectAtEnd := W.expectAtEnd
  switch := l.switch
  label number :=
    match l.find number with
    | none => fun m _ => (m, none)
    | some f => f.parse
  checks number :=
    match l.find number with
    | none => []
    | some f => f.checks
  closes tag := getTagWireType tag = wiretypeEndGroup
  skip tag m s :=
    let r := W.skipField depth tag (l.unknown.get m) s
    (l.unknown.put r.1 m, r.2)

/-- `MergePartialFromCodedStream`, with a turn for each byte and one to end. -/
def mergePartialFromCodedStream (depth : ℕ) (m : μ) (s : List UInt8) : μ × Stop ℕ UInt8 :=
  (l.loop W depth).run (s.length + 1) none m s

def serializeWithCachedSizes (m : μ) : List UInt8 :=
  l.fields.flatMap (·.write m) ++ (l.unknown.get m).flatMap W.writeUnknownField

def byteSize (m : μ) : ℕ :=
  (l.fields.map (·.size m)).sum + W.computeUnknownFieldsSize (l.unknown.get m)

def mergeFrom (source m : μ) : μ :=
  let m := l.fields.foldl (fun m f => f.copy source m) m
  l.unknown.put (l.unknown.get m ++ l.unknown.get source) m

/-- `ReadGroupNoVirtual`: the group's own loop, which has to end at the group's end tag. -/
def readGroup (depth number : ℕ) (m : μ) (s : List UInt8) : μ × Option (List UInt8) :=
  match l.mergePartialFromCodedStream W depth m s with
  | (m, .closed tag rest) =>
    if tag = makeTag number wiretypeEndGroup then (m, some rest) else (m, none)
  | (m, _) => (m, none)

end Layout

/-- The code for a field that is a group of its own. -/
def groupField {φ μ γ : Type} (W : Wire φ) {U : Lens μ (List φ)} (number tagSize : ℕ)
    (checks : List (Check ℕ ℕ)) (x : Accessor U (Option γ)) (group : Layout φ γ) : Field U where
  number := number
  tagSize := tagSize
  wireType := wiretypeStartGroup
  checks := checks
  parse m s :=
    let r := group.readGroup W 1 number ((x.get m).getD group.empty) s
    (x.put (some r.1) m, r.2)
  unpacked := none
  write m :=
    match x.get m with
    | none => []
    | some g => W.writeTag (makeTag number wiretypeStartGroup)
      ++ group.serializeWithCachedSizes W g ++ W.writeTag (makeTag number wiretypeEndGroup)
  size m :=
    match x.get m with
    | none => 0
    | some g => tagSize + group.byteSize W g
  copy source m :=
    match x.get source with
    | none => m
    | some g => x.put (some (group.mergeFrom g ((x.get m).getD group.empty))) m

end Communicator.Protobuf
