import Communicator.Protobuf
import Mathlib.Data.List.Nodup
import Mathlib.Data.List.Flatten

/-!
# What a field's code does

For the code of one field, whatever message it is part of: its readers do not run backwards and
leave the unknown fields alone, the loop takes in what the field writes and copies it, and
`ByteSize` counts what is written (`Field.Regular`). Fields of every kind are regular
(`field_regular`).
-/

namespace Communicator.Protobuf

open Tagged

variable {φ μ : Type} {W : Wire φ} {U : Lens μ (List φ)}

theorem getTagFieldNumber_makeTag {n w : ℕ} (h : w < 8) : getTagFieldNumber (makeTag n w) = n := by
  unfold getTagFieldNumber makeTag
  omega

theorem getTagWireType_makeTag {n w : ℕ} (h : w < 8) : getTagWireType (makeTag n w) = w := by
  unfold getTagWireType makeTag
  omega

theorem Accessor.unknown_put {V : Type} (x : Accessor U V) (v : V) (m : μ) :
    U.get (x.put v m) = U.get m := by
  have h := x.put_unknown v (U.get m) m
  rw [U.put_get] at h
  rw [h, U.get_put]

theorem length_le_length_flatMap {α β : Type} {xs : List α} {x : α} (hx : x ∈ xs)
    (f : α → List β) : (f x).length ≤ (xs.flatMap f).length := by
  obtain ⟨before, rest, rfl⟩ := List.append_of_mem hx
  simp only [List.flatMap_append, List.flatMap_cons, List.length_append]
  omega

/-- The readers the loop calls for a field. -/
def Field.Reads (f : Field U) (read : Reader μ UInt8) : Prop :=
  read = f.parse ∨ f.unpacked = some read

def Field.tag (f : Field U) : ℕ := makeTag f.number f.wireType

/-- `P` is what the field's readers keep of the message, and what its content has to have for the
loop to take it in. -/
structure Field.Regular (W : Wire φ) (P : μ → Prop) (f : Field U) : Prop where
  read_le : ∀ {read m s m' rest}, f.Reads read → read m s = (m', some rest) →
    rest.length ≤ s.length
  read_unknown : ∀ {read} m s, f.Reads read → U.get (read m s).1 = U.get m
  read_keeps : ∀ {read m s m' rest}, f.Reads read → read m s = (m', some rest) → P m → P m'
  feeds : ∀ {L : Loop ℕ ℕ UInt8 μ}, L.Shrinks → f.tag < 2 ^ 14 →
    (∀ m s, L.turn m (W.writeTag f.tag ++ s) = .of (f.parse m s)) →
      ∀ {source}, P source → (f.write source).length < sizeLimit →
        L.Feeds (f.write source) (f.copy source)
  copy_unknown : ∀ source us m, f.copy source (U.put us m) = U.put us (f.copy source m)
  length_write : f.tag < 2 ^ 14 →
    f.tagSize = (if f.wireType = wiretypeStartGroup then 2 * tagLength f.tag else tagLength f.tag) →
      ∀ m, (f.write m).length = f.size m

section Kind

variable (hW : W.Lawful)
include hW

theorem length_flatMap_writeUInt32 (vs : List UInt32) :
    (vs.flatMap W.writeUInt32).length = (vs.map W.uint32Size).sum := by
  rw [List.length_flatMap]
  congr 1
  exact List.map_congr_left fun v _ => hW.length_writeUInt32 v

theorem Kind.parse_le (k : Kind U) {m m' : μ} {s rest : List UInt8}
    (h : k.parse W m s = (m', some rest)) : rest.length ≤ s.length := by
  cases k with
  | uint32 x =>
    simp only [parse] at h
    split at h
    · cases h
    · rename_i hr
      cases h
      exact hW.readUInt32_le hr
  | sint32 x =>
    simp only [parse] at h
    split at h
    · cases h
    · rename_i hr
      cases h
      exact hW.readSInt32_le hr
  | bytes x =>
    obtain ⟨-, h⟩ := Prod.mk.inj h
    exact hW.readBytes_le (Prod.ext rfl h)
  | packed x =>
    obtain ⟨-, h⟩ := Prod.mk.inj h
    exact hW.readPacked_le (Prod.ext rfl h)
  | strings x =>
    obtain ⟨-, h⟩ := Prod.mk.inj h
    exact hW.readBytes_le (Prod.ext rfl h)

theorem Kind.unpacked_le (k : Kind U) {number : ℕ} {read : Reader μ UInt8} {m m' : μ}
    {s rest : List UInt8} (hk : k.unpacked W number = some read)
    (h : read m s = (m', some rest)) : rest.length ≤ s.length := by
  cases k with
  | packed x =>
    obtain rfl := Option.some.inj hk
    obtain ⟨-, h⟩ := Prod.mk.inj h
    exact hW.readRepeated_le (Prod.ext rfl h)
  | uint32 x => cases hk
  | sint32 x => cases hk
  | bytes x => cases hk
  | strings x => cases hk

omit hW in
theorem Kind.parse_put (k : Kind U) (m : μ) (s : List UInt8) :
    (k.parse W m s).1 = m ∨ ∃ (V : Type) (x : Accessor U V) (v : V),
      (k.parse W m s).1 = x.put v m := by
  cases k with
  | uint32 x =>
    simp only [parse]
    split
    · exact .inl rfl
    · exact .inr ⟨_, x, _, rfl⟩
  | sint32 x =>
    simp only [parse]
    split
    · exact .inl rfl
    · exact .inr ⟨_, x, _, rfl⟩
  | bytes x => exact .inr ⟨_, x, _, rfl⟩
  | packed x => exact .inr ⟨_, x, _, rfl⟩
  | strings x => exact .inr ⟨_, x, _, rfl⟩

omit hW in
theorem Kind.unpacked_put (k : Kind U) {number : ℕ} {read : Reader μ UInt8}
    (hk : k.unpacked W number = some read) (m : μ) (s : List UInt8) :
    ∃ (V : Type) (x : Accessor U V) (v : V), (read m s).1 = x.put v m := by
  cases k with
  | packed x =>
    obtain rfl := Option.some.inj hk
    exact ⟨_, x, _, rfl⟩
  | uint32 x => cases hk
  | sint32 x => cases hk
  | bytes x => cases hk
  | strings x => cases hk

omit hW in
/-- A record of the field's tag and a body its reader takes. -/
theorem feeds_record {L : Loop ℕ ℕ UInt8 μ} (hL : L.Shrinks) {t : ℕ} {read : Reader μ UInt8}
    (ht : ∀ m s, L.turn m (W.writeTag t ++ s) = .of (read m s)) {body : List UInt8} {g : μ → μ}
    (hr : ∀ m s, read m (body ++ s) = (g m, some s)) : L.Feeds (W.writeTag t ++ body) g := by
  apply hL.feeds
  intro m s
  rw [List.append_assoc, ht, hr]
  rfl

omit hW in
theorem Feeds.copy_nothing {L : Loop ℕ ℕ UInt8 μ} {g : μ → μ} (h : ∀ m, g m = m) :
    L.Feeds [] g := by
  intro m s
  rw [h]
  rfl

omit hW in
/-- Appending one value after the other. -/
theorem foldl_append_member {V : Type} (x : Lens μ (List V)) : ∀ (vs : List V) (m : μ),
    vs.foldl (fun m v => x.put (x.get m ++ [v]) m) m = x.put (x.get m ++ vs) m
  | [], m => by rw [List.append_nil, x.put_get]; rfl
  | v :: vs, m => by
    rw [List.foldl_cons, foldl_append_member x vs, x.get_put, x.put_put, List.append_assoc]
    rfl

theorem Kind.feeds (k : Kind U) {number : ℕ} {L : Loop ℕ ℕ UInt8 μ} (hL : L.Shrinks)
    (ht : ∀ m s, L.turn m (W.writeTag (makeTag number k.wireType) ++ s) = .of (k.parse W m s))
    {source : μ} (hs : (k.write W number source).length < sizeLimit) :
    L.Feeds (k.write W number source) (k.copy source) := by
  cases k with
  | uint32 x =>
    change L.Feeds _ fun m => x.put ((x.get source).or (x.get m)) m
    simp only [write]
    cases x.get source with
    | none => exact Feeds.copy_nothing fun m => x.put_get m
    | some v =>
      apply feeds_record hL ht
      intro m s
      simp only [parse, hW.readUInt32_write]
      rfl
  | sint32 x =>
    change L.Feeds _ fun m => x.put ((x.get source).or (x.get m)) m
    simp only [write]
    cases x.get source with
    | none => exact Feeds.copy_nothing fun m => x.put_get m
    | some v =>
      apply feeds_record hL ht
      intro m s
      simp only [parse, hW.readSInt32_write]
      rfl
  | bytes x =>
    change L.Feeds _ fun m => x.put ((x.get source).or (x.get m)) m
    simp only [write] at hs ⊢
    cases hv : x.get source with
    | none => exact Feeds.copy_nothing fun m => x.put_get m
    | some v =>
      rw [hv] at hs
      have hlen := hW.length_le_writeBytes v
      simp only [List.length_append] at hs
      apply feeds_record hL ht
      intro m s
      simp only [parse, hW.readBytes_write _ v s (by omega)]
      rfl
  | packed x =>
    change L.Feeds _ fun m => x.put (x.get m ++ x.get source) m
    simp only [write] at hs ⊢
    by_cases hv : x.get source = []
    · simp only [hv, if_true, List.append_nil]
      exact Feeds.copy_nothing fun m => x.put_get m
    · simp only [hv, if_false, ← length_flatMap_writeUInt32 hW, List.length_append] at hs ⊢
      apply feeds_record hL ht
      intro m s
      have hread := hW.readPacked_write (x.get m) (x.get source) s (by omega)
      simp only [parse, hread]
  | strings x =>
    change L.Feeds _ fun m => x.put (x.get m ++ x.get source) m
    simp only [write] at hs ⊢
    have hrec : ∀ v ∈ x.get source, L.Feeds
        (W.writeTag (makeTag number wiretypeLengthDelimited) ++ W.writeBytes v)
        (fun m => x.put (x.get m ++ [v]) m) := by
      intro v hv
      have hmem := length_le_length_flatMap hv fun v =>
        W.writeTag (makeTag number wiretypeLengthDelimited) ++ W.writeBytes v
      have hlen := hW.length_le_writeBytes v
      simp only [List.length_append] at hmem
      apply feeds_record hL ht
      intro m s
      simp only [parse, hW.readBytes_write _ v s (by omega)]
    have h := Loop.Feeds.flatMap hrec
    simp only [foldl_append_member] at h
    exact h

theorem Kind.length_write (k : Kind U) {number tagSize : ℕ}
    (ht : makeTag number k.wireType < 2 ^ 14)
    (hsize : tagSize = tagLength (makeTag number k.wireType)) (m : μ) :
    (k.write W number m).length = k.size W tagSize m := by
  have htag := hW.length_writeTag ht
  rw [← hsize] at htag
  unfold wireType at htag
  cases k with
  | uint32 x =>
    simp only [write, size]
    cases x.get m with
    | none => rfl
    | some v => rw [List.length_append, hW.length_writeUInt32, htag]
  | sint32 x =>
    simp only [write, size]
    cases x.get m with
    | none => rfl
    | some v => rw [List.length_append, hW.length_writeSInt32, htag]
  | bytes x =>
    simp only [write, size]
    cases x.get m with
    | none => rfl
    | some v => rw [List.length_append, hW.length_writeBytes, htag]
  | packed x =>
    simp only [write, size]
    cases hv : x.get m with
    | nil => rfl
    | cons v vs =>
      have hpos := hW.uint32Size_pos v
      simp only [List.map_cons, List.sum_cons, reduceCtorEq, if_false, List.length_append, htag,
        hW.length_writeVarint32, length_flatMap_writeUInt32 hW]
      rw [if_pos (by omega)]
      omega
  | strings x =>
    simp only [write, size]
    induction x.get m with
    | nil => rfl
    | cons v vs ih =>
      simp only [List.flatMap_cons, List.length_append, List.length_cons, List.map_cons,
        List.sum_cons, ih, htag, hW.length_writeBytes, Nat.mul_succ]
      omega

omit hW in
theorem Kind.wireType_ne_startGroup (k : Kind U) : k.wireType ≠ wiretypeStartGroup := by
  unfold wiretypeStartGroup
  cases k <;> simp [wireType, wiretypeVarint, wiretypeLengthDelimited]

/-- `P` survives every assignment to the member. -/
def Kind.Keeps (P : μ → Prop) : Kind U → Prop
  | .uint32 x => ∀ v m, P m → P (x.put v m)
  | .sint32 x => ∀ v m, P m → P (x.put v m)
  | .bytes x => ∀ v m, P m → P (x.put v m)
  | .packed x => ∀ v m, P m → P (x.put v m)
  | .strings x => ∀ v m, P m → P (x.put v m)

omit hW in
theorem Kind.keeps_parse {P : μ → Prop} {k : Kind U} (hk : k.Keeps P) {m : μ} (hm : P m)
    (s : List UInt8) : P (k.parse W m s).1 := by
  cases k with
  | uint32 x =>
    simp only [parse]
    split
    · exact hm
    · exact hk _ _ hm
  | sint32 x =>
    simp only [parse]
    split
    · exact hm
    · exact hk _ _ hm
  | bytes x => exact hk _ _ hm
  | packed x => exact hk _ _ hm
  | strings x => exact hk _ _ hm

theorem field_regular {P : μ → Prop} (e : Entry U) (hk : e.kind.Keeps P) :
    (field W e).Regular W P where
  read_le := by
    rintro read m s m' rest (rfl | hread) h
    · exact e.kind.parse_le hW h
    · exact e.kind.unpacked_le hW hread h
  read_unknown := by
    rintro read m s (rfl | hread)
    · rcases e.kind.parse_put (W := W) m s with h | ⟨V, x, v, h⟩
      · exact congrArg U.get h
      · exact (congrArg U.get h).trans (x.unknown_put v m)
    · obtain ⟨V, x, v, h⟩ := e.kind.unpacked_put hread m s
      rw [h, x.unknown_put]
  read_keeps := by
    rintro read m s m' rest (rfl | hread) h hm
    · have hkeep := Kind.keeps_parse (W := W) hk hm s
      rwa [show e.kind.parse W m s = _ from h] at hkeep
    · obtain ⟨number, tagSize, checks, kind⟩ := e
      cases kind with
      | packed x =>
        obtain rfl := Option.some.inj hread
        obtain ⟨rfl, -⟩ := Prod.mk.inj h
        exact hk _ _ hm
      | uint32 x => cases hread
      | sint32 x => cases hread
      | bytes x => cases hread
      | strings x => cases hread
  feeds hL _ ht _ _ hs := e.kind.feeds hW hL ht hs
  copy_unknown source us m := by
    simp only [field]
    cases e.kind <;> simp only [Kind.copy, Accessor.get_unknown, Accessor.put_unknown]
  length_write := by
    intro ht hsize m
    exact e.kind.length_write hW ht (hsize.trans (if_neg e.kind.wireType_ne_startGroup)) m

end Kind

end Communicator.Protobuf
