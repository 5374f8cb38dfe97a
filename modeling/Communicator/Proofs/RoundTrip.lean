import Communicator.RecReg
import Communicator.Proofs.Layouts

/-!
# What a record keeps on the wire

A record that was written is read back as it was, a sequence of records written one after the
other is read as their merge, and whatever was accepted survives being written and read again.
-/

namespace Communicator.Protobuf

open Tagged

variable {φ : Type} {W : Wire φ}

theorem RecRegGeneral.rows : Layout.wellFormed (RecRegGeneral.layout W).outline = true := by
  simp only [Layout.outline, layout, Layout.ofTable, List.map_cons, List.map_nil, field,
    Kind.wireType]
  decide +kernel

theorem RecRegPhoto.rows : Layout.wellFormed (RecRegPhoto.layout W).outline = true := by
  simp only [Layout.outline, layout, Layout.ofTable, List.map_cons, List.map_nil, field,
    Kind.wireType]
  decide +kernel

theorem RecRegNav.rows : Layout.wellFormed (RecRegNav.layout W).outline = true := by
  simp only [Layout.outline, layout, Layout.ofTable, List.map_cons, List.map_nil, field,
    Kind.wireType]
  decide +kernel

theorem RecRegUniDt.rows : Layout.wellFormed (RecRegUniDt.layout W).outline = true := by
  simp only [Layout.outline, layout, Layout.ofTable, List.map_cons, List.map_nil, field,
    Kind.wireType]
  decide +kernel

theorem RecRegCanDt.rows : Layout.wellFormed (RecRegCanDt.layout W).outline = true := by
  simp only [Layout.outline, layout, Layout.ofTable, List.map_cons, List.map_nil, field,
    Kind.wireType]
  decide +kernel

theorem RecRegLlsDt.rows : Layout.wellFormed (RecRegLlsDt.layout W).outline = true := by
  simp only [Layout.outline, layout, Layout.ofTable, List.map_cons, List.map_nil, field,
    Kind.wireType]
  decide +kernel

theorem RecRegLog.rows : Layout.wellFormed (RecRegLog.layout W).outline = true := by
  simp only [Layout.outline, layout, Layout.ofTable, List.map_cons, List.map_nil, field,
    Kind.wireType]
  decide +kernel

theorem RecReg.rows : Layout.wellFormed (RecReg.layout W).outline = true := by
  simp only [Layout.outline, layout, fields, List.map_cons, List.map_nil, field, groupField,
    Kind.wireType]
  decide +kernel

section Regular

variable (hW : W.Lawful)
include hW

theorem RecRegGeneral.regular : (RecRegGeneral.layout W).Regular W fun _ => True :=
  ofTable_regular hW rows

theorem RecRegPhoto.regular : (RecRegPhoto.layout W).Regular W fun _ => True :=
  ofTable_regular hW rows

theorem RecRegNav.regular : (RecRegNav.layout W).Regular W fun _ => True :=
  ofTable_regular hW rows

theorem RecRegUniDt.regular : (RecRegUniDt.layout W).Regular W fun _ => True :=
  ofTable_regular hW rows

theorem RecRegCanDt.regular : (RecRegCanDt.layout W).Regular W fun _ => True :=
  ofTable_regular hW rows

theorem RecRegLlsDt.regular : (RecRegLlsDt.layout W).Regular W fun _ => True :=
  ofTable_regular hW rows

theorem RecRegLog.regular : (RecRegLog.layout W).Regular W fun _ => True :=
  ofTable_regular hW rows

end Regular

/-- The unknown fields of the groups are unknown to them. -/
structure RecReg.GroupsTidy (W : Wire φ) (m : RecReg φ) : Prop where
  general : ∀ {g}, m.general = some g → (RecRegGeneral.layout W).Tidy W 1 g
  photo : ∀ {g}, m.photo = some g → (RecRegPhoto.layout W).Tidy W 1 g
  nav : ∀ {g}, m.nav = some g → (RecRegNav.layout W).Tidy W 1 g
  unidt : ∀ {g}, m.unidt = some g → (RecRegUniDt.layout W).Tidy W 1 g
  candt : ∀ {g}, m.candt = some g → (RecRegCanDt.layout W).Tidy W 1 g
  llsdt : ∀ {g}, m.llsdt = some g → (RecRegLlsDt.layout W).Tidy W 1 g
  log : ∀ {g}, m.log = some g → (RecRegLog.layout W).Tidy W 1 g

/-- No unknown field of the record is one that a reader knows. -/
structure RecReg.Clean (W : Wire φ) (m : RecReg φ) : Prop where
  groups : m.GroupsTidy W
  own : (RecReg.layout W).Tidy W 0 m

theorem RecReg.fields_regular (hW : W.Lawful) :
    ∀ f ∈ RecReg.fields W, f.Regular W (RecReg.GroupsTidy W) := by
  simp only [fields, List.forall_mem_cons]
  refine ⟨field_regular hW _ ?_, ?_, ?_, ?_, ?_, ?_, ?_, ?_, fun _ h => absurd h List.not_mem_nil⟩
  · exact fun _ _ h => ⟨h.general, h.photo, h.nav, h.unidt, h.candt, h.llsdt, h.log⟩
  · exact groupField_regular hW _ (RecRegGeneral.regular hW) rfl (fun h => h.general)
      fun hg h => { h with general := fun hx => Option.some.inj hx ▸ hg }
  · exact groupField_regular hW _ (RecRegPhoto.regular hW) rfl (fun h => h.photo)
      fun hg h => { h with photo := fun hx => Option.some.inj hx ▸ hg }
  · exact groupField_regular hW _ (RecRegNav.regular hW) rfl (fun h => h.nav)
      fun hg h => { h with nav := fun hx => Option.some.inj hx ▸ hg }
  · exact groupField_regular hW _ (RecRegUniDt.regular hW) rfl (fun h => h.unidt)
      fun hg h => { h with unidt := fun hx => Option.some.inj hx ▸ hg }
  · exact groupField_regular hW _ (RecRegCanDt.regular hW) rfl (fun h => h.candt)
      fun hg h => { h with candt := fun hx => Option.some.inj hx ▸ hg }
  · exact groupField_regular hW _ (RecRegLlsDt.regular hW) rfl (fun h => h.llsdt)
      fun hg h => { h with llsdt := fun hx => Option.some.inj hx ▸ hg }
  · exact groupField_regular hW _ (RecRegLog.regular hW) rfl (fun h => h.log)
      fun hg h => { h with log := fun hx => Option.some.inj hx ▸ hg }

theorem RecReg.regular (hW : W.Lawful) :
    (RecReg.layout W).Regular W (RecReg.GroupsTidy W) where
  rows := RecReg.rows
  fields := RecReg.fields_regular hW
  keeps_unknown _ _ h := ⟨h.general, h.photo, h.nav, h.unidt, h.candt, h.llsdt, h.log⟩

theorem RecRegGeneral.mergeFrom_empty (m : RecRegGeneral φ) :
    (RecRegGeneral.layout W).mergeFrom m {} = m := by
  simp [Layout.mergeFrom, layout, Layout.ofTable, field, Kind.copy, access, unknownFields]

theorem RecRegPhoto.mergeFrom_empty (m : RecRegPhoto φ) :
    (RecRegPhoto.layout W).mergeFrom m {} = m := by
  simp [Layout.mergeFrom, layout, Layout.ofTable, field, Kind.copy, access, unknownFields]

theorem RecRegNav.mergeFrom_empty (m : RecRegNav φ) :
    (RecRegNav.layout W).mergeFrom m {} = m := by
  simp [Layout.mergeFrom, layout, Layout.ofTable, field, Kind.copy, access, unknownFields]

theorem RecRegUniDt.mergeFrom_empty (m : RecRegUniDt φ) :
    (RecRegUniDt.layout W).mergeFrom m {} = m := by
  simp [Layout.mergeFrom, layout, Layout.ofTable, field, Kind.copy, access, unknownFields]

theorem RecRegCanDt.mergeFrom_empty (m : RecRegCanDt φ) :
    (RecRegCanDt.layout W).mergeFrom m {} = m := by
  simp [Layout.mergeFrom, layout, Layout.ofTable, field, Kind.copy, access, unknownFields]

theorem RecRegLlsDt.mergeFrom_empty (m : RecRegLlsDt φ) :
    (RecRegLlsDt.layout W).mergeFrom m {} = m := by
  simp [Layout.mergeFrom, layout, Layout.ofTable, field, Kind.copy, access, unknownFields]

theorem RecRegLog.mergeFrom_empty (m : RecRegLog φ) :
    (RecRegLog.layout W).mergeFrom m {} = m := by
  simp [Layout.mergeFrom, layout, Layout.ofTable, field, Kind.copy, access, unknownFields]

theorem groupField_copy {γ μ : Type} {U : Lens μ (List φ)} {number tagSize : ℕ}
    {checks : List (Check ℕ ℕ)} {x : Accessor U (Option γ)} {group : Layout φ γ}
    (hg : ∀ g, group.mergeFrom g group.empty = g) {source m : μ} (hm : x.get m = none) :
    (groupField W number tagSize checks x group).copy source m = x.put (x.get source) m := by
  simp only [groupField]
  cases hx : x.get source with
  | none =>
    have hput := x.put_get m
    rw [hm] at hput
    exact hput.symm
  | some g => simp only [hm, Option.getD_none, hg]

theorem RecReg.mergeFrom_empty (m : RecReg φ) : (RecReg.layout W).mergeFrom m {} = m := by
  simp only [Layout.mergeFrom, layout, fields, List.foldl_cons, List.foldl_nil]
  rw [groupField_copy RecRegGeneral.mergeFrom_empty rfl,
    groupField_copy RecRegPhoto.mergeFrom_empty rfl,
    groupField_copy RecRegNav.mergeFrom_empty rfl,
    groupField_copy RecRegUniDt.mergeFrom_empty rfl,
    groupField_copy RecRegCanDt.mergeFrom_empty rfl,
    groupField_copy RecRegLlsDt.mergeFrom_empty rfl,
    groupField_copy RecRegLog.mergeFrom_empty rfl]
  simp only [field, Kind.copy, access, unknownFields, List.nil_append]

theorem events_clean (mid : List UInt32) : RecReg.Clean W { mid := mid } where
  groups := by
    constructor <;> intro g h <;> cases h
  own _ h := absurd h List.not_mem_nil

section Lawful

variable (hW : W.Lawful)
include hW

theorem RecReg.parseFromArray_eq (s : List UInt8) : RecReg.parseFromArray W s
    = RecReg.parsed (((RecReg.layout W).loop W 0).merge {} s) := by
  unfold parseFromArray
  rw [(RecReg.regular hW).merge_eq hW]

theorem RecReg.feeds_serialized {ms : List (RecReg φ)} (hms : ∀ m ∈ ms, m.Clean W)
    (hs : (ms.flatMap ((RecReg.layout W).serializeWithCachedSizes W)).length < sizeLimit) :
    ((RecReg.layout W).loop W 0).Feeds
      (ms.flatMap ((RecReg.layout W).serializeWithCachedSizes W))
      fun m => ms.foldl (fun m source => (RecReg.layout W).mergeFrom source m) m := by
  apply Loop.Feeds.flatMap
  intro m hm
  have hlen := length_le_length_flatMap hm ((RecReg.layout W).serializeWithCachedSizes W)
  exact (RecReg.regular hW).feeds hW (hms m hm).groups (hms m hm).own (by omega)

theorem RecReg.parse_serialized {m : RecReg φ} (hm : m.Clean W)
    (hs : ((RecReg.layout W).serializeWithCachedSizes W m).length < sizeLimit) :
    RecReg.parseFromArray W ((RecReg.layout W).serializeWithCachedSizes W m)
      = (m.isInitialized, m) := by
  have h := (RecReg.regular hW).merge_serialized hW hm.groups hm.own hs {}
  rw [RecReg.parseFromArray_eq hW, h, RecReg.mergeFrom_empty]
  rfl

/-- The members a parse succeeded with are all there is: written and read again, a record that
was accepted is accepted as it was, unknown fields included. -/
theorem RecReg.parse_clean {s : List UInt8} {m : RecReg φ}
    (h : RecReg.parseFromArray W s = (true, m)) : m.Clean W ∧ m.isInitialized = true := by
  rw [RecReg.parseFromArray_eq hW] at h
  unfold parsed at h
  split at h
  · rename_i m₁ hm
    have hkeep := (RecReg.regular hW).merge_keeps hW (events_clean []).groups
      (events_clean []).own s
      (by rw [hm]; exact fun hc => by cases hc)
    rw [hm] at hkeep
    obtain ⟨hinit, rfl⟩ := Prod.mk.inj h
    exact ⟨⟨hkeep.1, hkeep.2⟩, hinit⟩
  · cases h

end Lawful

end Communicator.Protobuf
