import Communicator.Proofs.Fields

/-!
# What a message's code does

For a message whose table of fields holds together (`Layout.Regular`): its loop ends and is the
plain loop (`merge_eq`), unknown fields are kept so that they are unknown again (`Tidy.merge`),
the loop takes in a serialization as `MergeFrom` would its message (`feeds`), and `ByteSize` is
the length of the serialization.
-/

namespace Communicator.Protobuf

open Tagged

variable {φ μ : Type} {W : Wire φ}

namespace Layout

variable (l : Layout φ μ)

/-- The numbers in a table. -/
structure Row where
  number : ℕ
  tagSize : ℕ
  wireType : ℕ
  checks : List (Check ℕ ℕ)

def outline : List Row := l.fields.map fun f => ⟨f.number, f.tagSize, f.wireType, f.checks⟩

def Row.tag (r : Row) : ℕ := makeTag r.number r.wireType

def Row.expects (rows : List Row) : Check ℕ ℕ → Bool
  | .expect t i => rows.any fun r => r.number = i ∧ r.tag = t
  | .atEnd => true

/-- Every number is there once, tags and sizes fit, and a tag that is expected is that of the
field whose reader it leads to. -/
def wellFormed (rows : List Row) : Bool :=
  (rows.map (·.number)).Nodup ∧ rows.all fun r =>
    0 < r.number ∧ r.wireType < wiretypeEndGroup ∧ r.tag < 2 ^ 14
      ∧ r.tagSize = (if r.wireType = wiretypeStartGroup then 2 * tagLength r.tag
        else tagLength r.tag)
      ∧ r.checks.all (Row.expects rows)

structure Regular (W : Wire φ) (P : μ → Prop) (l : Layout φ μ) : Prop where
  rows : wellFormed l.outline = true
  fields : ∀ f ∈ l.fields, f.Regular W P
  keeps_unknown : ∀ us {m}, P m → P (l.unknown.put us m)

/-- An unknown field that is unknown to the message once it is read again. -/
def Unknown (W : Wire φ) (depth : ℕ) (l : Layout φ μ) (u : φ) : Prop :=
  ∃ t, 0 < t ∧ t < 2 ^ 32 ∧ l.switch t = none ∧ getTagWireType t ≠ wiretypeEndGroup
    ∧ W.Rereads depth t u

def Tidy (W : Wire φ) (depth : ℕ) (l : Layout φ μ) (m : μ) : Prop :=
  ∀ u ∈ l.unknown.get m, l.Unknown W depth u

variable {l} {P : μ → Prop}

theorem find_number {U : Lens μ (List φ)} : ∀ {fields : List (Field U)},
    (fields.map (·.number)).Nodup → ∀ {f}, f ∈ fields →
      fields.find? (·.number = f.number) = some f
  | [], _, f, hf => absurd hf List.not_mem_nil
  | g :: fields, hnodup, f, hf => by
    rw [List.map_cons, List.nodup_cons] at hnodup
    rcases List.mem_cons.1 hf with rfl | hf
    · exact List.find?_cons_of_pos (by simp)
    · have hmem := List.mem_map_of_mem (f := (·.number)) hf
      have hne : g.number ≠ f.number := fun heq => hnodup.1 (heq ▸ hmem)
      rw [List.find?_cons_of_neg (by simpa using hne)]
      exact find_number hnodup.2 hf

theorem find_of_mem (hrows : wellFormed l.outline = true) {f : Field l.unknown}
    (hf : f ∈ l.fields) : l.find f.number = some f := by
  simp only [wellFormed, outline, List.map_map, Bool.decide_and, Bool.and_eq_true,
    decide_eq_true_eq] at hrows
  exact find_number hrows.1 hf

theorem row_of_mem (hrows : wellFormed l.outline = true) {f : Field l.unknown}
    (hf : f ∈ l.fields) : 0 < f.number ∧ f.wireType < wiretypeEndGroup ∧ f.tag < 2 ^ 14
      ∧ f.tagSize = (if f.wireType = wiretypeStartGroup then 2 * tagLength f.tag
        else tagLength f.tag)
      ∧ ∀ t i, .expect t i ∈ f.checks → ∃ g ∈ l.fields, g.number = i ∧ g.tag = t := by
  have hmem := List.mem_map_of_mem
    (f := fun f : Field l.unknown => (⟨f.number, f.tagSize, f.wireType, f.checks⟩ : Row)) hf
  simp only [wellFormed, Bool.decide_and, Bool.and_eq_true, decide_eq_true_eq] at hrows
  have hrow := List.all_eq_true.1 hrows.2 _ hmem
  simp only [Bool.and_eq_true, decide_eq_true_eq] at hrow
  obtain ⟨hnum, hwire, htag, hsize, hchecks⟩ := hrow
  refine ⟨hnum, hwire, htag, hsize, ?_⟩
  intro t i ht
  have hexp := List.all_eq_true.1 hchecks _ ht
  simp only [Row.expects, List.any_eq_true, Bool.decide_and, Bool.and_eq_true,
    decide_eq_true_eq] at hexp
  obtain ⟨r, hr, hnumber, htag⟩ := hexp
  obtain ⟨g, hg, rfl⟩ := List.mem_map.1 hr
  exact ⟨g, hg, hnumber, htag⟩

theorem switch_tag (hrows : wellFormed l.outline = true) {f : Field l.unknown}
    (hf : f ∈ l.fields) : l.switch f.tag = some (f.parse, f.number) := by
  obtain ⟨-, hwire, -⟩ := row_of_mem hrows hf
  have hlt : f.wireType < 8 := Nat.lt_trans hwire (by decide)
  unfold switch Field.tag
  rw [getTagFieldNumber_makeTag hlt, find_of_mem hrows hf, getTagWireType_makeTag hlt]
  exact if_pos rfl

/-- Every reader the `switch` leads to is one of a field of the table. -/
theorem switch_reads {t n : ℕ} {read : Reader μ UInt8} (h : l.switch t = some (read, n)) :
    ∃ f ∈ l.fields, f.Reads read ∧ (getTagWireType t = f.wireType
      ∨ getTagWireType t = wiretypeVarint) := by
  unfold switch at h
  split at h
  · cases h
  · rename_i f hf
    have hmem := List.mem_of_find?_eq_some hf
    split at h
    · rename_i hw
      cases h
      exact ⟨f, hmem, .inl rfl, .inl hw⟩
    · split at h
      · rename_i hw
        obtain ⟨read', hread, heq⟩ := Option.map_eq_some_iff.1 h
        cases heq
        exact ⟨f, hmem, .inr hread, .inr hw⟩
      · cases h

theorem switch_endGroup (hrows : wellFormed l.outline = true) (number : ℕ) :
    l.switch (makeTag number wiretypeEndGroup) = none := by
  cases hs : l.switch (makeTag number wiretypeEndGroup) with
  | none => rfl
  | some p =>
    obtain ⟨f, hf, -, hw⟩ := switch_reads hs
    obtain ⟨-, hwire, -⟩ := row_of_mem hrows hf
    rw [getTagWireType_makeTag (by decide)] at hw
    rcases hw with hw | hw
    · exact absurd hw.symm (Nat.ne_of_lt hwire)
    · exact absurd hw (by decide)

/-! ## The loop -/

variable {depth : ℕ}

theorem act_of_switch {t n : ℕ} {read : Reader μ UInt8} (h : l.switch t = some (read, n)) :
    (l.loop W depth).act t = some read := by
  unfold Loop.act
  rw [show (l.loop W depth).switch t = _ from h]

theorem act_unknown {t : ℕ} (h : l.switch t = none)
    (hw : getTagWireType t ≠ wiretypeEndGroup) :
    (l.loop W depth).act t = some ((l.loop W depth).skip t) := by
  unfold Loop.act
  rw [show (l.loop W depth).switch t = _ from h]
  exact if_neg (by simpa [loop] using hw)

theorem act_endGroup (hrows : wellFormed l.outline = true) (number : ℕ) :
    (l.loop W depth).act (makeTag number wiretypeEndGroup) = none := by
  unfold Loop.act
  rw [show (l.loop W depth).switch _ = _ from switch_endGroup hrows number]
  exact if_pos (by simp only [loop, getTagWireType_makeTag (by decide : wiretypeEndGroup < 8),
    decide_true])

/-- A reader of the loop belongs to a field, or skips an unknown one. -/
theorem act_cases {t : ℕ} {read : Reader μ UInt8} (h : (l.loop W depth).act t = some read) :
    (∃ f ∈ l.fields, f.Reads read) ∨ l.switch t = none
      ∧ getTagWireType t ≠ wiretypeEndGroup ∧ read = (l.loop W depth).skip t := by
  cases hs : l.switch t with
  | some p =>
    obtain ⟨f, hf, hread, -⟩ := switch_reads hs
    rw [act_of_switch hs] at h
    obtain rfl := Option.some.inj h
    exact .inl ⟨f, hf, hread⟩
  | none =>
    by_cases hw : getTagWireType t = wiretypeEndGroup
    · unfold Loop.act at h
      rw [show (l.loop W depth).switch t = _ from hs] at h
      simp [loop, hw] at h
    · rw [act_unknown hs hw] at h
      exact .inr ⟨rfl, hw, (Option.some.inj h).symm⟩

section Lawful

variable (hW : W.Lawful)
include hW

theorem Regular.shrinks (hl : l.Regular W P) : (l.loop W depth).Shrinks where
  next_lt := hW.readTag_lt
  act_le := by
    intro t read m s m' rest hact h
    rcases act_cases hact with ⟨f, hf, hread⟩ | ⟨-, -, rfl⟩
    · exact (hl.fields f hf).read_le hread h
    · obtain ⟨-, h⟩ := Prod.mk.inj h
      exact hW.skipField_le (Prod.ext rfl h)

theorem Regular.sound (hl : l.Regular W P) : (l.loop W depth).Sound where
  expect_next := hW.expectTag_readTag
  atEnd_next := hW.expectAtEnd_readTag
  label_switch := by
    intro i t j h
    simp only [loop] at h
    split at h
    · exact absurd h List.not_mem_nil
    · rename_i f hf
      obtain ⟨-, -, -, -, hchecks⟩ := row_of_mem hl.rows (List.mem_of_find?_eq_some hf)
      obtain ⟨g, hg, rfl, rfl⟩ := hchecks t j h
      simp only [loop, find_of_mem hl.rows hg]
      exact switch_tag hl.rows hg

/-- The jumps change nothing: every message is read as the plain loop reads it. -/
theorem Regular.merge_eq (hl : l.Regular W P) (m : μ) (s : List UInt8) :
    l.mergePartialFromCodedStream W depth m s = (l.loop W depth).merge m s :=
  (hl.sound hW).run_eq_merge (hl.shrinks hW) m s

/-- The parse loop comes to an end: its fuel is never used up. -/
theorem Regular.ends (hl : l.Regular W P) (m : μ) (s : List UInt8) :
    (l.mergePartialFromCodedStream W depth m s).2 ≠ .exhausted := by
  rw [hl.merge_eq hW]
  exact (hl.shrinks hW).merge_ne_exhausted m s

theorem Regular.turn_field (hl : l.Regular W P) {f : Field l.unknown} (hf : f ∈ l.fields)
    (m : μ) (s : List UInt8) :
    (l.loop W depth).turn m (W.writeTag f.tag ++ s) = .of (f.parse m s) := by
  obtain ⟨hnumber, -, htag, -⟩ := row_of_mem hl.rows hf
  have hpos : 0 < f.tag := by
    unfold Field.tag makeTag
    omega
  exact Loop.turn_tag (hW.readTag_write s hpos (Nat.lt_trans htag (by decide)))
    (act_of_switch (switch_tag hl.rows hf)) m

theorem Regular.turn_endGroup (hl : l.Regular W P) {number : ℕ}
    (hn : makeTag number wiretypeEndGroup < 2 ^ 32) (m : μ) (s : List UInt8) :
    (l.loop W depth).turn m (W.writeTag (makeTag number wiretypeEndGroup) ++ s)
      = .stop m (.closed (makeTag number wiretypeEndGroup) s) := by
  have hpos : 0 < makeTag number wiretypeEndGroup := by
    unfold makeTag wiretypeEndGroup
    omega
  unfold Loop.turn
  rw [show (l.loop W depth).next _ = _ from hW.readTag_write s hpos hn]
  simp only [act_endGroup hl.rows]

theorem turn_nil (m : μ) : (l.loop W depth).turn m [] = .stop m .atEnd := by
  unfold Loop.turn
  rw [show (l.loop W depth).next [] = _ from hW.readTag_nil]

theorem Regular.feeds_unknown (hl : l.Regular W P) {u : φ} (hu : l.Unknown W depth u) :
    (l.loop W depth).Feeds (W.writeUnknownField u)
      fun m => l.unknown.put (l.unknown.get m ++ [u]) m := by
  obtain ⟨t, hpos, hlt, hs, hw, body, hbody, hskip⟩ := hu
  rw [hbody]
  have hturn : ∀ m s, (l.loop W depth).turn m (W.writeTag t ++ s)
      = .of ((l.loop W depth).skip t m s) :=
    fun m s => Loop.turn_tag (hW.readTag_write s hpos hlt) (act_unknown hs hw) m
  refine feeds_record (hl.shrinks hW) hturn ?_
  intro m s
  simp only [loop, hskip]

/-- A merge that does not fail keeps what it skipped in a form it would skip again. -/
theorem Regular.merge_keeps (hl : l.Regular W P) {m : μ} (hm : P m) (ht : l.Tidy W depth m)
    (s : List UInt8) (hs : ((l.loop W depth).merge m s).2 ≠ .failed) :
    P ((l.loop W depth).merge m s).1 ∧ l.Tidy W depth ((l.loop W depth).merge m s).1 := by
  refine (hl.shrinks hW).merge_keeps (P := fun m => P m ∧ l.Tidy W depth m) ?_ ⟨hm, ht⟩ hs
  rintro s₀ t read m s m' rest hnext hact hr ⟨hm, ht⟩
  rcases act_cases hact with ⟨f, hf, hread⟩ | ⟨hs, hw, rfl⟩
  · refine ⟨(hl.fields f hf).read_keeps hread hr hm, ?_⟩
    have hunknown := (hl.fields f hf).read_unknown m s hread
    rw [hr] at hunknown
    unfold Tidy
    rw [hunknown]
    exact ht
  · obtain ⟨rfl, hrest⟩ := Prod.mk.inj hr
    obtain ⟨us, hskip⟩ : ∃ us, W.skipField depth t (l.unknown.get m) s = (us, some rest) :=
      ⟨_, Prod.ext rfl hrest⟩
    obtain ⟨hpos, hlt⟩ := hW.readTag_range hnext
    obtain ⟨u, rfl, hrereads⟩ := hW.skipField_rereads hlt hskip
    refine ⟨hl.keeps_unknown _ hm, ?_⟩
    unfold Tidy
    intro v hv
    rw [l.unknown.get_put, hskip] at hv
    rcases List.mem_append.1 hv with hv | hv
    · exact ht v hv
    · obtain rfl := List.mem_singleton.1 hv
      exact ⟨t, hpos, hlt, hs, hw, hrereads⟩

/-- The loop takes in a serialization in whatever follows it, and merges its message. -/
theorem Regular.feeds (hl : l.Regular W P) {source : μ} (hP : P source)
    (ht : l.Tidy W depth source)
    (hs : (l.serializeWithCachedSizes W source).length < sizeLimit) :
    (l.loop W depth).Feeds (l.serializeWithCachedSizes W source) (l.mergeFrom source) := by
  have hL : (l.loop W depth).Shrinks := hl.shrinks hW
  have hfields : ∀ f ∈ l.fields,
      (l.loop W depth).Feeds (f.write source) (f.copy source) := by
    intro f hf
    have hmem := length_le_length_flatMap hf fun f => f.write source
    rw [serializeWithCachedSizes, List.length_append] at hs
    obtain ⟨-, -, htag, -⟩ := row_of_mem hl.rows hf
    exact (hl.fields f hf).feeds hL htag (hl.turn_field hW hf) hP (by omega)
  have hunknown : ∀ u ∈ l.unknown.get source, (l.loop W depth).Feeds (W.writeUnknownField u)
      fun m => l.unknown.put (l.unknown.get m ++ [u]) m :=
    fun u hu => hl.feeds_unknown hW (ht u hu)
  have h := (Loop.Feeds.flatMap hfields).append (Loop.Feeds.flatMap hunknown)
  simp only [foldl_append_member] at h
  exact h

theorem Regular.merge_serialized (hl : l.Regular W P) {source : μ} (hP : P source)
    (ht : l.Tidy W depth source)
    (hs : (l.serializeWithCachedSizes W source).length < sizeLimit) (m : μ) :
    (l.loop W depth).merge m (l.serializeWithCachedSizes W source)
      = (l.mergeFrom source m, .atEnd) := by
  have h := hl.feeds hW hP ht hs m []
  rw [List.append_nil] at h
  rw [h, (hl.shrinks hW).merge_stop (turn_nil hW _)]

theorem Regular.length_serialized (hl : l.Regular W P) (m : μ) :
    (l.serializeWithCachedSizes W m).length = l.byteSize W m := by
  unfold serializeWithCachedSizes byteSize
  rw [List.length_append, List.length_flatMap, hW.length_writeUnknownFields]
  congr 2
  apply List.map_congr_left
  intro f hf
  obtain ⟨-, -, htag, hsize, -⟩ := row_of_mem hl.rows hf
  exact (hl.fields f hf).length_write htag hsize m

/-! ## Groups -/

theorem Regular.readGroup_le (hl : l.Regular W P) {number : ℕ} {m m' : μ} {s rest : List UInt8}
    (h : l.readGroup W depth number m s = (m', some rest)) : rest.length ≤ s.length := by
  unfold readGroup at h
  rw [hl.merge_eq hW] at h
  split at h
  · rename_i m₁ tag rest₁ hm
    have hlt := (hl.shrinks hW).closed_lt hm
    split at h
    · cases h
      exact Nat.le_of_lt hlt
    · cases h
  · cases h

theorem Regular.readGroup_keeps (hl : l.Regular W P) {number : ℕ} {m m' : μ}
    {s rest : List UInt8} (h : l.readGroup W depth number m s = (m', some rest)) (hm : P m)
    (ht : l.Tidy W depth m) : P m' ∧ l.Tidy W depth m' := by
  unfold readGroup at h
  rw [hl.merge_eq hW] at h
  split at h
  · rename_i m₁ tag rest₁ hmerge
    have hkeep := hl.merge_keeps hW hm ht s (by rw [hmerge]; exact fun hc => by cases hc)
    rw [hmerge] at hkeep
    split at h
    · cases h
      exact hkeep
    · cases h
  · cases h

theorem Regular.readGroup_serialized (hl : l.Regular W P) {source : μ} (hP : P source)
    (ht : l.Tidy W depth source)
    (hs : (l.serializeWithCachedSizes W source).length < sizeLimit) {number : ℕ}
    (hn : makeTag number wiretypeEndGroup < 2 ^ 32) (m : μ) (s : List UInt8) :
    l.readGroup W depth number m (l.serializeWithCachedSizes W source
      ++ W.writeTag (makeTag number wiretypeEndGroup) ++ s) = (l.mergeFrom source m, some s) := by
  have h : l.mergePartialFromCodedStream W depth m (l.serializeWithCachedSizes W source
      ++ W.writeTag (makeTag number wiretypeEndGroup) ++ s)
        = (l.mergeFrom source m, .closed (makeTag number wiretypeEndGroup) s) := by
    rw [hl.merge_eq hW, List.append_assoc, hl.feeds hW hP ht hs,
      (hl.shrinks hW).merge_stop (hl.turn_endGroup hW hn _ s)]
  unfold readGroup
  rw [h]
  exact if_pos rfl

end Lawful

end Layout

/-- A class without groups. -/
theorem ofTable_regular (hW : W.Lawful) {empty : μ} {U : Lens μ (List φ)}
    {table : List (Entry U)}
    (hrows : Layout.wellFormed (Layout.ofTable W empty U table).outline = true) :
    (Layout.ofTable W empty U table).Regular W fun _ => True where
  rows := hrows
  keeps_unknown _ _ _ := trivial
  fields := by
    intro f hf
    obtain ⟨e, -, rfl⟩ := List.mem_map.1 hf
    apply field_regular hW
    cases e.kind <;> exact fun _ _ _ => trivial

/-- A group in a message of which `P` is kept: `P` says that the group is tidy. -/
theorem groupField_regular (hW : W.Lawful) {γ : Type} {U : Lens μ (List φ)} {P : μ → Prop}
    {number tagSize : ℕ} {checks : List (Check ℕ ℕ)} (x : Accessor U (Option γ))
    {group : Layout φ γ} (hg : group.Regular W fun _ => True)
    (hempty : group.unknown.get group.empty = [])
    (hget : ∀ {m g}, P m → x.get m = some g → group.Tidy W 1 g)
    (hput : ∀ {m g}, group.Tidy W 1 g → P m → P (x.put (some g) m)) :
    (groupField W number tagSize checks x group).Regular W P where
  read_le := by
    rintro read m s m' rest (rfl | hread) h
    · obtain ⟨-, h⟩ := Prod.mk.inj h
      exact hg.readGroup_le hW (Prod.ext rfl h)
    · cases hread
  read_unknown := by
    rintro read m s (rfl | hread)
    · exact x.unknown_put _ m
    · cases hread
  read_keeps := by
    rintro read m s m' rest (rfl | hread) h hm
    · obtain ⟨rfl, hrest⟩ := Prod.mk.inj h
      have htidy : group.Tidy W 1 ((x.get m).getD group.empty) := by
        cases hx : x.get m with
        | none =>
          intro u hu
          rw [Option.getD_none, hempty] at hu
          exact absurd hu List.not_mem_nil
        | some g => exact hget hm hx
      exact hput (hg.readGroup_keeps hW (Prod.ext rfl hrest) trivial htidy).2 hm
    · cases hread
  feeds := by
    intro L hL htag ht source hP hs
    change L.Feeds _ fun m => _
    simp only [groupField] at hs ⊢
    cases hx : x.get source with
    | none => exact Loop.Feeds.nil
    | some g =>
      simp only [hx, List.length_append] at hs
      have hn : makeTag number wiretypeEndGroup < 2 ^ 32 := by
        simp only [Field.tag, groupField, makeTag, wiretypeStartGroup] at htag
        unfold makeTag wiretypeEndGroup
        omega
      simp only [List.append_assoc]
      refine feeds_record hL ht ?_
      intro m s
      have hread := hg.readGroup_serialized hW trivial (hget hP hx) (by omega) hn
        ((x.get m).getD group.empty) s
      simp only [groupField, hread]
  copy_unknown source us m := by
    simp only [groupField]
    cases x.get source with
    | none => rfl
    | some g => simp only [x.get_unknown, x.put_unknown]
  length_write := by
    intro htag hsize m
    simp only [Field.tag, groupField, makeTag, wiretypeStartGroup] at htag hsize ⊢
    cases x.get m with
    | none => rfl
    | some g =>
      have hstart := hW.length_writeTag htag
      have hend := hW.length_writeTag (t := number * 8 + 4) (by omega)
      have hsame : tagLength (number * 8 + 4) = tagLength (number * 8 + 3) := by
        unfold tagLength
        split <;> split <;> omega
      simp only [List.length_append, hg.length_serialized hW, hstart, wiretypeEndGroup, hend, hsame]
      simp only [if_true] at hsize
      omega

end Communicator.Protobuf
