import Communicator.Proofs.RoundTrip
import Communicator.Proofs.Runtime
import Communicator.Proofs.AllOrNothing
import Communicator.Proofs.Grammar

/-!
# Records from the device to the queue

The parser as a whole, over every runtime that keeps its promises: what is written is read, what
was read can be written and read again, jumps and unknown fields make no difference, and the
events of the records in a data frame are what the frame puts into the queue.
-/

namespace Communicator.Protobuf

open Tagged

variable {φ : Type} {W : Wire φ}

abbrev RecReg.serialize (W : Wire φ) (m : RecReg φ) : List UInt8 :=
  (RecReg.layout W).serializeWithCachedSizes W m

theorem RecReg.parseFromArray_serialize (hW : W.Lawful) (m : RecReg φ) (hm : m.Clean W)
    (hs : (m.serialize W).length < sizeLimit) :
    RecReg.parseFromArray W (m.serialize W) = (m.isInitialized, m) :=
  RecReg.parse_serialized hW hm hs

/-- A record with an unknown field behind its events. -/
def oneUnknown : RecReg WireFormat.UnknownField :=
  { mid := [5, 300], unknown := [.varint 99 1] }

theorem unknown_varint : (RecReg.layout wireFormat).Unknown wireFormat 0 (.varint 99 1) := by
  have hvalid : (WireFormat.UnknownField.varint 99 1).Valid := by
    unfold WireFormat.UnknownField.Valid
    decide
  exact ⟨792, by decide, by decide, rfl, by decide, rereads_of_valid hvalid 0⟩

theorem oneUnknown_clean : oneUnknown.Clean wireFormat where
  groups := by
    constructor <;> intro g h <;> cases h
  own := by
    intro u hu
    obtain rfl := List.mem_singleton.1 hu
    exact unknown_varint

theorem parseFromArray_serialize_oneUnknown :
    RecReg.parseFromArray wireFormat (oneUnknown.serialize wireFormat) = (true, oneUnknown) :=
  RecReg.parseFromArray_serialize wireFormat_lawful oneUnknown oneUnknown_clean (by decide)

/-- What was accepted once is accepted as it was when it is written and read again, unknown fields
included. -/
theorem RecReg.reparse (hW : W.Lawful) (s : List UInt8) (m : RecReg φ)
    (h : RecReg.parseFromArray W s = (true, m)) (hs : (m.serialize W).length < sizeLimit) :
    RecReg.parseFromArray W (m.serialize W) = (true, m) := by
  obtain ⟨hclean, hinit⟩ := RecReg.parse_clean hW h
  rw [RecReg.parse_serialized hW hclean hs, hinit]

/-- The same record with its unknown field in front and one of its events by itself. -/
theorem reparse_oneUnknown :
    RecReg.parseFromArray wireFormat (oneUnknown.serialize wireFormat) = (true, oneUnknown) :=
  RecReg.reparse wireFormat_lawful [0x98, 0x06, 1, 8, 5, 0x0A, 2, 0xAC, 0x02] oneUnknown rfl
    (by decide)

/-- Records written one after the other are read as one record: the first with the others merged
into it in turn. -/
theorem RecReg.parseFromArray_concat (hW : W.Lawful) (ms : List (RecReg φ))
    (hms : ∀ m ∈ ms, m.Clean W) (hs : (ms.flatMap (RecReg.serialize W)).length < sizeLimit) :
    RecReg.parseFromArray W (ms.flatMap (RecReg.serialize W))
      = ((ms.foldl (fun m source => (RecReg.layout W).mergeFrom source m) {}).isInitialized,
        ms.foldl (fun m source => (RecReg.layout W).mergeFrom source m) {}) := by
  have h := RecReg.feeds_serialized hW hms hs {} []
  rw [List.append_nil, ((RecReg.regular hW).shrinks hW).merge_stop (Layout.turn_nil hW _)] at h
  rw [RecReg.parseFromArray_eq hW, h]
  rfl

theorem parseFromArray_concat_two :
    (RecReg.parseFromArray wireFormat
      ([oneUnknown, oneUnknown].flatMap (RecReg.serialize wireFormat))).1 = true := by
  have hclean : ∀ m ∈ [oneUnknown, oneUnknown], m.Clean wireFormat := by
    intro m hm
    rcases List.mem_cons.1 hm with rfl | hm
    · exact oneUnknown_clean
    · obtain rfl := List.mem_singleton.1 hm
      exact oneUnknown_clean
  rw [RecReg.parseFromArray_concat wireFormat_lawful _ hclean (by decide)]
  rfl

/-- What `ByteSize` of a class has to be: as long as it is an `int`, the number of bytes written. -/
def Layout.Sized {μ : Type} (W : Wire φ) (l : Layout φ μ) : Prop :=
  ∀ m, (l.serializeWithCachedSizes W m).length < sizeLimit →
    l.byteSize W m = (l.serializeWithCachedSizes W m).length

theorem Layout.Regular.sized {μ : Type} {l : Layout φ μ} {P : μ → Prop} (hW : W.Lawful)
    (hl : l.Regular W P) : l.Sized W := fun m _ => (hl.length_serialized hW m).symm

theorem length_serialize (hW : W.Lawful) :
    (RecRegGeneral.layout W).Sized W ∧ (RecRegPhoto.layout W).Sized W
      ∧ (RecRegNav.layout W).Sized W ∧ (RecRegUniDt.layout W).Sized W
      ∧ (RecRegCanDt.layout W).Sized W ∧ (RecRegLlsDt.layout W).Sized W
      ∧ (RecRegLog.layout W).Sized W ∧ (RecReg.layout W).Sized W :=
  ⟨(RecRegGeneral.regular hW).sized hW, (RecRegPhoto.regular hW).sized hW,
    (RecRegNav.regular hW).sized hW, (RecRegUniDt.regular hW).sized hW,
    (RecRegCanDt.regular hW).sized hW, (RecRegLlsDt.regular hW).sized hW,
    (RecRegLog.regular hW).sized hW, (RecReg.regular hW).sized hW⟩

theorem length_serialize_oneUnknown :
    (RecReg.layout wireFormat).byteSize wireFormat oneUnknown
      = (oneUnknown.serialize wireFormat).length := by
  obtain ⟨-, -, -, -, -, -, -, h⟩ := length_serialize wireFormat_lawful
  exact h oneUnknown (by decide)

section Unknown

variable {μ : Type} {l : Layout φ μ} {P : μ → Prop} {depth : ℕ}

theorem copy_keeps_unknown {f : Field l.unknown} (hf : f.Regular W P) (source m : μ) :
    l.unknown.get (f.copy source m) = l.unknown.get m := by
  have h := hf.copy_unknown source (l.unknown.get m) m
  rw [l.unknown.put_get] at h
  rw [h, l.unknown.get_put]

theorem copies_unknown {fields : List (Field l.unknown)} (hf : ∀ f ∈ fields, f.Regular W P)
    (source : μ) (us : List φ) (m : μ) :
    fields.foldl (fun m f => f.copy source m) (l.unknown.put us m)
      = l.unknown.put us (fields.foldl (fun m f => f.copy source m) m) := by
  induction fields generalizing m with
  | nil => rfl
  | cons f fields ih =>
    rw [List.foldl_cons, List.foldl_cons, (hf f List.mem_cons_self).copy_unknown]
    exact ih (fun g hg => hf g (List.mem_cons_of_mem _ hg)) _

/-- The fields of a message with unknown ones anywhere between them. -/
def scatter (W : Wire φ) (pieces : List (List UInt8 ⊕ φ)) : List UInt8 :=
  pieces.flatMap (Sum.elim (fun bytes => bytes) W.writeUnknownField)

theorem feeds_scatter (hW : W.Lawful) (hl : l.Regular W P) {source : μ} (hP : P source)
    (hs : (l.serializeWithCachedSizes W source).length < sizeLimit) :
    ∀ (pieces : List (List UInt8 ⊕ φ)) (fields : List (Field l.unknown)),
      (∀ f ∈ fields, f ∈ l.fields) →
      pieces.filterMap Sum.getLeft? = fields.map (·.write source) →
      (∀ u ∈ pieces.filterMap Sum.getRight?, l.Unknown W depth u) →
      (l.loop W depth).Feeds (scatter W pieces) fun m =>
        l.unknown.put (l.unknown.get m ++ pieces.filterMap Sum.getRight?)
          (fields.foldl (fun m f => f.copy source m) m)
  | [], fields, _, hp, _ => by
    obtain rfl := List.map_eq_nil_iff.1 hp.symm
    intro m s
    simp only [List.filterMap_nil, List.append_nil, List.foldl_nil, l.unknown.put_get]
    rfl
  | .inl bytes :: pieces, [], _, hp, _ => by cases hp
  | .inl bytes :: pieces, f :: fields, hmem, hp, hu => by
    obtain ⟨hbytes, hpieces⟩ := List.cons.inj hp
    subst hbytes
    have hf := hmem f List.mem_cons_self
    have hreg := hl.fields f hf
    obtain ⟨-, -, htag, -⟩ := Layout.row_of_mem hl.rows hf
    have hlen := length_le_length_flatMap hf fun f => f.write source
    rw [Layout.serializeWithCachedSizes, List.length_append] at hs
    have hfeed : (l.loop W depth).Feeds (f.write source) (f.copy source) :=
      hreg.feeds (hl.shrinks hW) htag (hl.turn_field hW hf) hP (by omega)
    have hrest := feeds_scatter hW hl hP
      (by rw [Layout.serializeWithCachedSizes, List.length_append]; exact hs) pieces fields
      (fun g hg => hmem g (List.mem_cons_of_mem _ hg)) hpieces hu
    have h := hfeed.append hrest
    simp only [copy_keeps_unknown hreg] at h
    exact h
  | .inr u :: pieces, fields, hmem, hp, hu => by
    have hfeed := hl.feeds_unknown hW (hu u List.mem_cons_self)
    have hrest := feeds_scatter hW hl hP hs pieces fields hmem hp
      fun v hv => hu v (List.mem_cons_of_mem _ hv)
    have h := hfeed.append hrest
    simp only [copies_unknown fun f hf => hl.fields f (hmem f hf), l.unknown.get_put,
      l.unknown.put_put, List.append_assoc] at h
    exact h

end Unknown

/-- Fields the server does not know make no difference to it, wherever they are between the fields
of a record. -/
theorem env_scatter (hW : W.Lawful) (formats : Formats) (m : RecReg φ) (hm : m.Clean W)
    (hs : (m.serialize W).length < sizeLimit) (hnone : m.unknown = [])
    (pieces : List (List UInt8 ⊕ φ))
    (hp : pieces.filterMap Sum.getLeft? = (RecReg.fields W).map (·.write m))
    (hu : ∀ u ∈ pieces.filterMap Sum.getRight?, (RecReg.layout W).Unknown W 0 u) :
    (env W formats).parseFromArray (scatter W pieces)
      = (env W formats).parseFromArray (m.serialize W) := by
  have hreg := RecReg.regular hW
  have hfeed := feeds_scatter hW hreg hm.groups hs pieces (RecReg.layout W).fields
    (fun f hf => hf) hp hu {} []
  dsimp only at hfeed
  rw [List.append_nil, (hreg.shrinks hW).merge_stop (Layout.turn_nil hW _)] at hfeed
  have hcopies : (RecReg.layout W).fields.foldl (fun m' f => f.copy m m') {} = m := by
    have hmerge := RecReg.mergeFrom_empty (W := W) m
    unfold Layout.mergeFrom at hmerge
    simp only [show (RecReg.layout W).unknown.get m = [] from hnone, List.append_nil,
      Lens.put_get] at hmerge
    exact hmerge
  have hscatter : RecReg.parseFromArray W (scatter W pieces) = (m.isInitialized,
      { m with unknown := pieces.filterMap Sum.getRight? }) := by
    rw [RecReg.parseFromArray_eq hW, hfeed, hcopies]
    rfl
  unfold env
  simp only [hscatter, RecReg.parse_serialized hW hm hs]
  rfl

theorem env_scatter_in_front :
    (env wireFormat eventOnly.formats).parseFromArray [0x98, 0x06, 1, 0x0A, 1, 5]
      = (env wireFormat eventOnly.formats).parseFromArray [0x0A, 1, 5] := by
  have hu : ∀ u ∈ [WireFormat.UnknownField.varint 99 1],
      (RecReg.layout wireFormat).Unknown wireFormat 0 u := by
    intro u hu
    obtain rfl := List.mem_singleton.1 hu
    exact unknown_varint
  exact env_scatter wireFormat_lawful eventOnly.formats { mid := [5] } (events_clean [5])
    (by decide) rfl
    [.inr (.varint 99 1), .inl [0x0A, 1, 5], .inl [], .inl [], .inl [], .inl [], .inl [], .inl [],
      .inl []] rfl hu

/-- In every class, a loop that jumps to the label of an expected field reads what the loop that
looks up every tag would read. -/
theorem jumps_change_nothing (hW : W.Lawful) (depth : ℕ) (s : List UInt8) :
    (∀ m, (RecRegGeneral.layout W).mergePartialFromCodedStream W depth m s
        = ((RecRegGeneral.layout W).loop W depth).merge m s)
      ∧ (∀ m, (RecRegPhoto.layout W).mergePartialFromCodedStream W depth m s
        = ((RecRegPhoto.layout W).loop W depth).merge m s)
      ∧ (∀ m, (RecRegNav.layout W).mergePartialFromCodedStream W depth m s
        = ((RecRegNav.layout W).loop W depth).merge m s)
      ∧ (∀ m, (RecRegUniDt.layout W).mergePartialFromCodedStream W depth m s
        = ((RecRegUniDt.layout W).loop W depth).merge m s)
      ∧ (∀ m, (RecRegCanDt.layout W).mergePartialFromCodedStream W depth m s
        = ((RecRegCanDt.layout W).loop W depth).merge m s)
      ∧ (∀ m, (RecRegLlsDt.layout W).mergePartialFromCodedStream W depth m s
        = ((RecRegLlsDt.layout W).loop W depth).merge m s)
      ∧ (∀ m, (RecRegLog.layout W).mergePartialFromCodedStream W depth m s
        = ((RecRegLog.layout W).loop W depth).merge m s)
      ∧ ∀ m, (RecReg.layout W).mergePartialFromCodedStream W depth m s
        = ((RecReg.layout W).loop W depth).merge m s :=
  ⟨fun m => (RecRegGeneral.regular hW).merge_eq hW m s,
    fun m => (RecRegPhoto.regular hW).merge_eq hW m s,
    fun m => (RecRegNav.regular hW).merge_eq hW m s,
    fun m => (RecRegUniDt.regular hW).merge_eq hW m s,
    fun m => (RecRegCanDt.regular hW).merge_eq hW m s,
    fun m => (RecRegLlsDt.regular hW).merge_eq hW m s,
    fun m => (RecRegLog.regular hW).merge_eq hW m s,
    fun m => (RecReg.regular hW).merge_eq hW m s⟩

theorem jumps_change_nothing_two_positions :
    (RecRegNav.layout wireFormat).mergePartialFromCodedStream wireFormat 1 {} [8, 9, 16, 14]
      = ((RecRegNav.layout wireFormat).loop wireFormat 1).merge {} [8, 9, 16, 14] :=
  (jumps_change_nothing wireFormat_lawful 1 [8, 9, 16, 14]).2.2.1 {}

/-- A data frame with a chain of records in it enqueues their events, in order and as the records
were on the device, and takes over the number of the last. -/
theorem records_enqueued (hW : W.Lawful) (formats : Formats) (w : World) (m : TransportMessage)
    (records : List (RecReg φ)) (hd : m.IsData) (h9 : 9 ≤ m.data.length)
    (him : m.imData = chainOf (records.map (RecReg.serialize W)))
    (hclean : ∀ r ∈ records, r.Clean W)
    (htakes : Takes w m (records.flatMap fun r => eventTexts formats r.view))
    (rest : List UInt8) :
    (processMessage (env W formats) w (m.frame ++ rest)).1 = .returned ()
      ∧ (processMessage (env W formats) w (m.frame ++ rest)).2.backend
        = w.backend.append (enqueued w m (records.flatMap fun r => eventTexts formats r.view))
      ∧ (processMessage (env W formats) w (m.frame ++ rest)).2.getLastCounter w.controllerId
        = m.lastMesNumber := by
  have ht : m.trailer ++ rest ≠ [] := by simp [TransportMessage.trailer]
  have hblocks : ∀ r ∈ records, renderedEvents (env W formats) (r.serialize W)
      = eventTexts formats r.view := by
    intro r hr
    have hlen := length_lt_of_chainOf him _ (List.mem_map_of_mem hr)
    have hparse := RecReg.parse_serialized hW (hclean r hr)
      (Nat.lt_trans hlen (by decide : 65536 < sizeLimit))
    simp only [renderedEvents, env, hparse]
    rfl
  have hinfo : infoMessages (env W formats) m.imData
      = .returned (records.flatMap fun r => eventTexts formats r.view) := by
    rw [infoMessages_chainOf _ him, List.flatMap_map]
    congr 1
    exact List.flatMap_congr hblocks
  have h := accept_cases (env W formats) w m
  rw [frame_append, processMessage_data _ w hd h9 ht]
  generalize accept (env W formats) w m = r at h
  cases h with
  | refused e bad => simp [hinfo] at bad
  | all texts ok takes =>
    obtain rfl := Outcome.returned.inj (hinfo.symm.trans ok)
    refine ⟨rfl, congrArg Shared.backend (World.settle_shared _ _), ?_⟩
    rw [World.getLastCounter, World.settle_shared]
    simp [World.setLastCounter]
  | full texts ok not_takes k lt room full =>
    obtain rfl := Outcome.returned.inj (hinfo.symm.trans ok)
    exact absurd htakes not_takes
  | overflow texts ok not_takes k lt room =>
    obtain rfl := Outcome.returned.inj (hinfo.symm.trans ok)
    exact absurd htakes not_takes

/-- The two records of `twoEvents`. -/
theorem records_enqueued_two :
    (processMessage (env wireFormat eventOnly.formats) (downloading 2)
      (twoEvents.frame ++ [])).1 = .returned () := by
  refine (records_enqueued wireFormat_lawful eventOnly.formats (downloading 2) twoEvents
    [{ mid := [5] }, { mid := [6] }] (.inr rfl) (by decide) rfl ?_ (.inr ?_) []).1
  · intro r hr
    rcases List.mem_cons.1 hr with rfl | hr
    · exact events_clean [5]
    · obtain rfl := List.mem_singleton.1 hr
      exact events_clean [6]
  · decide +kernel

end Communicator.Protobuf
