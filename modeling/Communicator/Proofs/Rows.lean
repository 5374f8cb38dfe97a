import Communicator.Proofs.StoredText
import Communicator.Proofs.Times
import Communicator.Proofs.Grammar
import Communicator.Proofs.EndToEnd

/-!
# What a row says

`extract` assigns at most one value to each name, so that its attributes are a table by name. With
the readers of the printed numbers and times, a row gives back all of the event that `extract`
printed exactly: every number but the four scaled ones, which stay the texts they were printed as,
and the voltage, which it multiplied by 100.
-/

namespace Communicator

theorem lookup_cons_if {α β : Type*} [BEq α] [LawfulBEq α] [DecidableEq α] (k m : α) (v : β)
    (l : List (α × β)) :
    ((k, v) :: l).lookup m = if m = k then some v else l.lookup m := by
  rw [List.lookup_cons]
  by_cases h : m = k
  · rw [if_pos h, beq_iff_eq.2 h]
  · rw [if_neg h, beq_eq_false_iff_ne.2 h]

theorem lookup_set (data : Attributes) (name m : String) (value : Text) :
    (data.set name value).lookup m = if m = name then some value else data.lookup m := by
  induction data with
  | nil => exact lookup_cons_if name m value []
  | cons a data ih =>
    obtain ⟨n, v⟩ := a
    unfold Attributes.set
    split
    · exact lookup_cons_if name m value _
    · split
      · rename_i heq
        rw [lookup_cons_if, lookup_cons_if, heq]
        split <;> rfl
      · rename_i hne
        rw [lookup_cons_if, lookup_cons_if, ih]
        by_cases h : m = n
        · rw [if_pos h, if_pos h, if_neg (h ▸ Ne.symm hne)]
        · rw [if_neg h, if_neg h]

/-- A table of what may be assigned to which name. -/
abbrev Table := List (String × Option Text)

def assign (data : Attributes) (t : Table) : Attributes :=
  t.foldl (fun data a => data.setIf a.1 (fun v => v) a.2) data

theorem assign_append (data : Attributes) (t u : Table) :
    assign data (t ++ u) = assign (assign data t) u := List.foldl_append

theorem lookup_setIf (data : Attributes) (name m : String) (o : Option Text) :
    (data.setIf name (fun v => v) o).lookup m
      = if m = name then o.or (data.lookup m) else data.lookup m := by
  cases o with
  | none => exact (ite_self _).symm
  | some v => exact lookup_set data name m v

/-- Where no name comes twice, each has the value the table gives it. -/
theorem lookup_assign {t : Table} (ht : (t.map Prod.fst).Nodup) (data : Attributes)
    (m : String) : (assign data t).lookup m = ((t.lookup m).join).or (data.lookup m) := by
  induction t generalizing data with
  | nil => rfl
  | cons a t ih =>
    obtain ⟨n, o⟩ := a
    obtain ⟨hn, ht⟩ := List.nodup_cons.1 ht
    have hstep : assign data ((n, o) :: t) = assign (data.setIf n (fun v => v) o) t := rfl
    rw [hstep, ih ht, lookup_setIf, lookup_cons_if]
    by_cases h : m = n
    · have hnone : t.lookup m = none := by
        refine List.lookup_eq_none_iff.2 fun a ha => ?_
        exact bne_iff_ne.2 fun heq => hn (List.mem_map.2 ⟨a, ha, heq.symm.trans h⟩)
      rw [hnone, if_pos h, if_pos h]
      rfl
    · rw [if_neg h, if_neg h]

/-! ## The tables of the groups -/

section Tables

variable (F : Formats)

def generalTable (message : RecRegGeneral) : Table :=
  [("time", message.time.map fun t => otimeToString t.toNat),
    ("controller_id", message.idfas.map unsigned32Text),
    ("ignition", message.flg.map (flagText 0)), ("gsm_status", message.flg.map (flagText 1)),
    ("gps_status", message.flg.map (flagText 2)), ("roaming", message.flg.map (flagText 3)),
    ("power_status", message.flg.map (flagText 4)), ("alarm", message.flg.map (flagText 5)),
    ("open_case", message.flg.map (flagText 6)), ("discrete_input", message.flg.map (flagText 7)),
    ("flags", message.flg.map unsigned32Text), ("mileage", message.mileage.map unsigned32Text),
    ("speed_by_sensor", message.vimp.map unsigned32Text),
    ("engine_speed", message.timp.map unsigned32Text),
    ("power_main", message.uboard.map fun v => unsigned32Text (v * 100)),
    ("battery_level", message.batlife.map unsigned32Text), ("a_total", message.sumacc.map F.sumacc),
    ("phone", message.phone), ("a_x", message.amtrx.map int32Text),
    ("a_y", message.amtry.map int32Text), ("a_z", message.amtrz.map int32Text)]

def navTable (message : Option RecRegNav) : Table :=
  [("lat", message.map fun nav => F.degrees nav.lat),
    ("lon", message.map fun nav => F.degrees nav.lon),
    ("speed_by_gps", message.map fun nav => F.gpsvel nav.gpsvel),
    ("course", message.map fun nav => int32Text nav.gpsdir.toInt32),
    ("satellites", message.map fun nav => unsigned32Text nav.gpsnsat),
    ("altitude", message.map fun nav => F.gpsalt nav.gpsalt)]

def uniDtTable (message : RecRegUniDt) : Table :=
  [("univ0", message.unival0.map int32Text), ("univ1", message.unival1.map int32Text),
    ("univ2", message.unival2.map int32Text), ("univ3", message.unival3.map int32Text)]

def llsTable {φ : Type} (value temp flags : String) (state : φ → Text) (lls : Lls φ) : Table :=
  [(value, lls.clls.map unsigned32Text), (temp, lls.tlls.map int32Text),
    (flags, lls.flls.map state)]

def llsDtTable (message : RecRegLlsDt) : Table :=
  llsTable "lls1_value" "lls1_temp" "lls1_flags" int32Text message.lls1
    ++ llsTable "lls2_value" "lls2_temp" "lls2_flags" int32Text message.lls2
    ++ llsTable "lls3_value" "lls3_temp" "lls3_flags" int32Text message.lls3
    ++ llsTable "lls4_value" "lls4_temp" "lls4_flags" int32Text message.lls4
    ++ llsTable "lls5_value" "lls5_temp" "lls5_flags" int32Text message.lls5
    ++ llsTable "lls6_value" "lls6_temp" "lls6_flags" unsigned32Text message.lls6

/-- What an event assigns to each name. -/
def eventTable (messageId : UInt32) (message : RecReg) : Table :=
  ("message_type", some (unsigned32Text messageId))
    :: (generalTable F (message.general.getD {}) ++ navTable F message.nav
      ++ uniDtTable (message.unidt.getD {}) ++ llsDtTable (message.llsdt.getD {}))

variable {F} {data : Attributes}

theorem setIf_map {β : Type*} (name : String) (f : β → Text) (o : Option β) :
    data.setIf name (fun v => v) (o.map f) = data.setIf name f o := by
  cases o <;> rfl

theorem extractGeneral_eq (message : RecRegGeneral) :
    extractGeneral F message data = assign data (generalTable F message) := by
  simp only [assign, generalTable, List.foldl_cons, List.foldl_nil, setIf_map, extractGeneral]
  cases message.flg <;> rfl

theorem extractUniDt_eq (message : RecRegUniDt) :
    extractUniDt message data = assign data (uniDtTable message) := by
  simp only [assign, uniDtTable, List.foldl_cons, List.foldl_nil, setIf_map, extractUniDt]

theorem extractLls_eq {φ : Type} (value temp flags : String) (state : φ → Text) (lls : Lls φ) :
    extractLls value temp flags state lls data
      = assign data (llsTable value temp flags state lls) := by
  simp only [assign, llsTable, List.foldl_cons, List.foldl_nil, setIf_map, extractLls]

theorem extractLlsDt_eq (message : RecRegLlsDt) :
    extractLlsDt message data = assign data (llsDtTable message) := by
  simp only [extractLlsDt, extractLls_eq, llsDtTable, assign_append]

/-- All that `extract` does is to assign what the table says. -/
theorem extract_eq_assign (messageId : UInt32) (message : RecReg) :
    extract F messageId message data = assign data (eventTable F messageId message) := by
  have hgeneral : ∀ data, group (extractGeneral F) message.general data
      = assign data (generalTable F (message.general.getD {})) := by
    intro data
    cases message.general with
    | none => rfl
    | some general => exact extractGeneral_eq general
  have hnav : ∀ data, group (extractNav F) message.nav data
      = assign data (navTable F message.nav) := by
    intro data
    cases message.nav <;> rfl
  have hunidt : ∀ data, group extractUniDt message.unidt data
      = assign data (uniDtTable (message.unidt.getD {})) := by
    intro data
    cases message.unidt with
    | none => rfl
    | some unidt => exact extractUniDt_eq unidt
  have hllsdt : ∀ data, group extractLlsDt message.llsdt data
      = assign data (llsDtTable (message.llsdt.getD {})) := by
    intro data
    cases message.llsdt with
    | none => rfl
    | some llsdt => exact extractLlsDt_eq llsdt
  have hcons : ∀ (t : Table) name v, assign data ((name, some v) :: t)
      = assign (data.set name v) t := fun _ _ _ => rfl
  rw [extract_eq, hgeneral, hnav, hunidt, hllsdt, eventTable, hcons, assign_append, assign_append,
    assign_append]

/-- The names `extract` knows. -/
def names : List String :=
  ["message_type", "time", "controller_id", "ignition", "gsm_status", "gps_status", "roaming",
    "power_status", "alarm", "open_case", "discrete_input", "flags", "mileage", "speed_by_sensor",
    "engine_speed", "power_main", "battery_level", "a_total", "phone", "a_x", "a_y", "a_z",
    "lat", "lon", "speed_by_gps", "course", "satellites", "altitude",
    "univ0", "univ1", "univ2", "univ3", "lls1_value", "lls1_temp", "lls1_flags",
    "lls2_value", "lls2_temp", "lls2_flags", "lls3_value", "lls3_temp", "lls3_flags",
    "lls4_value", "lls4_temp", "lls4_flags", "lls5_value", "lls5_temp", "lls5_flags",
    "lls6_value", "lls6_temp", "lls6_flags"]

theorem eventTable_names (messageId : UInt32) (message : RecReg) :
    (eventTable F messageId message).map Prod.fst = names := rfl

theorem names_nodup : names.Nodup := by decide +kernel

/-- Each name has the value the table gives it. -/
theorem lookup_attributes (e : StoredEvent) (name : String) :
    (e.attributes F).lookup name = ((eventTable F e.messageId e.message).lookup name).join := by
  have hnodup := names_nodup
  rw [← eventTable_names (F := F) e.messageId e.message] at hnodup
  rw [StoredEvent.attributes, extract_eq_assign, lookup_assign hnodup]
  exact Option.or_none

end Tables

theorem text_injective {s t : String} (hs : ∀ c ∈ s.toList, c.toNat < 256)
    (ht : ∀ c ∈ t.toList, c.toNat < 256) (h : text s = text t) : s = t := by
  have hchars := congrArg (List.map fun b => Char.ofNat (UInt8.toNat b)) h
  rw [text, text, chars_of_bytes hs, chars_of_bytes ht] at hchars
  exact String.toList_injective hchars

def ascii (s : String) : Bool := s.toList.all fun c => c.toNat < 256

theorem lt_of_ascii {s : String} (h : ascii s = true) : ∀ c ∈ s.toList, c.toNat < 256 :=
  fun c hc => of_decide_eq_true (List.all_eq_true.1 h c hc)

theorem names_ascii : ∀ n ∈ names, ∀ c ∈ n.toList, c.toNat < 256 := by
  have h : names.all ascii = true := by decide +kernel
  exact fun n hn => lt_of_ascii (List.all_eq_true.1 h n hn)

/-- Looking for a name's bytes is looking for the name. -/
theorem lookup_map_text {data : Attributes} {name : String}
    (hdata : ∀ a ∈ data, ∀ c ∈ a.1.toList, c.toNat < 256)
    (hname : ∀ c ∈ name.toList, c.toNat < 256) :
    (data.map fun a => (text a.1, a.2)).lookup (text name) = data.lookup name := by
  induction data with
  | nil => rfl
  | cons a data ih =>
    obtain ⟨ha, hdata⟩ := List.forall_mem_cons.1 hdata
    rw [List.map_cons, lookup_cons_if, lookup_cons_if, ih hdata]
    by_cases h : name = a.1
    · rw [if_pos h, if_pos (congrArg text h)]
    · rw [if_neg h, if_neg fun heq => h (text_injective hname ha heq)]

theorem mem_assign {t : Table} {data : Attributes} {a : String × Text} (h : a ∈ assign data t) :
    a ∈ data ∨ a.1 ∈ t.map Prod.fst := by
  induction t generalizing data with
  | nil => exact .inl h
  | cons b t ih =>
    obtain ⟨n, o⟩ := b
    have hmem : a ∈ assign (data.setIf n (fun v => v) o) t := h
    rcases ih hmem with h | h
    · cases o with
      | none => exact .inl h
      | some v =>
        rcases mem_set h with rfl | h
        · exact .inr List.mem_cons_self
        · exact .inl h
    · exact .inr (List.mem_cons_of_mem _ h)

namespace StoredEvent

variable {F : Formats} (e : StoredEvent)

theorem attributes_ascii : ∀ a ∈ e.attributes F, ∀ c ∈ a.1.toList, c.toNat < 256 := by
  intro a ha
  rw [attributes, extract_eq_assign] at ha
  have hmem := (mem_assign ha).resolve_left List.not_mem_nil
  rw [eventTable_names] at hmem
  exact names_ascii _ hmem

/-- A name of `extract` among the names and values of a row. -/
theorem lookup_pairs {name : String} (h : name ∈ names) :
    (e.pairs F).lookup (Communicator.text name)
      = ((eventTable F e.messageId e.message).lookup name).join := by
  have hascii := names_ascii name h
  have hheader : ∀ n ∈ ["control_id", "firmware", "mes_number"], ascii n = true ∧ n ∉ names := by
    decide +kernel
  have hne : ∀ n ∈ ["control_id", "firmware", "mes_number"],
      Communicator.text name ≠ Communicator.text n := by
    intro n hn heq
    obtain ⟨hn, hno⟩ := hheader n hn
    exact hno (text_injective hascii (lt_of_ascii hn) heq ▸ h)
  rw [pairs, lookup_cons_if, if_neg (hne _ (by simp)), lookup_cons_if,
    if_neg (hne _ (by simp)), lookup_cons_if, if_neg (hne _ (by simp)),
    lookup_map_text e.attributes_ascii hascii, lookup_attributes]

end StoredEvent

/-! ## Reading numbers back -/

def readUInt32 (s : Text) : UInt32 := UInt32.ofNat (readUnsigned s)

def readInt : Text → ℤ
  | 0x2D :: s => -readUnsigned s
  | s => readUnsigned s

def readInt32 (s : Text) : Int32 := Int32.ofInt (readInt s)

/-- A time as the device sent it. -/
def readTime (s : Text) : UInt32 :=
  UInt32.ofNat (readSeconds s - Calendar.daysBeforeYear 2009 * 86400)

@[simp]
theorem readUInt32_unsigned32Text (n : UInt32) : readUInt32 (unsigned32Text n) = n := by
  rw [readUInt32, unsigned32Text, readUnsigned_unsignedText, UInt32.ofNat_toNat]

theorem readInt_unsignedText (n : ℕ) : readInt (unsignedText n) = n := by
  have hne : ∀ s, unsignedText n ≠ 0x2D :: s := by
    intro s hs
    have hmem : (0x2D : UInt8) ∈ unsignedText n := hs ▸ List.mem_cons_self
    obtain ⟨c, hc, heq⟩ := List.mem_map.1 hmem
    have hdigit := Nat.isDigit_of_mem_toDigits (by decide) (by decide) hc
    have hchar := char_of_byte (digit_lt hdigit)
    rw [heq] at hchar
    rw [← hchar] at hdigit
    revert hdigit
    decide
  unfold readInt
  split
  · rename_i s hs
    exact absurd hs (hne s)
  · rw [readUnsigned_unsignedText]

theorem readInt_intText (n : ℤ) : readInt (intText n) = n := by
  unfold intText
  split
  · have hminus : text "-" = [0x2D] := rfl
    rw [hminus, List.singleton_append, readInt, readUnsigned_unsignedText]
    omega
  · rw [readInt_unsignedText]
    omega

@[simp]
theorem readInt32_int32Text (n : Int32) : readInt32 (int32Text n) = n := by
  rw [readInt32, int32Text, readInt_intText, Int32.ofInt_toInt]

@[simp]
theorem readTime_otimeToString (t : UInt32) : readTime (otimeToString t.toNat) = t := by
  obtain ⟨m, htext, hseconds⟩ := otimeToString_moment t.toNat
  have hread := readSeconds_momentText (year_lt hseconds t.toNat_lt)
  rw [readTime, htext, hread, hseconds, Nat.add_sub_cancel_left, UInt32.ofNat_toNat]

structure NavReport where
  lat : Text
  lon : Text
  gpsvel : Text
  gpsdir : UInt32
  gpsnsat : UInt32
  gpsalt : Text

/-- What a reader of the table gets to know of an event. -/
structure Report where
  controlId : UInt32
  firmware : UInt32
  mesNumber : ℤ
  messageId : UInt32
  general : RecRegGeneral
  aTotal : Option Text
  nav : Option NavReport
  unidt : RecRegUniDt
  llsdt : RecRegLlsDt

def StoredEvent.report (F : Formats) (e : StoredEvent) : Report where
  controlId := e.controlId
  firmware := e.firmware
  mesNumber := e.mesNumber
  messageId := e.messageId
  general :=
    { e.message.general.getD {} with
      uboard := (e.message.general.getD {}).uboard.map (· * 100)
      sumacc := none }
  aTotal := (e.message.general.getD {}).sumacc.map F.sumacc
  nav := e.message.nav.map fun nav => ⟨F.degrees nav.lat, F.degrees nav.lon,
    F.gpsvel nav.gpsvel, nav.gpsdir, nav.gpsnsat, F.gpsalt nav.gpsalt⟩
  unidt := e.message.unidt.getD {}
  llsdt := e.message.llsdt.getD {}

section Read

variable (value : String → Option Text)

def readGeneral : RecRegGeneral where
  time := (value "time").map readTime
  idfas := (value "controller_id").map readUInt32
  flg := (value "flags").map readUInt32
  mileage := (value "mileage").map readUInt32
  vimp := (value "speed_by_sensor").map readUInt32
  timp := (value "engine_speed").map readUInt32
  uboard := (value "power_main").map readUInt32
  batlife := (value "battery_level").map readUInt32
  phone := value "phone"
  amtrx := (value "a_x").map readInt32
  amtry := (value "a_y").map readInt32
  amtrz := (value "a_z").map readInt32

def readNav : Option NavReport := do
  let lat ← value "lat"
  let lon ← value "lon"
  let gpsvel ← value "speed_by_gps"
  let course ← value "course"
  let satellites ← value "satellites"
  let gpsalt ← value "altitude"
  return ⟨lat, lon, gpsvel, (readInt32 course).toUInt32, readUInt32 satellites, gpsalt⟩

def readUniDt : RecRegUniDt where
  unival0 := (value "univ0").map readInt32
  unival1 := (value "univ1").map readInt32
  unival2 := (value "univ2").map readInt32
  unival3 := (value "univ3").map readInt32

def readLls {φ : Type} (state : Text → φ) (clls temp flags : String) : Lls φ where
  clls := (value clls).map readUInt32
  tlls := (value temp).map readInt32
  flls := (value flags).map state

def readLlsDt : RecRegLlsDt where
  lls1 := readLls value readInt32 "lls1_value" "lls1_temp" "lls1_flags"
  lls2 := readLls value readInt32 "lls2_value" "lls2_temp" "lls2_flags"
  lls3 := readLls value readInt32 "lls3_value" "lls3_temp" "lls3_flags"
  lls4 := readLls value readInt32 "lls4_value" "lls4_temp" "lls4_flags"
  lls5 := readLls value readInt32 "lls5_value" "lls5_temp" "lls5_flags"
  lls6 := readLls value readUInt32 "lls6_value" "lls6_temp" "lls6_flags"

def readReport : Option Report := do
  let controlId ← value "control_id"
  let firmware ← value "firmware"
  let mesNumber ← value "mes_number"
  let messageId ← value "message_type"
  return {
    controlId := readUInt32 controlId
    firmware := readUInt32 firmware
    mesNumber := readInt mesNumber
    messageId := readUInt32 messageId
    general := readGeneral value
    aTotal := value "a_total"
    nav := readNav value
    unidt := readUniDt value
    llsdt := readLlsDt value }

end Read

def readRow (s : Text) : Option Report :=
  (splitStored s).bind fun as => readReport fun name => as.lookup (text name)

namespace StoredEvent

variable (F : Formats) (e : StoredEvent)

/-- The value of a name in a row. -/
def value (name : String) : Option Text := (e.pairs F).lookup (Communicator.text name)

theorem lookup_of_mem {t : Table} (ht : (t.map Prod.fst).Nodup) {a : String × Option Text}
    (h : a ∈ t) : t.lookup a.1 = some a.2 := by
  induction t with
  | nil => exact absurd h List.not_mem_nil
  | cons b t ih =>
    obtain ⟨hb, ht⟩ := List.nodup_cons.1 ht
    rw [lookup_cons_if]
    rcases List.mem_cons.1 h with rfl | h
    · exact if_pos rfl
    · rw [if_neg fun heq => hb (List.mem_map.2 ⟨a, h, heq⟩), ih ht h]

/-- A row has the values the event's table gives. -/
theorem value_of_mem {a : String × Option Text} (h : a ∈ eventTable F e.messageId e.message) :
    e.value F a.1 = a.2 := by
  have hname : a.1 ∈ names := by
    rw [← eventTable_names e.messageId e.message]
    exact List.mem_map_of_mem h
  have hnodup := names_nodup
  rw [← eventTable_names (F := F) e.messageId e.message] at hnodup
  rw [value, lookup_pairs e hname, lookup_of_mem hnodup h]
  rfl

/-- Group by group. -/
theorem value_groups : (∀ a ∈ generalTable F (e.message.general.getD {}), e.value F a.1 = a.2)
    ∧ (∀ a ∈ navTable F e.message.nav, e.value F a.1 = a.2)
    ∧ (∀ a ∈ uniDtTable (e.message.unidt.getD {}), e.value F a.1 = a.2)
    ∧ ∀ a ∈ llsDtTable (e.message.llsdt.getD {}), e.value F a.1 = a.2 := by
  have h : ∀ a ∈ eventTable F e.messageId e.message, e.value F a.1 = a.2 :=
    fun _ ha => value_of_mem F e ha
  rw [eventTable, List.forall_mem_cons, List.forall_mem_append, List.forall_mem_append,
    List.forall_mem_append] at h
  obtain ⟨-, ⟨⟨hgeneral, hnav⟩, hunidt⟩, hllsdt⟩ := h
  exact ⟨hgeneral, hnav, hunidt, hllsdt⟩

theorem readGeneral_value : readGeneral (e.value F) = (e.report F).general := by
  obtain ⟨h, -⟩ := value_groups F e
  simp only [generalTable, List.forall_mem_cons] at h
  simp [readGeneral, report, h, Function.comp_def]

theorem readNav_value : readNav (e.value F) = (e.report F).nav := by
  obtain ⟨-, h, -⟩ := value_groups F e
  simp only [navTable, List.forall_mem_cons] at h
  simp only [readNav, report, h]
  cases e.message.nav with
  | none => rfl
  | some nav => simp

theorem readUniDt_value : readUniDt (e.value F) = (e.report F).unidt := by
  obtain ⟨-, -, h, -⟩ := value_groups F e
  simp only [uniDtTable, List.forall_mem_cons] at h
  simp [readUniDt, report, h, Function.comp_def]

theorem readLls_value {φ : Type} {state : Text → φ} {print : φ → Text}
    (hread : ∀ v, state (print v) = v) {clls temp flags : String} {lls : Lls φ}
    (h : ∀ a ∈ llsTable clls temp flags print lls, e.value F a.1 = a.2) :
    readLls (e.value F) state clls temp flags = lls := by
  simp only [llsTable, List.forall_mem_cons] at h
  simp [readLls, h, hread, Function.comp_def]

theorem readLlsDt_value : readLlsDt (e.value F) = (e.report F).llsdt := by
  obtain ⟨-, -, -, h⟩ := value_groups F e
  simp only [llsDtTable, List.forall_mem_append] at h
  obtain ⟨⟨⟨⟨⟨h₁, h₂⟩, h₃⟩, h₄⟩, h₅⟩, h₆⟩ := h
  unfold readLlsDt report
  rw [readLls_value F e readInt32_int32Text h₁, readLls_value F e readInt32_int32Text h₂,
    readLls_value F e readInt32_int32Text h₃, readLls_value F e readInt32_int32Text h₄,
    readLls_value F e readInt32_int32Text h₅, readLls_value F e readUInt32_unsigned32Text h₆]

theorem readReport_value : readReport (e.value F) = some (e.report F) := by
  have hcontrol : e.value F "control_id" = some (unsigned32Text e.controlId) := rfl
  have hfirmware : e.value F "firmware" = some (unsigned32Text e.firmware) := rfl
  have hnumber : e.value F "mes_number" = some (intText e.mesNumber) := rfl
  have hid : e.value F "message_type" = some (unsigned32Text e.messageId) :=
    value_of_mem F e (a := ("message_type", _)) List.mem_cons_self
  have htotal : e.value F "a_total" = (e.message.general.getD {}).sumacc.map F.sumacc :=
    value_of_mem F e (a := ("a_total", Option.map _ _)) (by simp [eventTable, generalTable])
  simp only [readReport, hcontrol, hfirmware, hnumber, hid, htotal, readGeneral_value,
    readNav_value, readUniDt_value, readLlsDt_value]
  simp [report, readInt_intText]

variable {F}

/-- A row gives back what its event reported, if there is neither a quote nor a zero byte in the
phone number. -/
theorem readRow_text (hF : F.Plain) (hp : PlainPhone e.message) :
    readRow (e.text F) = some (e.report F) := by
  rw [readRow, (e.split_text_iff hF).2 hp]
  exact e.readReport_value F

theorem readRow_text_phone :
    readRow ((withPhone (Communicator.text "1") (some 1)).text zeros)
      = some ((withPhone (Communicator.text "1") (some 1)).report zeros) := by
  have hzero : PlainText (Communicator.text "0.00") := by decide
  refine readRow_text (withPhone _ _)
    ⟨fun _ => hzero, fun _ => hzero, fun _ => hzero, fun _ => hzero⟩ fun general phone hg hp => ?_
  obtain rfl := Option.some.inj hg
  obtain rfl := Option.some.inj hp
  decide

end StoredEvent

/-! ## From the wire to the report -/

section EndToEnd

open Lts

variable {E : Env} {m : TransportMessage} {x : InfoMessage}

/-- An event of a record that stands in a data frame. -/
def ReportedBy (E : Env) (m : TransportMessage) (e : StoredEvent) : Prop :=
  m.IsData ∧ ∃ blocks, m.imData = chainOf blocks ∧ ∃ block ∈ blocks,
    e.message = (E.parseFromArray block).2 ∧ e.messageId ∈ e.message.mid

/-- What is stored for a message of a frame is the text of an event of the frame. -/
theorem DecodedFrom.event (h : DecodedFrom E m x) : ∃ e : StoredEvent, ReportedBy E m e
    ∧ Database.row InfoMessage.text x = e.text E.formats
    ∧ e.controlId = x.controlId ∧ e.firmware = x.firmware ∧ e.mesNumber = x.mesNumber := by
  obtain ⟨hdata, -, texts, c, firmware, htexts, hx⟩ := h
  have hbody : x.body ∈ texts := by
    rw [← map_body_labelled c firmware (firstLabel m.lastMesNumber texts.length) texts]
    exact List.mem_map_of_mem hx
  by_cases hchain : ∃ blocks, m.imData = chainOf blocks
  · obtain ⟨blocks, hblocks⟩ := hchain
    rw [infoMessages_chainOf E hblocks] at htexts
    obtain rfl := Outcome.returned.inj htexts
    obtain ⟨block, hblock, hbody⟩ := List.mem_flatMap.1 hbody
    obtain ⟨id, hid, hbody⟩ := List.mem_map.1 hbody
    refine ⟨⟨x.controlId, x.firmware, x.mesNumber, id, (E.parseFromArray block).2⟩,
      ⟨hdata, blocks, hblocks, block, hblock, rfl, hid⟩, ?_, rfl, rfl, rfl⟩
    rw [StoredEvent.text, StoredEvent.attributes, hbody]
    rfl
  · rw [infoMessages_not_chain E hchain] at htexts
    cases htexts

variable {κ : Type} [DecidableEq κ]

/-- After every run of the two threads, whatever fails: each row of the table belongs to an event of
a record in a data frame with a right checksum that some connection was sent, and reading the row
gives back what that event reported, if its phone number is plain. -/
theorem rows_reported (E : Env) (hF : E.formats.Plain) (loaded : Counterer) (maxMessages : ℕ)
    (testConnection : Bool) (a₀ : Answers) (es : List (ThreadsEvent κ)) (s : Threads κ)
    (hs : run (Threads.step E)
      (.start loaded maxMessages (Oracle.create testConnection a₀).2) es = some s) :
    ∀ row ∈ s.system.database.oracle.table, ∃ k m e,
      TransportMessage.frame m <:+: (unstuffed k (ThreadsEvent.given es)).buffer
        ∧ ReportedBy E m e ∧ row = e.text E.formats
        ∧ (PlainPhone e.message → readRow row = some (e.report E.formats)) := by
  intro row hrow
  have hrow := (table_sublist_accepted E loaded maxMessages testConnection a₀ es s hs).subset hrow
  obtain ⟨x, hx, rfl⟩ := List.mem_map.1 hrow
  obtain ⟨k, m, hframe, hdecoded⟩ := accepted_traced E loaded maxMessages es s _ hs x hx
  obtain ⟨e, hreported, htext, -⟩ := hdecoded.event
  refine ⟨k, m, e, hframe, hreported, htext, fun hp => ?_⟩
  rw [htext]
  exact e.readRow_text hF hp

/-- The run of one record, whose event has neither groups nor numbers but its own. -/
theorem rows_reported_one : ∃ s, run (Threads.step eventOnly)
      (.start (fun _ => none) 4096 (Oracle.create true {}).2) oneRecord = some s
    ∧ s.system.database.oracle.table.length = 1
    ∧ ∀ row ∈ s.system.database.oracle.table, ∃ k m e,
      TransportMessage.frame m <:+: (unstuffed k (ThreadsEvent.given oneRecord)).buffer
        ∧ ReportedBy eventOnly m e ∧ row = e.text eventOnly.formats
        ∧ (PlainPhone e.message → readRow row = some (e.report eventOnly.formats)) := by
  have hF : eventOnly.formats.Plain := by
    have hnil : PlainText [] := by decide
    exact ⟨fun _ => hnil, fun _ => hnil, fun _ => hnil, fun _ => hnil⟩
  have h : (run (Threads.step eventOnly) (.start (fun _ => none) 4096 (Oracle.create true {}).2)
      oneRecord).map (fun s => s.system.database.oracle.table.length) = some 1 := by
    decide +kernel
  obtain ⟨s, hs, hlen⟩ := Option.map_eq_some_iff.1 h
  exact ⟨s, hs, hlen, rows_reported eventOnly hF (fun _ => none) 4096 true {} oneRecord s hs⟩

end EndToEnd

end Communicator
