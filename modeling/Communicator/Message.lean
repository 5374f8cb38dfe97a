import Mathlib.Algebra.Ring.Nat
import Mathlib.Data.Int.Notation
import Mathlib.Data.List.Basic

/-!
# Information messages

The protobuf message `RecReg` as far as the server reads it, and how `extract` and the output
operator for maps of `omnicomm/info_package.cpp` turn one of its events into text. Text is a
string of bytes, as `std::string` is: the phone number goes into it as the device sent it.
-/

namespace Communicator

abbrev Text := List UInt8

def text (s : String) : Text := s.toList.map fun c => UInt8.ofNat c.toNat

/-- `str << n` for an unsigned `n`. -/
def unsignedText (n : ℕ) : Text := (Nat.toDigits 10 n).map fun c => UInt8.ofNat c.toNat

/-- `str << n` for a signed `n`. -/
def intText (n : ℤ) : Text := if n < 0 then text "-" ++ unsignedText n.natAbs
  else unsignedText n.natAbs

/-- `str << setw(w) << n` with the fill character `0`. -/
def paddedText (w n : ℕ) : Text :=
  List.replicate (w - (unsignedText n).length) 0x30 ++ unsignedText n

/-! ## The message -/

structure RecRegGeneral where
  time : Option UInt32 := none
  idfas : Option UInt32 := none
  flg : Option UInt32 := none
  mileage : Option UInt32 := none
  vimp : Option UInt32 := none
  timp : Option UInt32 := none
  uboard : Option UInt32 := none
  batlife : Option UInt32 := none
  sumacc : Option Int32 := none
  phone : Option Text := none
  amtrx : Option Int32 := none
  amtry : Option Int32 := none
  amtrz : Option Int32 := none

structure RecRegNav where
  lat : Int32
  lon : Int32
  gpsvel : UInt32
  gpsdir : UInt32
  gpsnsat : UInt32
  gpsalt : Int32

structure RecRegUniDt where
  unival0 : Option Int32 := none
  unival1 : Option Int32 := none
  unival2 : Option Int32 := none
  unival3 : Option Int32 := none

/-- The three values of one fuel sensor; the state codes of the sixth are unsigned. -/
structure Lls (φ : Type) where
  clls : Option UInt32 := none
  tlls : Option Int32 := none
  flls : Option φ := none

structure RecRegLlsDt where
  lls1 : Lls Int32 := {}
  lls2 : Lls Int32 := {}
  lls3 : Lls Int32 := {}
  lls4 : Lls Int32 := {}
  lls5 : Lls Int32 := {}
  lls6 : Lls UInt32 := {}

/-- The groups `extract` reads; it takes nothing from `CanDt`, `LOG` and `Photo`. -/
structure RecReg where
  mid : List UInt32 := []
  general : Option RecRegGeneral := none
  nav : Option RecRegNav := none
  unidt : Option RecRegUniDt := none
  llsdt : Option RecRegLlsDt := none

/-- How the stream prints the scaled floating-point values, each with `fixed` and a precision. -/
structure Formats where
  sumacc : Int32 → Text
  degrees : Int32 → Text
  gpsvel : UInt32 → Text
  gpsalt : Int32 → Text

/-! ## Time -/

def omnicommTimeBase : ℕ := 1230768000

/-- The fields of `struct tm` the server prints, the month and year as it prints them. -/
structure Tm where
  mday : ℕ
  mon : ℕ
  year : ℕ
  hour : ℕ
  min : ℕ
  sec : ℕ
  deriving DecidableEq

/-- `gmtime` for a time after 1970: the proleptic Gregorian calendar, with years counted from
March so that the leap day ends one. -/
def gmtime (unixTime : ℕ) : Tm :=
  let z := unixTime / 86400 + 719468
  let doe := z % 146097
  let yoe := (doe - doe / 1460 + doe / 36524 - doe / 146096) / 365
  let doy := doe - (365 * yoe + yoe / 4 - yoe / 100)
  let mp := (5 * doy + 2) / 153
  let mon := if mp < 10 then mp + 3 else mp - 9
  let s := unixTime % 86400
  { mday := doy - (153 * mp + 2) / 5 + 1
    mon := mon
    year := yoe + z / 146097 * 400 + if mon ≤ 2 then 1 else 0
    hour := s / 3600
    min := s / 60 % 60
    sec := s % 60 }

def otimeToString (omnicommTime : ℕ) : Text :=
  let t := gmtime (omnicommTime + omnicommTimeBase)
  paddedText 2 t.mday ++ text "." ++ paddedText 2 t.mon ++ text "." ++ paddedText 4 t.year
    ++ text " " ++ paddedText 2 t.hour ++ text ":" ++ paddedText 2 t.min ++ text ":"
    ++ paddedText 2 t.sec

example : gmtime omnicommTimeBase = ⟨1, 1, 2009, 0, 0, 0⟩ := by decide

/-! ## Attributes -/

/-- `std::map<string, string>`: the attributes in the order of their names. -/
abbrev Attributes := List (String × Text)

/-- `data[name] = value`. -/
def Attributes.set : Attributes → String → Text → Attributes
  | [], name, value => [(name, value)]
  | (n, v) :: rest, name, value =>
    if name < n then (name, value) :: (n, v) :: rest
    else if name = n then (n, value) :: rest
    else (n, v) :: Attributes.set rest name value

/-- `if (message.has_x()) { data[name] = ... }`. -/
def Attributes.setIf {β : Type*} (data : Attributes) (name : String) (f : β → Text) :
    Option β → Attributes
  | none => data
  | some v => data.set name (f v)

/-- `stream << data`: the attributes with their values in quotes, separated by blanks. -/
def Attributes.output : Attributes → Text
  | [] => []
  | [(n, v)] => text n ++ text "=\"" ++ v ++ text "\""
  | (n, v) :: rest => text n ++ text "=\"" ++ v ++ text "\"" ++ text " " ++ Attributes.output rest

/-! ## Extraction -/

section Extract

variable (F : Formats)

def unsigned32Text (n : UInt32) : Text := unsignedText n.toNat
def int32Text (n : Int32) : Text := intText n.toInt

def flagText (i : ℕ) (flags : UInt32) : Text := unsignedText (flags.toNat / 2 ^ i % 2)

def extractFlags (flags : UInt32) (data : Attributes) : Attributes :=
  (((((((((data.set "ignition" (flagText 0 flags)).set "gsm_status" (flagText 1 flags)).set
    "gps_status" (flagText 2 flags)).set "roaming" (flagText 3 flags)).set
    "power_status" (flagText 4 flags)).set "alarm" (flagText 5 flags)).set
    "open_case" (flagText 6 flags)).set "discrete_input" (flagText 7 flags)).set
    "flags" (unsigned32Text flags))

def extractGeneral (message : RecRegGeneral) (data : Attributes) : Attributes :=
  let data := data.setIf "time" (fun t : UInt32 => otimeToString t.toNat) message.time
  let data := data.setIf "controller_id" unsigned32Text message.idfas
  let data := match message.flg with
    | none => data
    | some flags => extractFlags flags data
  let data := data.setIf "mileage" unsigned32Text message.mileage
  let data := data.setIf "speed_by_sensor" unsigned32Text message.vimp
  let data := data.setIf "engine_speed" unsigned32Text message.timp
  let data := data.setIf "power_main" (fun v : UInt32 => unsigned32Text (v * 100)) message.uboard
  let data := data.setIf "battery_level" unsigned32Text message.batlife
  let data := data.setIf "a_total" F.sumacc message.sumacc
  let data := data.setIf "phone" (fun v : Text => v) message.phone
  let data := data.setIf "a_x" int32Text message.amtrx
  let data := data.setIf "a_y" int32Text message.amtry
  data.setIf "a_z" int32Text message.amtrz

def extractNav (message : RecRegNav) (data : Attributes) : Attributes :=
  (((((data.set "lat" (F.degrees message.lat)).set "lon" (F.degrees message.lon)).set
    "speed_by_gps" (F.gpsvel message.gpsvel)).set
    "course" (int32Text message.gpsdir.toInt32)).set
    "satellites" (unsigned32Text message.gpsnsat)).set "altitude" (F.gpsalt message.gpsalt)

def extractUniDt (message : RecRegUniDt) (data : Attributes) : Attributes :=
  (((data.setIf "univ0" int32Text message.unival0).setIf "univ1" int32Text message.unival1).setIf
    "univ2" int32Text message.unival2).setIf "univ3" int32Text message.unival3

/-- One sensor's attributes; the sensors differ in the names and in how a state is printed. -/
def extractLls {φ : Type} (value temp flags : String) (state : φ → Text) (lls : Lls φ)
    (data : Attributes) : Attributes :=
  ((data.setIf value unsigned32Text lls.clls).setIf temp int32Text lls.tlls).setIf
    flags state lls.flls

def extractLlsDt (message : RecRegLlsDt) (data : Attributes) : Attributes :=
  let data := extractLls "lls1_value" "lls1_temp" "lls1_flags" int32Text message.lls1 data
  let data := extractLls "lls2_value" "lls2_temp" "lls2_flags" int32Text message.lls2 data
  let data := extractLls "lls3_value" "lls3_temp" "lls3_flags" int32Text message.lls3 data
  let data := extractLls "lls4_value" "lls4_temp" "lls4_flags" int32Text message.lls4 data
  let data := extractLls "lls5_value" "lls5_temp" "lls5_flags" int32Text message.lls5 data
  extractLls "lls6_value" "lls6_temp" "lls6_flags" unsigned32Text message.lls6 data

def extract (messageId : UInt32) (message : RecReg) (data : Attributes) : Attributes :=
  let data := data.set "message_type" (unsigned32Text messageId)
  let data := match message.general with
    | none => data
    | some general => extractGeneral F general data
  let data := match message.nav with
    | none => data
    | some nav => extractNav F nav data
  let data := match message.unidt with
    | none => data
    | some unidt => extractUniDt unidt data
  match message.llsdt with
    | none => data
    | some llsdt => extractLlsDt llsdt data

def eventTexts (message : RecReg) : List Text :=
  message.mid.map fun id => (extract F id message []).output

@[simp]
theorem length_eventTexts (message : RecReg) :
    (eventTexts F message).length = message.mid.length := by
  simp [eventTexts]

end Extract

end Communicator
