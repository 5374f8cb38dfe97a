import Communicator.Protobuf
import Communicator.InfoPackage

/-!
# The generated message classes

The eight classes of `omnicomm/message.pb.cc`: their members, the tables of their fields, and what
the server sees of a message they parsed. The numbers in a table are the source's: the field, the
size of its tag in `ByteSize`, and the tags its case expects next.
-/

namespace Communicator.Protobuf

open Tagged

/-! ## Members -/

structure RecRegGeneral (φ : Type) where
  time : Option UInt32 := none
  idfas : Option UInt32 := none
  iddrv : Option Text := none
  flg : Option UInt32 := none
  mileage : Option UInt32 := none
  vimp : Option UInt32 := none
  timp : Option UInt32 := none
  uboard : Option UInt32 := none
  batlife : Option UInt32 := none
  sumacc : Option Int32 := none
  phone : Option Text := none
  amtrx : Option Int32 := none
  amtry : Option Int32 := none
  amtrz : Option Int32 := none
  unknown : List φ := []

structure RecRegPhoto (φ : Type) where
  posblk : Option UInt32 := none
  szphoto : Option UInt32 := none
  size : Option UInt32 := none
  buf : Option Text := none
  idph : Option UInt32 := none
  imgstat : Option UInt32 := none
  unknown : List φ := []

structure RecRegNav (φ : Type) where
  lat : Option Int32 := none
  lon : Option Int32 := none
  gpsvel : Option UInt32 := none
  gpsdir : Option UInt32 := none
  gpsnsat : Option UInt32 := none
  gpsalt : Option Int32 := none
  unknown : List φ := []

structure RecRegUniDt (φ : Type) where
  unival0 : Option Int32 := none
  unival1 : Option Int32 := none
  unival2 : Option Int32 := none
  unival3 : Option Int32 := none
  unknown : List φ := []

structure RecRegCanDt (φ : Type) where
  spn70 : Option UInt32 := none
  spn91 : Option UInt32 := none
  spn100 : Option UInt32 := none
  spn110 : Option UInt32 := none
  spn174 : Option UInt32 := none
  spn175 : Option UInt32 := none
  spn182 : Option UInt32 := none
  spn184 : Option UInt32 := none
  spn190 : Option UInt32 := none
  spn244 : Option UInt32 := none
  spn245 : Option UInt32 := none
  spn247 : Option UInt32 := none
  spn250 : Option UInt32 := none
  spn521 : Option UInt32 := none
  spn522 : Option UInt32 := none
  spn527 : Option UInt32 := none
  spn582 : List UInt32 := []
  spn597 : Option UInt32 := none
  spn598 : Option UInt32 := none
  spn914 : Option UInt32 := none
  spn916 : Option UInt32 := none
  spn928 : List UInt32 := []
  spn1624 : Option UInt32 := none
  spn1821 : Option UInt32 := none
  spn1856 : Option UInt32 := none
  unknown : List φ := []

structure RecRegLlsDt (φ : Type) where
  tlls1 : Option Int32 := none
  clls1 : Option UInt32 := none
  flls1 : Option Int32 := none
  tlls2 : Option Int32 := none
  clls2 : Option UInt32 := none
  flls2 : Option Int32 := none
  tlls3 : Option Int32 := none
  clls3 : Option UInt32 := none
  flls3 : Option Int32 := none
  tlls4 : Option Int32 := none
  clls4 : Option UInt32 := none
  flls4 : Option Int32 := none
  tlls5 : Option Int32 := none
  clls5 : Option UInt32 := none
  flls5 : Option Int32 := none
  tlls6 : Option Int32 := none
  clls6 : Option UInt32 := none
  flls6 : Option UInt32 := none
  unknown : List φ := []

structure RecRegLog (φ : Type) where
  debug : List Text := []
  unknown : List φ := []

structure RecReg (φ : Type) where
  mid : List UInt32 := []
  general : Option (RecRegGeneral φ) := none
  photo : Option (RecRegPhoto φ) := none
  nav : Option (RecRegNav φ) := none
  unidt : Option (RecRegUniDt φ) := none
  candt : Option (RecRegCanDt φ) := none
  llsdt : Option (RecRegLlsDt φ) := none
  log : Option (RecRegLog φ) := none
  unknown : List φ := []

/-! ## Tables -/

section Layouts

variable {φ : Type} (W : Wire φ)

def RecRegGeneral.unknownFields : Lens (RecRegGeneral φ) (List φ) :=
  ⟨(·.unknown), fun us m => { m with unknown := us }, fun _ => rfl, fun _ _ => rfl,
    fun _ _ _ => rfl⟩

def RecRegGeneral.layout : Layout φ (RecRegGeneral φ) :=
  .ofTable W {} unknownFields
    [ ⟨1, 1, [.expect 16 2], .uint32 (access (·.time) fun v m => { m with time := v })⟩,
      ⟨2, 1, [.expect 26 3], .uint32 (access (·.idfas) fun v m => { m with idfas := v })⟩,
      ⟨3, 1, [.expect 32 4], .bytes (access (·.iddrv) fun v m => { m with iddrv := v })⟩,
      ⟨4, 1, [.expect 40 5], .uint32 (access (·.flg) fun v m => { m with flg := v })⟩,
      ⟨5, 1, [.expect 48 6], .uint32 (access (·.mileage) fun v m => { m with mileage := v })⟩,
      ⟨6, 1, [.expect 56 7], .uint32 (access (·.vimp) fun v m => { m with vimp := v })⟩,
      ⟨7, 1, [.expect 64 8], .uint32 (access (·.timp) fun v m => { m with timp := v })⟩,
      ⟨8, 1, [.expect 72 9], .uint32 (access (·.uboard) fun v m => { m with uboard := v })⟩,
      ⟨9, 1, [.expect 80 10], .uint32 (access (·.batlife) fun v m => { m with batlife := v })⟩,
      ⟨10, 1, [.expect 90 11], .sint32 (access (·.sumacc) fun v m => { m with sumacc := v })⟩,
      ⟨11, 1, [.expect 96 12], .bytes (access (·.phone) fun v m => { m with phone := v })⟩,
      ⟨12, 1, [.expect 104 13], .sint32 (access (·.amtrx) fun v m => { m with amtrx := v })⟩,
      ⟨13, 1, [.expect 112 14], .sint32 (access (·.amtry) fun v m => { m with amtry := v })⟩,
      ⟨14, 1, [.atEnd], .sint32 (access (·.amtrz) fun v m => { m with amtrz := v })⟩ ]

def RecRegPhoto.unknownFields : Lens (RecRegPhoto φ) (List φ) :=
  ⟨(·.unknown), fun us m => { m with unknown := us }, fun _ => rfl, fun _ _ => rfl,
    fun _ _ _ => rfl⟩

def RecRegPhoto.layout : Layout φ (RecRegPhoto φ) :=
  .ofTable W {} unknownFields
    [ ⟨1, 1, [.expect 16 2], .uint32 (access (·.posblk) fun v m => { m with posblk := v })⟩,
      ⟨2, 1, [.expect 24 3], .uint32 (access (·.szphoto) fun v m => { m with szphoto := v })⟩,
      ⟨3, 1, [.expect 34 4], .uint32 (access (·.size) fun v m => { m with size := v })⟩,
      ⟨4, 1, [.expect 40 5], .bytes (access (·.buf) fun v m => { m with buf := v })⟩,
      ⟨5, 1, [.expect 48 6], .uint32 (access (·.idph) fun v m => { m with idph := v })⟩,
      ⟨6, 1, [.atEnd], .uint32 (access (·.imgstat) fun v m => { m with imgstat := v })⟩ ]

def RecRegNav.unknownFields : Lens (RecRegNav φ) (List φ) :=
  ⟨(·.unknown), fun us m => { m with unknown := us }, fun _ => rfl, fun _ _ => rfl,
    fun _ _ _ => rfl⟩

def RecRegNav.layout : Layout φ (RecRegNav φ) :=
  .ofTable W {} unknownFields
    [ ⟨1, 1, [.expect 16 2], .sint32 (access (·.lat) fun v m => { m with lat := v })⟩,
      ⟨2, 1, [.expect 24 3], .sint32 (access (·.lon) fun v m => { m with lon := v })⟩,
      ⟨3, 1, [.expect 32 4], .uint32 (access (·.gpsvel) fun v m => { m with gpsvel := v })⟩,
      ⟨4, 1, [.expect 40 5], .uint32 (access (·.gpsdir) fun v m => { m with gpsdir := v })⟩,
      ⟨5, 1, [.expect 48 6], .uint32 (access (·.gpsnsat) fun v m => { m with gpsnsat := v })⟩,
      ⟨6, 1, [.atEnd], .sint32 (access (·.gpsalt) fun v m => { m with gpsalt := v })⟩ ]

def RecRegUniDt.unknownFields : Lens (RecRegUniDt φ) (List φ) :=
  ⟨(·.unknown), fun us m => { m with unknown := us }, fun _ => rfl, fun _ _ => rfl,
    fun _ _ _ => rfl⟩

def RecRegUniDt.layout : Layout φ (RecRegUniDt φ) :=
  .ofTable W {} unknownFields
    [ ⟨1, 1, [.expect 16 2], .sint32 (access (·.unival0) fun v m => { m with unival0 := v })⟩,
      ⟨2, 1, [.expect 24 3], .sint32 (access (·.unival1) fun v m => { m with unival1 := v })⟩,
      ⟨3, 1, [.expect 32 4], .sint32 (access (·.unival2) fun v m => { m with unival2 := v })⟩,
      ⟨4, 1, [.atEnd], .sint32 (access (·.unival3) fun v m => { m with unival3 := v })⟩ ]

def RecRegCanDt.unknownFields : Lens (RecRegCanDt φ) (List φ) :=
  ⟨(·.unknown), fun us m => { m with unknown := us }, fun _ => rfl, fun _ _ => rfl,
    fun _ _ _ => rfl⟩

def RecRegCanDt.layout : Layout φ (RecRegCanDt φ) :=
  .ofTable W {} unknownFields
    [ ⟨70, 2, [.expect 728 91], .uint32 (access (·.spn70) fun v m => { m with spn70 := v })⟩,
      ⟨91, 2, [.expect 800 100], .uint32 (access (·.spn91) fun v m => { m with spn91 := v })⟩,
      ⟨100, 2, [.expect 880 110], .uint32 (access (·.spn100) fun v m => { m with spn100 := v })⟩,
      ⟨110, 2, [.expect 1392 174], .uint32 (access (·.spn110) fun v m => { m with spn110 := v })⟩,
      ⟨174, 2, [.expect 1400 175], .uint32 (access (·.spn174) fun v m => { m with spn174 := v })⟩,
      ⟨175, 2, [.expect 1456 182], .uint32 (access (·.spn175) fun v m => { m with spn175 := v })⟩,
      ⟨182, 2, [.expect 1472 184], .uint32 (access (·.spn182) fun v m => { m with spn182 := v })⟩,
      ⟨184, 2, [.expect 1520 190], .uint32 (access (·.spn184) fun v m => { m with spn184 := v })⟩,
      ⟨190, 2, [.expect 1952 244], .uint32 (access (·.spn190) fun v m => { m with spn190 := v })⟩,
      ⟨244, 2, [.expect 1960 245], .uint32 (access (·.spn244) fun v m => { m with spn244 := v })⟩,
      ⟨245, 2, [.expect 1976 247], .uint32 (access (·.spn245) fun v m => { m with spn245 := v })⟩,
      ⟨247, 2, [.expect 2000 250], .uint32 (access (·.spn247) fun v m => { m with spn247 := v })⟩,
      ⟨250, 2, [.expect 4168 521], .uint32 (access (·.spn250) fun v m => { m with spn250 := v })⟩,
      ⟨521, 2, [.expect 4176 522], .uint32 (access (·.spn521) fun v m => { m with spn521 := v })⟩,
      ⟨522, 2, [.expect 4216 527], .uint32 (access (·.spn522) fun v m => { m with spn522 := v })⟩,
      ⟨527, 2, [.expect 4658 582], .uint32 (access (·.spn527) fun v m => { m with spn527 := v })⟩,
      ⟨582, 2, [.expect 4776 597], .packed (access (·.spn582) fun v m => { m with spn582 := v })⟩,
      ⟨597, 2, [.expect 4784 598], .uint32 (access (·.spn597) fun v m => { m with spn597 := v })⟩,
      ⟨598, 2, [.expect 7312 914], .uint32 (access (·.spn598) fun v m => { m with spn598 := v })⟩,
      ⟨914, 2, [.expect 7328 916], .uint32 (access (·.spn914) fun v m => { m with spn914 := v })⟩,
      ⟨916, 2, [.expect 7426 928], .uint32 (access (·.spn916) fun v m => { m with spn916 := v })⟩,
      ⟨928, 2, [.expect 12992 1624], .packed (access (·.spn928) fun v m => { m with spn928 := v })⟩,
      ⟨1624, 2, [.expect 14568 1821], .uint32
        (access (·.spn1624) fun v m => { m with spn1624 := v })⟩,
      ⟨1821, 2, [.expect 14848 1856], .uint32
        (access (·.spn1821) fun v m => { m with spn1821 := v })⟩,
      ⟨1856, 2, [.atEnd], .uint32 (access (·.spn1856) fun v m => { m with spn1856 := v })⟩ ]

def RecRegLlsDt.unknownFields : Lens (RecRegLlsDt φ) (List φ) :=
  ⟨(·.unknown), fun us m => { m with unknown := us }, fun _ => rfl, fun _ _ => rfl,
    fun _ _ _ => rfl⟩

def RecRegLlsDt.layout : Layout φ (RecRegLlsDt φ) :=
  .ofTable W {} unknownFields
    [ ⟨1, 1, [.expect 16 2], .sint32 (access (·.tlls1) fun v m => { m with tlls1 := v })⟩,
      ⟨2, 1, [.expect 24 3], .uint32 (access (·.clls1) fun v m => { m with clls1 := v })⟩,
      ⟨3, 1, [.expect 32 4], .sint32 (access (·.flls1) fun v m => { m with flls1 := v })⟩,
      ⟨4, 1, [.expect 40 5], .sint32 (access (·.tlls2) fun v m => { m with tlls2 := v })⟩,
      ⟨5, 1, [.expect 48 6], .uint32 (access (·.clls2) fun v m => { m with clls2 := v })⟩,
      ⟨6, 1, [.expect 56 7], .sint32 (access (·.flls2) fun v m => { m with flls2 := v })⟩,
      ⟨7, 1, [.expect 64 8], .sint32 (access (·.tlls3) fun v m => { m with tlls3 := v })⟩,
      ⟨8, 1, [.expect 72 9], .uint32 (access (·.clls3) fun v m => { m with clls3 := v })⟩,
      ⟨9, 1, [.expect 80 10], .sint32 (access (·.flls3) fun v m => { m with flls3 := v })⟩,
      ⟨10, 1, [.expect 88 11], .sint32 (access (·.tlls4) fun v m => { m with tlls4 := v })⟩,
      ⟨11, 1, [.expect 96 12], .uint32 (access (·.clls4) fun v m => { m with clls4 := v })⟩,
      ⟨12, 1, [.expect 104 13], .sint32 (access (·.flls4) fun v m => { m with flls4 := v })⟩,
      ⟨13, 1, [.expect 112 14], .sint32 (access (·.tlls5) fun v m => { m with tlls5 := v })⟩,
      ⟨14, 1, [.expect 120 15], .uint32 (access (·.clls5) fun v m => { m with clls5 := v })⟩,
      ⟨15, 1, [.expect 128 16], .sint32 (access (·.flls5) fun v m => { m with flls5 := v })⟩,
      ⟨16, 2, [.expect 136 17], .sint32 (access (·.tlls6) fun v m => { m with tlls6 := v })⟩,
      ⟨17, 2, [.expect 144 18], .uint32 (access (·.clls6) fun v m => { m with clls6 := v })⟩,
      ⟨18, 2, [.atEnd], .uint32 (access (·.flls6) fun v m => { m with flls6 := v })⟩ ]

def RecRegLog.unknownFields : Lens (RecRegLog φ) (List φ) :=
  ⟨(·.unknown), fun us m => { m with unknown := us }, fun _ => rfl, fun _ _ => rfl,
    fun _ _ _ => rfl⟩

def RecRegLog.layout : Layout φ (RecRegLog φ) :=
  .ofTable W {} unknownFields
    [ ⟨1, 1, [.expect 10 1, .atEnd], .strings (access (·.debug) fun v m => { m with debug := v })⟩ ]

def RecReg.unknownFields : Lens (RecReg φ) (List φ) :=
  ⟨(·.unknown), fun us m => { m with unknown := us }, fun _ => rfl, fun _ _ => rfl,
    fun _ _ _ => rfl⟩

def RecReg.fields : List (Field (RecReg.unknownFields (φ := φ))) :=
  [ field W ⟨1, 1, [.expect 19 2], .packed (access (·.mid) fun v m => { m with mid := v })⟩,
    groupField W 2 2 [.expect 35 4] (access (·.general) fun v m => { m with general := v })
      (RecRegGeneral.layout W),
    groupField W 4 2 [.expect 43 5] (access (·.photo) fun v m => { m with photo := v })
      (RecRegPhoto.layout W),
    groupField W 5 2 [.expect 51 6] (access (·.nav) fun v m => { m with nav := v })
      (RecRegNav.layout W),
    groupField W 6 2 [.expect 59 7] (access (·.unidt) fun v m => { m with unidt := v })
      (RecRegUniDt.layout W),
    groupField W 7 2 [.expect 67 8] (access (·.candt) fun v m => { m with candt := v })
      (RecRegCanDt.layout W),
    groupField W 8 2 [.expect 131 16] (access (·.llsdt) fun v m => { m with llsdt := v })
      (RecRegLlsDt.layout W),
    groupField W 16 4 [.atEnd] (access (·.log) fun v m => { m with log := v })
      (RecRegLog.layout W) ]

def RecReg.layout : Layout φ (RecReg φ) := ⟨{}, unknownFields, RecReg.fields W⟩

end Layouts

/-! ## Reading a whole message -/

variable {φ : Type}

/-- `(_has_bits_[0] & 0x3f) == 0x3f`: the six required fields are there. -/
def RecRegNav.isInitialized (nav : RecRegNav φ) : Bool :=
  nav.lat.isSome && nav.lon.isSome && nav.gpsvel.isSome && nav.gpsdir.isSome
    && nav.gpsnsat.isSome && nav.gpsalt.isSome

def RecReg.isInitialized (m : RecReg φ) : Bool :=
  match m.nav with
  | none => true
  | some nav => nav.isInitialized

/-- What `ParseFromArray` makes of the loop: it has to end with the array, and all required fields
have to be there. -/
def RecReg.parsed : RecReg φ × Stop ℕ UInt8 → Bool × RecReg φ
  | (m, .atEnd) => (m.isInitialized, m)
  | (m, _) => (false, m)

/-- `ParseFromArray` on a message in any state, which is cleared first. -/
def RecReg.parseFromArray (W : Wire φ) (s : List UInt8) : Bool × RecReg φ :=
  RecReg.parsed ((RecReg.layout W).mergePartialFromCodedStream W 0 {} s)

/-! ## What the server reads -/

def RecRegGeneral.view (m : RecRegGeneral φ) : Communicator.RecRegGeneral where
  time := m.time
  idfas := m.idfas
  flg := m.flg
  mileage := m.mileage
  vimp := m.vimp
  timp := m.timp
  uboard := m.uboard
  batlife := m.batlife
  sumacc := m.sumacc
  phone := m.phone
  amtrx := m.amtrx
  amtry := m.amtry
  amtrz := m.amtrz

/-- A required field that is not there reads as its default. -/
def RecRegNav.view (m : RecRegNav φ) : Communicator.RecRegNav where
  lat := m.lat.getD 0
  lon := m.lon.getD 0
  gpsvel := m.gpsvel.getD 0
  gpsdir := m.gpsdir.getD 0
  gpsnsat := m.gpsnsat.getD 0
  gpsalt := m.gpsalt.getD 0

def RecRegUniDt.view (m : RecRegUniDt φ) : Communicator.RecRegUniDt where
  unival0 := m.unival0
  unival1 := m.unival1
  unival2 := m.unival2
  unival3 := m.unival3

def RecRegLlsDt.view (m : RecRegLlsDt φ) : Communicator.RecRegLlsDt where
  lls1 := ⟨m.clls1, m.tlls1, m.flls1⟩
  lls2 := ⟨m.clls2, m.tlls2, m.flls2⟩
  lls3 := ⟨m.clls3, m.tlls3, m.flls3⟩
  lls4 := ⟨m.clls4, m.tlls4, m.flls4⟩
  lls5 := ⟨m.clls5, m.tlls5, m.flls5⟩
  lls6 := ⟨m.clls6, m.tlls6, m.flls6⟩

def RecReg.view (m : RecReg φ) : Communicator.RecReg where
  mid := m.mid
  general := m.general.map (·.view)
  nav := m.nav.map (·.view)
  unidt := m.unidt.map (·.view)
  llsdt := m.llsdt.map (·.view)

/-- The server with the generated parser in place. -/
def env (W : Wire φ) (formats : Formats) : Env where
  parseFromArray s := ((RecReg.parseFromArray W s).1, (RecReg.parseFromArray W s).2.view)
  formats := formats

end Communicator.Protobuf
