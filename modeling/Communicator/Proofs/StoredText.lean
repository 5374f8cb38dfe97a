import Communicator.Oracle
import Communicator.Lib.Quoted
import Mathlib.Data.List.TakeWhile

/-!
# What the stored text says

Names and values are written without a look at the values. Names are literals, and all values are
printed numbers and times but one: the phone number is a string of bytes from the device. A quote
in it ends the value early, a zero byte ends the whole text, and otherwise the text splits back.
-/

namespace Communicator

/-- Neither a quote nor a zero byte. -/
def PlainText (t : Text) : Prop := 0x22 ∉ t ∧ 0 ∉ t

def PlainName (name : String) : Prop := 0x3D ∉ text name ∧ 0 ∉ text name ∧ name ≠ "phone"

instance (t : Text) : Decidable (PlainText t) := inferInstanceAs (Decidable (_ ∧ _))

instance (name : String) : Decidable (PlainName name) := inferInstanceAs (Decidable (_ ∧ _))

/-- The stream prints the scaled values without quotes and zero bytes. -/
structure Formats.Plain (F : Formats) : Prop where
  sumacc : ∀ n, PlainText (F.sumacc n)
  degrees : ∀ n, PlainText (F.degrees n)
  gpsvel : ∀ n, PlainText (F.gpsvel n)
  gpsalt : ∀ n, PlainText (F.gpsalt n)

theorem PlainText.append {s t : Text} (hs : PlainText s) (ht : PlainText t) :
    PlainText (s ++ t) :=
  ⟨List.not_mem_append hs.1 ht.1, List.not_mem_append hs.2 ht.2⟩

theorem digit_ne {c : Char} (h : c.isDigit = true) :
    UInt8.ofNat c.toNat ≠ 0x22 ∧ UInt8.ofNat c.toNat ≠ 0 := by
  have hc : 48 ≤ c.toNat ∧ c.toNat ≤ 57 := by
    simp only [Char.isDigit, ge_iff_le, Bool.and_eq_true, decide_eq_true_eq] at h
    exact h
  have hmod : (UInt8.ofNat c.toNat).toNat = c.toNat := by
    rw [UInt8.toNat_ofNat']
    omega
  constructor <;> intro he <;> rw [he] at hmod <;> simp at hmod <;> omega

theorem plainText_unsigned (n : ℕ) : PlainText (unsignedText n) := by
  have hdigit : ∀ c ∈ Nat.toDigits 10 n, c.isDigit = true :=
    fun c hc => Nat.isDigit_of_mem_toDigits (by decide) (by decide) hc
  constructor <;> intro h <;> obtain ⟨c, hc, he⟩ := List.mem_map.1 h
  · exact (digit_ne (hdigit c hc)).1 he
  · exact (digit_ne (hdigit c hc)).2 he

theorem plainText_int (n : ℤ) : PlainText (intText n) := by
  unfold intText
  split
  · exact PlainText.append (by decide) (plainText_unsigned _)
  · exact plainText_unsigned _

theorem plainText_padded (w n : ℕ) : PlainText (paddedText w n) := by
  refine PlainText.append ⟨fun h => ?_, fun h => ?_⟩ (plainText_unsigned n)
  · exact absurd (List.eq_of_mem_replicate h) (by decide)
  · exact absurd (List.eq_of_mem_replicate h) (by decide)

theorem PlainText.padded {s sep : Text} (hs : PlainText s) (hsep : PlainText sep) (w n : ℕ) :
    PlainText (s ++ sep ++ paddedText w n) :=
  (hs.append hsep).append (plainText_padded w n)

theorem plainText_time (t : ℕ) : PlainText (otimeToString t) := by
  have hdot : PlainText (text ".") := by decide
  have hblank : PlainText (text " ") := by decide
  have hcolon : PlainText (text ":") := by decide
  unfold otimeToString
  refine PlainText.padded ?_ hcolon _ _
  refine PlainText.padded ?_ hcolon _ _
  refine PlainText.padded ?_ hblank _ _
  refine PlainText.padded ?_ hdot _ _
  refine PlainText.padded ?_ hdot _ _
  exact plainText_padded _ _

/-- A property of the attributes that no assignment of a plain value to another name than `phone`
takes away. -/
def Closed (C : Attributes → Prop) : Prop :=
  ∀ data name value, PlainName name → PlainText value → C data → C (data.set name value)

section Extract

variable {C : Attributes → Prop} {F : Formats} {data : Attributes}

theorem Closed.set (h : Closed C) (hd : C data) {name : String} {value : Text}
    (hv : PlainText value) (hn : PlainName name := by decide) : C (data.set name value) :=
  h data name value hn hv hd

theorem Closed.setIf (h : Closed C) (hd : C data) {β : Type*} {name : String} {f : β → Text}
    (hf : ∀ v, PlainText (f v)) (o : Option β) (hn : PlainName name := by decide) :
    C (data.setIf name f o) := by
  cases o with
  | none => exact hd
  | some v => exact h data name (f v) hn (hf v) hd

theorem Closed.flags (h : Closed C) (hd : C data) (flags : UInt32) :
    C (extractFlags flags data) := by
  have hflag : ∀ i, PlainText (flagText i flags) := fun i => plainText_unsigned _
  unfold extractFlags
  refine h.set ?_ (plainText_unsigned _)
  refine h.set ?_ (hflag 7)
  refine h.set ?_ (hflag 6)
  refine h.set ?_ (hflag 5)
  refine h.set ?_ (hflag 4)
  refine h.set ?_ (hflag 3)
  refine h.set ?_ (hflag 2)
  refine h.set ?_ (hflag 1)
  exact h.set hd (hflag 0)

theorem Closed.nav (h : Closed C) (hF : F.Plain) (hd : C data) (message : RecRegNav) :
    C (extractNav F message data) := by
  unfold extractNav
  refine h.set ?_ (hF.gpsalt _)
  refine h.set ?_ (plainText_unsigned _)
  refine h.set ?_ (plainText_int _)
  refine h.set ?_ (hF.gpsvel _)
  refine h.set ?_ (hF.degrees _)
  exact h.set hd (hF.degrees _)

theorem Closed.uniDt (h : Closed C) (hd : C data) (message : RecRegUniDt) :
    C (extractUniDt message data) := by
  have hint : ∀ n, PlainText (int32Text n) := fun n => plainText_int _
  unfold extractUniDt
  refine h.setIf ?_ hint _
  refine h.setIf ?_ hint _
  refine h.setIf ?_ hint _
  exact h.setIf hd hint _

theorem Closed.lls (h : Closed C) (hd : C data) {φ : Type} {value temp flags : String}
    {state : φ → Text} (hstate : ∀ n, PlainText (state n)) (lls : Lls φ)
    (hv : PlainName value := by decide) (ht : PlainName temp := by decide)
    (hf : PlainName flags := by decide) : C (extractLls value temp flags state lls data) := by
  unfold extractLls
  refine h.setIf ?_ hstate _ hf
  refine h.setIf ?_ (fun _ => plainText_int _) _ ht
  exact h.setIf hd (fun _ => plainText_unsigned _) _ hv

theorem Closed.llsDt (h : Closed C) (hd : C data) (message : RecRegLlsDt) :
    C (extractLlsDt message data) := by
  have hint : ∀ n, PlainText (int32Text n) := fun n => plainText_int _
  have huns : ∀ n, PlainText (unsigned32Text n) := fun n => plainText_unsigned _
  unfold extractLlsDt
  refine h.lls ?_ huns _
  refine h.lls ?_ hint _
  refine h.lls ?_ hint _
  refine h.lls ?_ hint _
  refine h.lls ?_ hint _
  exact h.lls hd hint _

theorem Closed.general (h : Closed C) (hF : F.Plain) (message : RecRegGeneral)
    (hphone : ∀ data, C data → C (data.setIf "phone" (fun v : Text => v) message.phone))
    (hd : C data) : C (extractGeneral F message data) := by
  have hint : ∀ n, PlainText (int32Text n) := fun n => plainText_int _
  have huns : ∀ n, PlainText (unsigned32Text n) := fun n => plainText_unsigned _
  unfold extractGeneral
  refine h.setIf ?_ hint _
  refine h.setIf ?_ hint _
  refine h.setIf ?_ hint _
  refine hphone _ ?_
  refine h.setIf ?_ hF.sumacc _
  refine h.setIf ?_ huns _
  refine h.setIf ?_ (fun _ => huns _) _
  refine h.setIf ?_ huns _
  refine h.setIf ?_ huns _
  refine h.setIf ?_ huns _
  have hid : C ((data.setIf "time" (fun t : UInt32 => otimeToString t.toNat) message.time).setIf
      "controller_id" unsigned32Text message.idfas) :=
    h.setIf (h.setIf hd (fun _ => plainText_time _) _) huns _
  cases message.flg with
  | none => exact hid
  | some flags => exact h.flags hid flags

/-- The attributes of a group, if the message has it. -/
def group {β : Type} (f : β → Attributes → Attributes) (o : Option β) (data : Attributes) :
    Attributes := o.elim data fun message => f message data

theorem extract_eq (messageId : UInt32) (message : RecReg) : extract F messageId message data =
    group extractLlsDt message.llsdt (group extractUniDt message.unidt
      (group (extractNav F) message.nav (group (extractGeneral F) message.general
        (data.set "message_type" (unsigned32Text messageId))))) := by
  unfold extract
  cases message.general <;> cases message.nav <;> cases message.unidt <;>
    cases message.llsdt <;> rfl

theorem group_closed {β : Type} {f : β → Attributes → Attributes} {o : Option β} (hd : C data)
    (hf : ∀ message data, o = some message → C data → C (f message data)) :
    C (group f o data) := by
  cases o with
  | none => exact hd
  | some message => exact hf message data rfl hd

/-- The groups behind the first assign nothing to `phone`. -/
theorem Closed.groups (h : Closed C) (hF : F.Plain) (message : RecReg) (hd : C data) :
    C (group extractLlsDt message.llsdt (group extractUniDt message.unidt
      (group (extractNav F) message.nav data))) := by
  have hnav := group_closed hd fun nav _ (_ : message.nav = some nav) hd => h.nav hF hd nav
  have huni := group_closed hnav fun uni _ (_ : message.unidt = some uni) hd => h.uniDt hd uni
  exact group_closed huni fun lls _ _ hd => h.llsDt hd lls

end Extract

/-! ## What becomes of the attributes -/

section Members

variable {F : Formats} {data : Attributes} {name : String} {value : Text} {a : String × Text}

theorem mem_set : ∀ {data : Attributes}, a ∈ data.set name value → a = (name, value) ∨ a ∈ data
  | [], h => .inl (List.mem_singleton.1 h)
  | b :: data, h => by
    unfold Attributes.set at h
    split at h
    · exact List.mem_cons.1 h
    · split at h
      · rename_i heq
        rw [← heq] at h
        exact (List.mem_cons.1 h).imp_right (List.mem_cons_of_mem _)
      · rcases List.mem_cons.1 h with rfl | h
        · exact .inr List.mem_cons_self
        · exact (mem_set h).imp_right (List.mem_cons_of_mem _)

theorem mem_set_self : ∀ {data : Attributes}, (name, value) ∈ data.set name value
  | [] => List.mem_singleton_self _
  | b :: data => by
    unfold Attributes.set
    split
    · exact List.mem_cons_self
    · split
      · rename_i heq
        rw [← heq]
        exact List.mem_cons_self
      · exact List.mem_cons_of_mem _ mem_set_self

theorem mem_set_of_ne (hne : a.1 ≠ name) : ∀ {data : Attributes}, a ∈ data →
    a ∈ data.set name value
  | b :: data, h => by
    unfold Attributes.set
    split
    · exact List.mem_cons_of_mem _ h
    · split
      · rename_i heq
        rcases List.mem_cons.1 h with rfl | h
        · exact absurd heq.symm hne
        · exact List.mem_cons_of_mem _ h
      · rcases List.mem_cons.1 h with rfl | h
        · exact List.mem_cons_self
        · exact List.mem_cons_of_mem _ (mem_set_of_ne hne h)

/-- Attributes whose text splits back. -/
def Readable (data : Attributes) : Prop :=
  ∀ a ∈ data, (0x3D ∉ text a.1 ∧ 0 ∉ text a.1) ∧ PlainText a.2

theorem readable_set (hd : Readable data) (hn : 0x3D ∉ text name ∧ 0 ∉ text name)
    (hv : PlainText value) : Readable (data.set name value) := by
  intro a ha
  rcases mem_set ha with rfl | ha
  · exact ⟨hn, hv⟩
  · exact hd a ha

theorem closed_readable : Closed Readable :=
  fun _ _ _ hn hv hd => readable_set hd ⟨hn.1, hn.2.1⟩ hv

theorem closed_phone (phone : Text) : Closed (("phone", phone) ∈ ·) :=
  fun _ _ _ hn _ hd => mem_set_of_ne (Ne.symm hn.2.2) hd

/-- The phone number, if there is one, has neither a quote nor a zero byte in it. -/
def PlainPhone (message : RecReg) : Prop :=
  ∀ general phone, message.general = some general → general.phone = some phone → PlainText phone

theorem readable_extract (hF : F.Plain) (messageId : UInt32) {message : RecReg}
    (hp : PlainPhone message) : Readable (extract F messageId message []) := by
  rw [extract_eq]
  refine closed_readable.groups hF message (group_closed ?_ fun general data hg hd => ?_)
  · exact closed_readable.set (fun a ha => by cases ha) (plainText_unsigned _)
  · refine closed_readable.general hF general (fun data hd => ?_) hd
    cases hphone : general.phone with
    | none => exact hd
    | some phone => exact readable_set hd (by decide) (hp general phone hg hphone)

theorem extract_ne_nil (hF : F.Plain) (messageId : UInt32) (message : RecReg) :
    extract F messageId message [] ≠ [] := by
  have hset : ∀ (data : Attributes) name value, data.set name value ≠ [] :=
    fun _ _ _ => List.ne_nil_of_mem mem_set_self
  have hclosed : Closed (· ≠ []) := fun data name value _ _ _ => hset data name value
  rw [extract_eq]
  refine hclosed.groups hF message ?_
  refine group_closed (C := (· ≠ [])) (hset _ _ _) fun general data _ hd => ?_
  refine hclosed.general hF general (fun data hd => ?_) hd
  cases general.phone with
  | none => exact hd
  | some phone => exact hset data _ _

theorem phone_mem_extract (hF : F.Plain) (messageId : UInt32) {message : RecReg}
    {general : RecRegGeneral} {phone : Text} (hg : message.general = some general)
    (hp : general.phone = some phone) : ("phone", phone) ∈ extract F messageId message [] := by
  have hint : ∀ n, PlainText (int32Text n) := fun n => plainText_int _
  have hgeneral : ∀ data, ("phone", phone) ∈ extractGeneral F general data := by
    intro data
    unfold extractGeneral
    refine (closed_phone phone).setIf ?_ hint _
    refine (closed_phone phone).setIf ?_ hint _
    refine (closed_phone phone).setIf ?_ hint _
    rw [hp]
    exact mem_set_self
  rw [extract_eq, hg]
  exact (closed_phone phone).groups hF message (hgeneral _)

end Members

def marks : Quoted.Marks UInt8 := ⟨0x3D, 0x22, 0x20⟩

/-- An event as it is stored, before it is text. -/
structure StoredEvent where
  controlId : UInt32
  firmware : UInt32
  mesNumber : ℤ
  messageId : UInt32
  message : RecReg

namespace StoredEvent

variable (F : Formats) (e : StoredEvent)

def attributes : Attributes := extract F e.messageId e.message []

def text : Text :=
  storedText (InfoMessage.text ⟨e.controlId, e.firmware, e.mesNumber, (e.attributes F).output⟩)

/-- The names and values the text is built from. -/
def pairs : List (Text × Text) :=
  (Communicator.text "control_id", unsigned32Text e.controlId)
    :: (Communicator.text "firmware", unsigned32Text e.firmware)
    :: (Communicator.text "mes_number", intText e.mesNumber)
    :: (e.attributes F).map fun a => (Communicator.text a.1, a.2)

end StoredEvent

def wrap (msg : Text) : Text := text "<Message " ++ msg ++ text "/>"

/-- The names and values of a stored text. -/
def splitStored (s : Text) : Option (List (Text × Text)) :=
  if s = wrap ((s.drop 9).take (s.length - 11)) then
    Quoted.split marks ((s.drop 9).take (s.length - 11))
  else none

theorem splitStored_eq_some_iff {s : Text} {as : List (Text × Text)} :
    splitStored s = some as ↔ s = wrap (Quoted.render marks as) ∧ as ≠ []
      ∧ ∀ a ∈ as, Quoted.Clean marks a := by
  have hmiddle : ∀ msg, ((wrap msg).drop 9).take ((wrap msg).length - 11) = msg := by
    intro msg
    have hfront : (text "<Message ").length = 9 := rfl
    have hback : (text "/>").length = 2 := rfl
    have hlen : (wrap msg).length - 11 = msg.length := by
      simp only [wrap, List.length_append, hfront, hback]
      omega
    rw [hlen, wrap, List.append_assoc, List.drop_left' hfront, List.take_left]
  unfold splitStored
  constructor
  · intro h
    split at h
    · rename_i hs
      obtain ⟨hr, hne, hc⟩ := Quoted.split_eq_some_iff.1 h
      exact ⟨hr ▸ hs, hne, hc⟩
    · cases h
  · rintro ⟨rfl, hne, hc⟩
    rw [hmiddle, if_pos rfl]
    exact Quoted.split_eq_some_iff.2 ⟨rfl, hne, hc⟩

theorem text_open : text "=\"" = [0x3D, 0x22] := rfl

theorem text_quote : text "\"" = [0x22] := rfl

theorem text_blank : text " " = [0x20] := rfl

theorem output_eq_render : ∀ data : Attributes,
    data.output = Quoted.render marks (data.map fun a => (text a.1, a.2))
  | [] => rfl
  | [(n, v)] => by
    simp [Attributes.output, Quoted.render, Quoted.pair, marks, text_open, text_quote]
  | (n, v) :: b :: data => by
    have ih := output_eq_render (b :: data)
    rw [Attributes.output]
    · rw [ih, text_open, text_quote, text_blank]
      simp [Quoted.render, Quoted.pair, marks]
    · exact List.cons_ne_nil b data

namespace StoredEvent

variable {F : Formats} (e : StoredEvent)

theorem text_eq (hF : F.Plain) :
    e.text F = cString (wrap (Quoted.render marks (e.pairs F))) := by
  have hne : (e.attributes F).map (fun a => (Communicator.text a.1, a.2)) ≠ [] := fun h =>
    extract_ne_nil hF e.messageId e.message (List.map_eq_nil_iff.1 h)
  have h₁ : Communicator.text "control_id=\""
      = Communicator.text "control_id" ++ [0x3D, 0x22] := rfl
  have h₂ : Communicator.text "\" firmware=\""
      = [0x22, 0x20] ++ Communicator.text "firmware" ++ [0x3D, 0x22] := rfl
  have h₃ : Communicator.text "\" mes_number=\""
      = [0x22, 0x20] ++ Communicator.text "mes_number" ++ [0x3D, 0x22] := rfl
  have h₄ : Communicator.text "\" " = [0x22, 0x20] := rfl
  rw [StoredEvent.text, storedText, ← wrap, InfoMessage.text, output_eq_render, h₁, h₂, h₃, h₄,
    pairs, Quoted.render_cons (List.cons_ne_nil _ _), Quoted.render_cons (List.cons_ne_nil _ _),
    Quoted.render_cons hne]
  simp [Quoted.pair, marks]

theorem readable_pairs (hF : F.Plain) (hp : PlainPhone e.message) :
    ∀ a ∈ e.pairs F, (0x3D ∉ a.1 ∧ 0 ∉ a.1) ∧ PlainText a.2 := by
  have hnames : ∀ n ∈ ["control_id", "firmware", "mes_number"],
      0x3D ∉ Communicator.text n ∧ 0 ∉ Communicator.text n := by decide
  refine List.forall_mem_cons.2 ⟨⟨hnames _ (by simp), plainText_unsigned _⟩, ?_⟩
  refine List.forall_mem_cons.2 ⟨⟨hnames _ (by simp), plainText_unsigned _⟩, ?_⟩
  refine List.forall_mem_cons.2 ⟨⟨hnames _ (by simp), plainText_int _⟩, fun a ha => ?_⟩
  obtain ⟨b, hb, rfl⟩ := List.mem_map.1 ha
  exact readable_extract hF e.messageId hp b hb

theorem phone_mem_pairs (hF : F.Plain) {general : RecRegGeneral} {phone : Text}
    (hg : e.message.general = some general) (hp : general.phone = some phone) :
    (Communicator.text "phone", phone) ∈ e.pairs F := by
  refine List.mem_cons_of_mem _ (List.mem_cons_of_mem _ (List.mem_cons_of_mem _ ?_))
  exact List.mem_map.2 ⟨_, phone_mem_extract hF e.messageId hg hp, rfl⟩

theorem zero_not_mem_cString (s : Text) : 0 ∉ cString s := fun h => by
  simpa using List.mem_takeWhile_imp h

theorem text_of_plain (hF : F.Plain) (hp : PlainPhone e.message) :
    e.text F = wrap (Quoted.render marks (e.pairs F)) := by
  have hzero : ∀ x ∈ wrap (Quoted.render marks (e.pairs F)), x ≠ 0 := by
    rintro x hx rfl
    rcases List.mem_append.1 hx with hx | hx
    · rcases List.mem_append.1 hx with hx | hx
      · revert hx
        decide
      · rcases Quoted.of_mem_render hx with hx | ⟨a, ha, hx⟩
        · revert hx
          decide
        · obtain ⟨hn, hv⟩ := e.readable_pairs hF hp a ha
          exact hx.elim hn.2 hv.2
    · revert hx
      decide
  rw [e.text_eq hF, cString]
  exact List.takeWhile_eq_self_iff.2 fun x hx => by simpa using hzero x hx

theorem split_text_iff (hF : F.Plain) :
    splitStored (e.text F) = some (e.pairs F) ↔ PlainPhone e.message := by
  constructor
  · intro h general phone hg hphone
    obtain ⟨hs, -, hc⟩ := splitStored_eq_some_iff.1 h
    have hmem := e.phone_mem_pairs hF hg hphone
    refine ⟨(hc _ hmem).2, fun h0 => ?_⟩
    have hwrap : 0 ∈ e.text F := by
      rw [hs]
      exact List.mem_append_left _ (List.mem_append_right _ (Quoted.mem_render hmem h0))
    rw [e.text_eq hF] at hwrap
    exact zero_not_mem_cString _ hwrap
  · intro hp
    refine splitStored_eq_some_iff.2 ⟨e.text_of_plain hF hp, List.cons_ne_nil _ _, fun a ha => ?_⟩
    obtain ⟨hn, hv⟩ := e.readable_pairs hF hp a ha
    exact ⟨hn.1, hv.1⟩

/-- A stored text splits into the names and values it was built from exactly if there is neither
a quote nor a zero byte in the phone number; and then no other such event has its text. -/
theorem stored_iff (hF : F.Plain) (e : StoredEvent) :
    (splitStored (e.text F) = some (e.pairs F) ↔ PlainPhone e.message)
      ∧ ∀ e' : StoredEvent, PlainPhone e.message → PlainPhone e'.message →
        e.text F = e'.text F → e.pairs F = e'.pairs F := by
  refine ⟨e.split_text_iff hF, fun e' hp hp' heq => ?_⟩
  have h := (e.split_text_iff hF).2 hp
  rw [heq, (e'.split_text_iff hF).2 hp'] at h
  exact (Option.some.inj h).symm

/-- For events without a scaled value. -/
def zeros : Formats :=
  ⟨fun _ => Communicator.text "0.00", fun _ => Communicator.text "0.00",
    fun _ => Communicator.text "0.00", fun _ => Communicator.text "0.00"⟩

def withPhone (phone : Text) (uboard : Option UInt32) : StoredEvent :=
  ⟨7, 1, 5, 1, { general := some { phone := some phone, uboard } }⟩

theorem stored_one_phone :
    splitStored ((withPhone (Communicator.text "1") (some 1)).text zeros)
      = some ((withPhone (Communicator.text "1") (some 1)).pairs zeros) := by
  have hzero : PlainText (Communicator.text "0.00") := by decide
  have hF : zeros.Plain := ⟨fun _ => hzero, fun _ => hzero, fun _ => hzero, fun _ => hzero⟩
  refine (stored_iff hF (withPhone _ _)).1.2 fun general phone hg hp => ?_
  obtain rfl := Option.some.inj hg
  obtain rfl := Option.some.inj hp
  decide

/-- A phone number that says what the voltage is: its text is that of another event. -/
theorem phone_forges :
    (withPhone (Communicator.text "1\" power_main=\"100") none).text zeros
        = (withPhone (Communicator.text "1") (some 1)).text zeros
      ∧ (withPhone (Communicator.text "1\" power_main=\"100") none).pairs zeros
        ≠ (withPhone (Communicator.text "1") (some 1)).pairs zeros
      ∧ splitStored ((withPhone (Communicator.text "1\" power_main=\"100") none).text zeros)
        ≠ some ((withPhone (Communicator.text "1\" power_main=\"100") none).pairs zeros) := by
  decide +kernel

end StoredEvent

end Communicator
