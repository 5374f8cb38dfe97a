import Communicator.Protocol
import Communicator.Lib.Chain

/-!
# What a handler reads of a frame

A frame whose data holds the members a handler reads has one meaning, whatever follows it in the
buffer: its members are parts of the data, and its package splits into blocks as a chain does
(`parseInfoPackage_bytes`). Enqueuing a package appends the labelled messages up to the first that
does not fit (`enqueue_cases`).
-/

namespace Communicator

open TransportHeader

variable (E : Env)

theorem Member.read_bytes (m : TransportMessage) (t : List UInt8) {f : Member} (h4 : 4 ≤ f.offset)
    (h : f.offset + f.size ≤ 4 + m.data.length) :
    f.read (m.bytes ++ t) = some (le ((m.data.drop (f.offset - 4)).take f.size)) := by
  have hb : bytesAt (m.bytes ++ t) f.offset f.size
      = some ((m.data.drop (f.offset - 4)).take f.size) := by
    rw [bytesAt_eq_some]
    refine ⟨by simp; omega, ?_⟩
    rw [show f.offset = 4 + (f.offset - 4) by omega, ← List.drop_drop, drop_bytes,
      List.drop_append_of_le_length (by omega),
      List.take_append_of_le_length (by rw [List.length_drop]; omega)]
    simp
  rw [Member.read, hb, Option.map_some]

namespace TransportMessage

variable (m : TransportMessage)

def controllerId : UInt32 := UInt32.ofNat (le (m.data.take 4))

def firmwareVersion : UInt32 := UInt32.ofNat (le ((m.data.drop 4).take 4))

def lastMesNumber : UInt32 := UInt32.ofNat (le (m.data.take 4))

def imData : List UInt8 := m.data.drop 9

end TransportMessage

theorem checkLength_bytes (n : ℕ) (m : TransportMessage) (t : List UInt8) :
    checkLength n (m.bytes ++ t) = true ↔ n ≤ m.data.length + 6 := by
  simp only [checkLength, dataLen_bytes, TransportHeader.sizeof, Bool.not_eq_true',
    decide_eq_false_iff_not]
  omega

theorem getImLength_bytes (m : TransportMessage) (t : List UInt8) (h : 9 ≤ m.data.length) :
    DataResponse.getImLength (m.bytes ++ t) = m.data.length - 9 := by
  simp only [DataResponse.getImLength, getFullLength_bytes, DataResponse.sizeof, sizeSub]
  split_ifs <;> omega

def blockHeader : Chain.Header UInt8 where
  width := 2
  width_pos := by decide
  size := le
  bound := 65536
  write := toLe 2
  length_write := length_toLe 2
  size_write := by
    intro n h
    rw [le_toLe]
    exact Nat.mod_eq_of_lt h

def infoMessages (im : List UInt8) : Outcome (List Text) :=
  match Chain.split blockHeader im with
  | none => .threw .unexpectedEnd
  | some blocks => .returned (blocks.flatMap (blockMessages E))

theorem infoMessages_ne_undefined (im : List UInt8) : infoMessages E im ≠ .undefined := by
  unfold infoMessages
  cases Chain.split blockHeader im <;> simp

theorem split_block {im : List UInt8} {n : ℕ} (h : im ≠ []) (hn : n = le (im.take 2)) :
    Chain.split blockHeader im = if im.length < 2 + n then none else
      (Chain.split blockHeader (im.drop (2 + n))).map ((im.drop 2).take n :: ·) := by
  subst hn
  split_ifs with hl
  · exact Chain.split_of_short blockHeader h hl
  · exact Chain.split_of_le blockHeader h (Nat.not_lt.1 hl)

section Parse

variable (m : TransportMessage) {t : List UInt8}

theorem imData_length : m.imData.length = m.data.length - 9 := by
  simp [TransportMessage.imData]

theorem bytesAt_imData {i n : ℕ} (h : i + n ≤ m.imData.length) (h9 : 9 ≤ m.data.length) :
    bytesAt (m.bytes ++ t) (DataResponse.imData + i) n = some ((m.imData.drop i).take n) := by
  have hlen := imData_length m
  rw [bytesAt_eq_some]
  refine ⟨by simp [DataResponse.imData]; omega, ?_⟩
  rw [show DataResponse.imData + i = 4 + (9 + i) by simp [DataResponse.imData]; omega,
    ← List.drop_drop, drop_bytes, List.drop_append_of_le_length (by omega),
    List.take_append_of_le_length (by rw [List.length_drop]; omega), TransportMessage.imData,
    List.drop_drop]

/-- The loop splits what is left of the package. The second byte of a length may be the first of
the checksum, but then the block does not fit. -/
theorem parseLoop_eq (h9 : 9 ≤ m.data.length) (ht : t ≠ []) : ∀ (fuel i : ℕ)
    (messages : List Text), m.imData.length < fuel + i → i ≤ m.imData.length →
      parseLoop E (m.bytes ++ t) m.imData.length fuel i messages
        = match Chain.split blockHeader (m.imData.drop i) with
          | none => .threw .unexpectedEnd
          | some blocks => .returned (messages ++ blocks.flatMap (blockMessages E))
  | 0, i, messages, hf, hi => by omega
  | fuel + 1, i, messages, hf, hi => by
    have hlen := imData_length m
    have htl := List.length_pos_iff.2 ht
    rw [parseLoop]
    rcases Nat.lt_or_ge i m.imData.length with hlt | hge
    · have hne : m.imData.drop i ≠ [] := by simpa using hlt
      have hsp := split_block hne rfl
      rw [List.length_drop, List.drop_drop, List.drop_drop] at hsp
      rw [if_pos hlt]
      rcases Nat.lt_or_ge (i + 1) m.imData.length with hlt2 | hge2
      · simp only [Member.read, bytesAt_imData m (n := 2) hlt2 h9, Option.map_some]
        by_cases hfit : i + (le ((m.imData.drop i).take 2) + 2) ≤ m.imData.length
        · rw [if_neg (by omega), Nat.add_assoc, bytesAt_imData m (by omega) h9, hsp,
            if_neg (by omega)]
          simp only []
          rw [parseLoop_eq h9 ht fuel _ _ (by omega) hfit, Nat.add_comm (le _) 2]
          cases Chain.split blockHeader
            (m.imData.drop (i + (2 + le ((m.imData.drop i).take 2)))) <;> simp
        · rw [if_pos (by omega), hsp, if_pos (by omega)]
      · have hb : bytesAt (m.bytes ++ t) (DataResponse.imData + i) 2 ≠ none := by
          rw [Ne, bytesAt_eq_none]
          simp [DataResponse.imData]
          omega
        obtain ⟨b, hb⟩ := Option.ne_none_iff_exists'.1 hb
        simp only [Member.read, hb, Option.map_some]
        rw [if_pos (by omega), hsp, if_pos (by omega)]
    · rw [if_neg (by omega), List.drop_eq_nil_of_le hge, Chain.split_nil]
      simp

theorem parseInfoPackage_bytes (h9 : 9 ≤ m.data.length) (ht : t ≠ []) :
    parseInfoPackage E (m.bytes ++ t) = infoMessages E m.imData := by
  rw [parseInfoPackage, getImLength_bytes m t h9, ← imData_length,
    parseLoop_eq E m h9 ht _ 0 [] (by have := imData_length m; simp; omega) (Nat.zero_le _),
    List.drop_zero, infoMessages]
  cases Chain.split blockHeader m.imData <;> simp

end Parse

/-! ## Enqueuing -/

def labelled (controllerId firmware : UInt32) (first : ℤ) : List Text → List InfoMessage
  | [] => []
  | body :: rest =>
    ⟨controllerId, firmware, first, body⟩ :: labelled controllerId firmware (first + 1) rest

@[simp]
theorem length_labelled (c f : UInt32) : ∀ (first : ℤ) (texts : List Text),
    (labelled c f first texts).length = texts.length
  | _, [] => rfl
  | first, _ :: rest => by simp [labelled, length_labelled c f (first + 1) rest]

theorem map_body_labelled (c f : UInt32) : ∀ (first : ℤ) (texts : List Text),
    (labelled c f first texts).map (·.body) = texts
  | _, [] => rfl
  | first, body :: rest => by simp [labelled, map_body_labelled c f (first + 1) rest]

theorem map_mesNumber_labelled (c f : UInt32) : ∀ (first : ℤ) (texts : List Text),
    (labelled c f first texts).map (·.mesNumber)
      = (List.range texts.length).map fun i : ℕ => first + (i : ℤ)
  | _, [] => rfl
  | first, body :: rest => by
    simp only [labelled, List.map_cons, map_mesNumber_labelled c f (first + 1) rest,
      List.length_cons, List.range_succ_eq_map, List.map_map, Nat.cast_zero, Int.add_zero,
      List.cons.injEq, true_and]
    refine List.map_congr_left fun i _ => ?_
    simp only [Function.comp_apply, Nat.succ_eq_add_one]
    push_cast
    ring

theorem controlId_labelled (c f : UInt32) : ∀ (first : ℤ) (texts : List Text),
    ∀ m ∈ labelled c f first texts, m.controlId = c
  | _, [] => by simp [labelled]
  | first, body :: rest => List.forall_mem_cons.2 ⟨rfl, controlId_labelled c f (first + 1) rest⟩

theorem mem_labelled (c f : UInt32) : ∀ (first : ℤ) (texts : List Text) {t : Text}, t ∈ texts →
    ∃ x ∈ labelled c f first texts, x.controlId = c ∧ x.body = t
  | _, [], _, h => by simp at h
  | first, body :: rest, t, h => by
    rcases List.mem_cons.1 h with rfl | h
    · exact ⟨_, List.mem_cons_self, rfl, rfl⟩
    · obtain ⟨x, hx, hx'⟩ := mem_labelled c f (first + 1) rest h
      exact ⟨x, List.mem_cons_of_mem _ hx, hx'⟩

def World.push (w : World) (msgs : List InfoMessage) : World :=
  { w with backend := w.backend.append msgs }

@[simp]
theorem World.push_nil (w : World) : w.push [] = w := by
  simp [World.push]

theorem World.push_push (w : World) (xs ys : List InfoMessage) :
    (w.push xs).push ys = w.push (xs ++ ys) := by
  simp [World.push, BaseImpl.append_append]

/-- How the loop over a package ends: with all of it in the queue, at a full queue, or at a label
no `int` holds; in the last two cases what was before stays. -/
inductive Enqueuing (w : World) (first : ℤ) (texts : List Text) : Outcome Unit × World → Prop
  | all (room : texts ≠ [] → w.backend.messages.length + texts.length ≤ w.backend.maxMessages
      ∧ first + texts.length ≤ World.intMax + 1) :
    Enqueuing w first texts
      (.returned (), w.push (labelled w.controllerId w.firmwareVersion first texts))
  | full (k : ℕ) (lt : k < texts.length)
    (room : 0 < k → w.backend.messages.length + k ≤ w.backend.maxMessages)
    (full : w.backend.maxMessages ≤ w.backend.messages.length + k) :
    Enqueuing w first texts (.threw .capacityExceeded,
      w.push ((labelled w.controllerId w.firmwareVersion first texts).take k))
  | overflow (k : ℕ) (lt : k < texts.length)
    (room : 0 < k → w.backend.messages.length + k ≤ w.backend.maxMessages)
    (large : World.intMax < first + k) :
    Enqueuing w first texts (.undefined,
      w.push ((labelled w.controllerId w.firmwareVersion first texts).take k))

theorem Enqueuing.cons {w : World} {first : ℤ} {body : Text} {rest : List Text}
    {r : Outcome Unit × World} (hl : first ≤ World.intMax)
    (hroom : w.backend.messages.length < w.backend.maxMessages)
    (h : Enqueuing (w.push [⟨w.controllerId, w.firmwareVersion, first, body⟩]) (first + 1) rest r) :
    Enqueuing w first (body :: rest) r := by
  have hlen : (w.push [⟨w.controllerId, w.firmwareVersion, first, body⟩]).backend.messages.length
      = w.backend.messages.length + 1 := by
    simp [World.push]
  cases h with
  | all room =>
    rw [World.push_push]
    refine .all fun _ => ?_
    rw [List.length_cons]
    rcases rest with _ | ⟨y, rest⟩
    · simp
      omega
    · have := room (by simp)
      rw [hlen] at this
      simp only [World.push, BaseImpl.append_maxMessages] at this
      omega
  | full k lt room full =>
    rw [World.push_push]
    rw [hlen] at room full
    refine .full (k + 1) (Nat.succ_lt_succ lt) (fun _ => ?_) (by
      simp only [World.push, BaseImpl.append_maxMessages] at full
      omega)
    simp only [World.push, BaseImpl.append_maxMessages] at room
    omega
  | overflow k lt room large =>
    rw [World.push_push]
    rw [hlen] at room
    refine .overflow (k + 1) (Nat.succ_lt_succ lt) (fun _ => ?_) (by
      push_cast
      omega)
    simp only [World.push, BaseImpl.append_maxMessages] at room
    omega

theorem enqueue_cases : ∀ (texts : List Text) (w : World) (mesNumber : ℤ) (i : ℕ),
    Enqueuing w (mesNumber + i) texts (w.enqueue mesNumber i texts)
  | [], w, mesNumber, i => by
    have h : Enqueuing w (mesNumber + i) [] (.returned (), w.push []) := .all (by simp)
    rwa [World.push_nil] at h
  | body :: rest, w, mesNumber, i => by
    rw [World.enqueue, World.label]
    by_cases hl : mesNumber + i ≤ World.intMax
    swap
    · rw [if_neg hl]
      have h : Enqueuing w (mesNumber + i) (body :: rest) (.undefined, w.push []) :=
        .overflow 0 (by simp) (by simp) (by
          push_cast
          omega)
      rwa [World.push_nil] at h
    rw [if_pos hl]
    rcases Nat.lt_or_ge w.backend.messages.length w.backend.maxMessages with hroom | hfull
    · simp only [BaseImpl.addMessage_room hroom]
      refine .cons hl hroom ?_
      rw [show mesNumber + (i : ℤ) + 1 = mesNumber + ((i + 1 : ℕ) : ℤ) by push_cast; ring]
      exact enqueue_cases rest _ mesNumber (i + 1)
    · simp only [BaseImpl.addMessage_full hfull]
      have h : Enqueuing w (mesNumber + i) (body :: rest) (.threw .capacityExceeded, w.push []) :=
        .full 0 (by simp) (by simp) hfull
      rwa [World.push_nil] at h

/-! ## The data handlers -/

/-- What both data handlers do with a frame of enough data. -/
def accept (w : World) (m : TransportMessage) : Outcome Unit × World :=
  match infoMessages E m.imData with
  | .undefined => (.undefined, w)
  | .threw e => (.threw e, w)
  | .returned texts =>
    match w.enqueue (firstLabel m.lastMesNumber texts.length) 0 texts with
    | (.returned _, w') => (.returned (), w'.setLastCounter w'.controllerId m.lastMesNumber)
    | r => r

section Handlers

variable (w : World) {m : TransportMessage} {t : List UInt8}

theorem acceptData_bytes (h9 : 9 ≤ m.data.length) (ht : t ≠ []) :
    acceptData E w (m.bytes ++ t) = accept E w m := by
  have hlast := Member.read_bytes m t (f := DataResponse.lastMesNumber) (by decide)
    (by simp [DataResponse.lastMesNumber]; omega)
  simp only [acceptData, processInfoMessages, parseInfoPackage_bytes E m h9 ht, accept, hlast]
  cases infoMessages E m.imData with
  | undefined => rfl
  | threw e => rfl
  | returned texts => rfl

theorem processArchiveData_bytes (h9 : 9 ≤ m.data.length) (ht : t ≠ []) :
    processArchiveData E w (m.bytes ++ t) = accept E w m := by
  have hc : checkLength DataResponse.sizeof (m.bytes ++ t) = true :=
    (checkLength_bytes _ m t).2 (by simp [DataResponse.sizeof]; omega)
  rw [processArchiveData, dataLen_bytes, if_neg (by omega), acceptData_bytes E w h9 ht, hc,
    Bool.not_true, if_neg Bool.false_ne_true]

theorem processArchiveData_empty (h0 : m.data.length = 0) :
    processArchiveData E w (m.bytes ++ t)
      = (.returned (), w.sendDelete.setProtocolState .waitFinalDeleteConfirm) := by
  rw [processArchiveData, dataLen_bytes, if_pos h0]

theorem processCurrentData_bytes (h9 : 9 ≤ m.data.length) (ht : t ≠ []) :
    processCurrentData E w (m.bytes ++ t)
      = match accept E w m with
        | (.returned _, w') =>
          (.returned (), w'.sendDelete.setProtocolState .waitFinalDeleteConfirm)
        | r => r := by
  have hc : checkLength DataResponse.sizeof (m.bytes ++ t) = true :=
    (checkLength_bytes _ m t).2 (by simp [DataResponse.sizeof]; omega)
  rewrite [processCurrentData, acceptData_bytes E w h9 ht, hc, Bool.not_true,
    if_neg Bool.false_ne_true]
  rfl

/-- The start of a session: the identification is answered by a request, or by a deletion where
messages of the controller were accepted before. -/
def World.start (w : World) : World :=
  if w.getLastCounter w.controllerId = 0 then w.sendRequest.setProtocolState .processArchive
  else w.sendDelete.setProtocolState .waitInitialDeleteConfirm

theorem World.start_shared (w : World) : w.start.toShared = w.toShared := by
  unfold World.start
  split
  · rfl
  · rw [World.sendDelete_eq]
    rfl

theorem World.start_controllerId (w : World) : w.start.controllerId = w.controllerId := by
  unfold World.start
  split
  · rfl
  · rw [World.sendDelete_eq]
    rfl

theorem processControllerIdent_bytes (h8 : 8 ≤ m.data.length) :
    processControllerIdent w (m.bytes ++ t)
      = (.returned (), (w.identify m.controllerId m.firmwareVersion).start) := by
  have hid := Member.read_bytes m t (f := ControllerIdent.controllerId) (by decide)
    (by simp [ControllerIdent.controllerId]; omega)
  have hfw := Member.read_bytes m t (f := ControllerIdent.firmwareVersion) (by decide)
    (by simp [ControllerIdent.firmwareVersion]; omega)
  have hc : checkLength ControllerIdent.sizeof (m.bytes ++ t) = true :=
    (checkLength_bytes _ m t).2 (by simp [ControllerIdent.sizeof]; omega)
  rw [processControllerIdent, hc, hid, hfw, Bool.not_true, if_neg Bool.false_ne_true, World.start,
    apply_ite (Prod.mk (Outcome.returned ()))]
  rfl

/-! Frames the handlers refuse. -/

theorem not_checkLength {n : ℕ} (h : m.data.length + 6 < n) :
    checkLength n (m.bytes ++ t) = false := by
  rw [← Bool.not_eq_true, checkLength_bytes]
  omega

theorem processArchiveData_short (h0 : m.data.length ≠ 0) (h7 : m.data.length < 7) :
    processArchiveData E w (m.bytes ++ t) = (.threw .wrongMessageSize, w) := by
  rw [processArchiveData, dataLen_bytes, if_neg h0,
    not_checkLength (n := DataResponse.sizeof) (by simp [DataResponse.sizeof]; omega)]
  rfl

theorem processCurrentData_short (h7 : m.data.length < 7) :
    processCurrentData E w (m.bytes ++ t) = (.threw .wrongMessageSize, w) := by
  rw [processCurrentData,
    not_checkLength (n := DataResponse.sizeof) (by simp [DataResponse.sizeof]; omega)]
  rfl

theorem processControllerIdent_short (h6 : m.data.length < 6) :
    processControllerIdent w (m.bytes ++ t) = (.threw .wrongMessageSize, w) := by
  rw [processControllerIdent,
    not_checkLength (n := ControllerIdent.sizeof) (by simp [ControllerIdent.sizeof]; omega)]
  rfl

end Handlers

section ProcessMessage

variable (w : World) {m : TransportMessage} {t : List UInt8}

def stopOnThrow : Outcome Unit × World → Outcome Unit × World
  | (.threw e, w) => (.threw e, w.stop)
  | r => r

theorem processMessage_eq (hdr : List UInt8) :
    processMessage E w hdr = stopOnThrow (dispatch E w hdr) := rfl

theorem processMessage_ident (hc : m.cmd = TmCode.cControllerIdent) :
    processMessage E w (m.bytes ++ t) = stopOnThrow (processControllerIdent w (m.bytes ++ t)) := by
  rw [processMessage_eq, dispatch, cmd_bytes, if_pos hc]

theorem processMessage_current (hc : m.cmd = TmCode.cCurrentData) :
    processMessage E w (m.bytes ++ t) = stopOnThrow (processCurrentData E w (m.bytes ++ t)) := by
  rw [processMessage_eq, dispatch, cmd_bytes, hc, if_neg (by decide), if_pos rfl]

theorem processMessage_archive (hc : m.cmd = TmCode.cArchiveData) :
    processMessage E w (m.bytes ++ t) = stopOnThrow (processArchiveData E w (m.bytes ++ t)) := by
  rw [processMessage_eq, dispatch, cmd_bytes, hc, if_neg (by decide), if_neg (by decide),
    if_pos rfl]

theorem processMessage_confirm (hc : m.cmd = TmCode.cDeleteConfirm) :
    processMessage E w (m.bytes ++ t) = stopOnThrow (processDeleteConfirmation w) := by
  rw [processMessage_eq, dispatch, cmd_bytes, hc, if_neg (by decide), if_neg (by decide),
    if_neg (by decide), if_pos rfl]

theorem processMessage_other (h1 : m.cmd ≠ TmCode.cControllerIdent)
    (h2 : m.cmd ≠ TmCode.cCurrentData) (h3 : m.cmd ≠ TmCode.cArchiveData) :
    processMessage E w (m.bytes ++ t)
      = if m.cmd = TmCode.cDeleteConfirm then stopOnThrow (processDeleteConfirmation w)
        else (.returned (), w) := by
  rw [processMessage_eq, dispatch, cmd_bytes, if_neg h1, if_neg h2, if_neg h3,
    apply_ite stopOnThrow]
  rfl

/-- What a data handler does after a frame is accepted: that of current data deletes. -/
def World.settle (w : World) (cmd : UInt8) : World :=
  if cmd = TmCode.cCurrentData then w.sendDelete.setProtocolState .waitFinalDeleteConfirm else w

theorem World.settle_shared (w : World) (cmd : UInt8) : (w.settle cmd).toShared = w.toShared := by
  unfold World.settle
  split
  · rw [World.sendDelete_eq]
    rfl
  · rfl

theorem World.settle_controllerId (w : World) (cmd : UInt8) :
    (w.settle cmd).controllerId = w.controllerId := by
  unfold World.settle
  split
  · rw [World.sendDelete_eq]
    rfl
  · rfl

def TransportMessage.IsData (m : TransportMessage) : Prop :=
  m.cmd = TmCode.cCurrentData ∨ m.cmd = TmCode.cArchiveData

theorem processMessage_data (hm : m.IsData) (h9 : 9 ≤ m.data.length) (ht : t ≠ []) :
    processMessage E w (m.bytes ++ t)
      = match accept E w m with
        | (.returned _, w') => (.returned (), w'.settle m.cmd)
        | (.threw e, w') => (.threw e, w'.stop)
        | (.undefined, w') => (.undefined, w') := by
  rcases hm with hc | hc
  · rw [processMessage_current E w hc, processCurrentData_bytes E w h9 ht]
    rcases accept E w m with ⟨_ | _ | _, w'⟩
    · simp [stopOnThrow, World.settle, hc]
    · rfl
    · rfl
  · rw [processMessage_archive E w hc, processArchiveData_bytes E w h9 ht]
    rcases accept E w m with ⟨_ | _ | _, w'⟩
    · simp [stopOnThrow, World.settle, hc, TmCode.cArchiveData, TmCode.cCurrentData]
    · rfl
    · rfl

end ProcessMessage

/-- A parser that knows messages of one event below 128 and no groups. -/
def eventOnly : Env where
  parseFromArray
    | [] => (true, {})
    | [0x0A, 0x01, event] => (true, { mid := [event.toUInt32] })
    | _ => (false, {})
  formats := ⟨fun _ => [], fun _ => [], fun _ => [], fun _ => []⟩

end Communicator
