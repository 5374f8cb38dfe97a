import Communicator.Server
import Communicator.Proofs.AllOrNothing

/-!
# What a frame asks for

A handler finds out what it is asked for from the frame alone (`Incoming.kind`) and then does it to
the state (`World.handle`), whatever follows the frame in the buffer (`processMessage_kind`). So a
step of the server is one of the cases of `Stepping`.
-/

namespace Communicator

open TransportHeader

inductive Kind
  | ident (id firmware : UInt32)
  | confirm
  | archiveEnd
  | package (m : TransportMessage) (texts : List Text)
  | refused (e : Fault)
  | misjudged
  | ignored

namespace Incoming

variable (E : Env) (f : Incoming)

def firmwareVersion : UInt32 :=
  UInt32.ofNat ((ControllerIdent.firmwareVersion.read f.bytes).getD 0)

def packageKind : Kind :=
  match infoMessages E f.message.imData with
  | .returned texts => .package f.message texts
  | .threw e => .refused e
  | .undefined => .misjudged

/-- A data frame of seven or eight bytes is longer than `check_length` asks for and shorter than
its members. -/
def dataKind : Kind :=
  if f.message.cmd = TmCode.cArchiveData ∧ f.message.data.length = 0 then .archiveEnd
  else if f.message.data.length < 7 then .refused .wrongMessageSize
  else if f.message.data.length < 9 then .misjudged
  else f.packageKind E

def kind : Kind :=
  if f.message.cmd = TmCode.cControllerIdent then
    if f.message.data.length < 6 then .refused .wrongMessageSize
    else .ident f.controllerId f.firmwareVersion
  else if f.IsData then f.dataKind E
  else if f.IsConfirm then .confirm
  else .ignored

end Incoming

namespace World

variable (w : World)

def confirmed : World :=
  if w.protocolState = .waitInitialDeleteConfirm
  then w.sendRequest.setProtocolState .processArchive else w

def archiveEnded : World := w.sendDelete.setProtocolState .waitFinalDeleteConfirm

def takePackage (m : TransportMessage) (texts : List Text) : Outcome Unit × World :=
  match w.enqueue (firstLabel m.lastMesNumber texts.length) 0 texts with
  | (.returned _, w') => (.returned (), w'.setLastCounter w'.controllerId m.lastMesNumber)
  | r => r

def handle : Kind → Outcome Unit × World
  | .ident id firmware => (.returned (), (w.identify id firmware).start)
  | .confirm => (.returned (), w.confirmed)
  | .archiveEnd => (.returned (), w.archiveEnded)
  | .package m texts =>
    match w.takePackage m texts with
    | (.returned _, w') => (.returned (), w'.settle m.cmd)
    | (.threw e, w') => (.threw e, w'.stop)
    | (.undefined, w') => (.undefined, w')
  | .refused e => (.threw e, w.stop)
  | .misjudged => (.undefined, w)
  | .ignored => (.returned (), w)

end World

/-- The message a request asks for. -/
def World.requested (w : World) : UInt32 :=
  if w.getLastCounter w.controllerId ≠ 0 then w.getLastCounter w.controllerId + 1
  else w.getLastCounter w.controllerId

theorem World.sendRequest_eq (w : World) :
    w.sendRequest = { w with sent := w.sent ++ [.dataRequest w.requested] } := rfl

theorem World.requested_first {w : World} (h : w.getLastCounter w.controllerId = 0) :
    w.requested = 0 := by
  rw [World.requested, h, if_neg (by simp)]

theorem World.start_first {w : World} (h : w.getLastCounter w.controllerId = 0) : w.start =
    { w with sent := w.sent ++ [.dataRequest 0], protocolState := .processArchive } := by
  rw [World.start, if_pos h, World.sendRequest_eq, World.requested_first h]
  rfl

theorem World.start_known {w : World} (h : w.getLastCounter w.controllerId ≠ 0) :
    w.start = w.sendDelete.setProtocolState .waitInitialDeleteConfirm := if_neg h

theorem World.confirmed_waiting {w : World} (h : w.protocolState = .waitInitialDeleteConfirm) :
    w.confirmed =
      { w with sent := w.sent ++ [.dataRequest w.requested], protocolState := .processArchive } :=
  if_pos h

theorem World.confirmed_of_ne {w : World} (h : w.protocolState ≠ .waitInitialDeleteConfirm) :
    w.confirmed = w := if_neg h

theorem World.confirmed_shared (w : World) : w.confirmed.toShared = w.toShared := by
  unfold World.confirmed
  split <;> rfl

theorem World.archiveEnded_eq (w : World) : w.archiveEnded =
    { w with sent := w.sent ++ w.deletion, protocolState := .waitFinalDeleteConfirm } := by
  rw [World.archiveEnded, World.sendDelete_eq]
  rfl

theorem World.archiveEnded_shared (w : World) : w.archiveEnded.toShared = w.toShared := by
  rw [World.archiveEnded_eq]

section Kind

variable (E : Env) (w : World) (f : Incoming)

theorem Incoming.bytes_eq :
    f.bytes = f.message.bytes ++ (f.message.trailer ++ f.rest) := frame_append _ _

theorem alone_length_lt (m : TransportMessage) : (m.frame ++ []).length < 2 ^ 63 := by
  have := m.length_lt
  simp
  omega

/-- A frame with nothing behind it. -/
def Incoming.alone (m : TransportMessage) : Incoming := ⟨m, [], alone_length_lt m⟩

theorem Incoming.trailer_ne_nil : f.message.trailer ++ f.rest ≠ [] := by
  simp [TransportMessage.trailer]

theorem Incoming.six_add_le : f.message.data.length + 6 ≤ f.bytes.length := by
  rw [Incoming.bytes, List.length_append, frame_length]
  omega

theorem Member.exists_read (g : Member) (hdr : List UInt8) (h : g.offset + g.size ≤ hdr.length) :
    ∃ v, g.read hdr = some v := by
  rw [Member.read, bytesAt, if_pos h]
  exact ⟨_, rfl⟩

theorem processControllerIdent_kind (h6 : 6 ≤ f.message.data.length) :
    processControllerIdent w f.bytes
      = (.returned (), (w.identify f.controllerId f.firmwareVersion).start) := by
  have hlen := f.six_add_le
  obtain ⟨id, hid⟩ := Member.exists_read ControllerIdent.controllerId f.bytes
    (by simp [ControllerIdent.controllerId]; omega)
  obtain ⟨fw, hfw⟩ := Member.exists_read ControllerIdent.firmwareVersion f.bytes
    (by simp [ControllerIdent.firmwareVersion]; omega)
  have hc : checkLength ControllerIdent.sizeof f.bytes = true := by
    rw [Incoming.bytes_eq, checkLength_bytes, ControllerIdent.sizeof]
    omega
  rw [processControllerIdent, hc, hid, hfw, Bool.not_true, if_neg Bool.false_ne_true, World.start,
    apply_ite (Prod.mk (Outcome.returned ())), Incoming.controllerId, Incoming.firmwareVersion, hid,
    hfw]
  rfl

theorem World.confirmed_eq : processDeleteConfirmation w = (.returned (), w.confirmed) := by
  rw [processDeleteConfirmation, World.confirmed]
  cases w.protocolState <;> rfl

theorem accept_package {m : TransportMessage} {texts : List Text}
    (h : infoMessages E m.imData = .returned texts) : accept E w m = w.takePackage m texts := by
  simp only [accept, h]
  rfl

theorem accept_refused {m : TransportMessage} {e : Fault}
    (h : infoMessages E m.imData = .threw e) : accept E w m = (.threw e, w) := by
  simp only [accept, h]

theorem processMessage_packageKind (hd : f.IsData) (h9 : 9 ≤ f.message.data.length) :
    processMessage E w f.bytes = w.handle (f.packageKind E) := by
  rw [Incoming.bytes_eq, processMessage_data E w hd h9 f.trailer_ne_nil, Incoming.packageKind]
  rcases hi : infoMessages E f.message.imData with texts | e | _
  · rw [accept_package E w hi]
    rfl
  · rw [accept_refused E w hi]
    rfl
  · exact absurd hi (infoMessages_ne_undefined E _)

theorem processMessage_dataKind (hd : f.IsData) :
    processMessage E w f.bytes = w.handle (f.dataKind E) := by
  unfold Incoming.dataKind
  by_cases h0 : f.message.cmd = TmCode.cArchiveData ∧ f.message.data.length = 0
  · rw [if_pos h0, Incoming.bytes_eq, processMessage_archive E w h0.1,
      processArchiveData_empty E w h0.2]
    rfl
  rw [if_neg h0]
  rcases Nat.lt_or_ge f.message.data.length 7 with h7 | h7
  · rw [if_pos h7, Incoming.bytes_eq]
    rcases hd with hc | hc
    · rw [processMessage_current E w hc, processCurrentData_short E w h7]
      rfl
    · rw [processMessage_archive E w hc, processArchiveData_short E w (fun h => h0 ⟨hc, h⟩) h7]
      rfl
  rw [if_neg (Nat.not_lt.2 h7)]
  rcases Nat.lt_or_ge f.message.data.length 9 with h9 | h9
  · rw [if_pos h9]
    exact processMessage_misjudged E w f.message hd (by omega) f.length_lt
  · rw [if_neg (Nat.not_lt.2 h9)]
    exact processMessage_packageKind E w f hd h9

theorem processMessage_kind : processMessage E w f.bytes = w.handle (f.kind E) := by
  unfold Incoming.kind
  by_cases h1 : f.message.cmd = TmCode.cControllerIdent
  · rw [if_pos h1, Incoming.bytes_eq, processMessage_ident E w h1]
    rcases Nat.lt_or_ge f.message.data.length 6 with h6 | h6
    · rw [if_pos h6, processControllerIdent_short w h6]
      rfl
    · rw [if_neg (Nat.not_lt.2 h6), ← Incoming.bytes_eq, processControllerIdent_kind w f h6]
      rfl
  rw [if_neg h1]
  by_cases h2 : f.IsData
  · rw [if_pos h2]
    exact processMessage_dataKind E w f h2
  rw [if_neg h2, Incoming.bytes_eq, processMessage_other E w h1 (fun h => h2 (.inl h))
    fun h => h2 (.inr h)]
  by_cases h3 : f.IsConfirm
  · have hc : f.message.cmd = TmCode.cDeleteConfirm := h3
    rw [if_pos h3, if_pos hc, World.confirmed_eq]
    rfl
  · have hc : ¬ f.message.cmd = TmCode.cDeleteConfirm := h3
    rw [if_neg h3, if_neg hc]
    rfl

/-! Where a kind comes from. -/

variable {E f}

theorem Incoming.identifies_iff :
    f.Identifies ↔ f.message.cmd = TmCode.cControllerIdent ∧ 6 ≤ f.message.data.length := by
  rw [Incoming.Identifies, Incoming.bytes_eq, checkLength_bytes, ControllerIdent.sizeof]
  exact and_congr_right fun _ => by omega

theorem Incoming.not_isData_of_ident (h : f.message.cmd = TmCode.cControllerIdent) :
    ¬ f.IsData := by
  rintro (hc | hc) <;> simp [h, TmCode.cControllerIdent, TmCode.cCurrentData,
    TmCode.cArchiveData] at hc

theorem Incoming.dataKind_cases : f.dataKind E = .archiveEnd ∧ f.message.cmd = TmCode.cArchiveData
      ∧ f.message.data = []
    ∨ (∃ texts, f.dataKind E = .package f.message texts ∧ 9 ≤ f.message.data.length
      ∧ infoMessages E f.message.imData = .returned texts)
    ∨ (∃ e, f.dataKind E = .refused e) ∨ f.dataKind E = .misjudged := by
  unfold Incoming.dataKind Incoming.packageKind
  split_ifs with h0 h7 h9
  · exact .inl ⟨rfl, h0.1, List.length_eq_zero_iff.1 h0.2⟩
  · exact .inr (.inr (.inl ⟨_, rfl⟩))
  · exact .inr (.inr (.inr rfl))
  · rcases infoMessages E f.message.imData with texts | e | _
    · exact .inr (.inl ⟨texts, rfl, Nat.not_lt.1 h9, rfl⟩)
    · exact .inr (.inr (.inl ⟨e, rfl⟩))
    · exact .inr (.inr (.inr rfl))

theorem Incoming.kind_of_isData (hd : f.IsData) : f.kind E = f.dataKind E := by
  rw [Incoming.kind, if_neg fun h => Incoming.not_isData_of_ident h hd, if_pos hd]

theorem Incoming.kind_of_identifies (h : f.Identifies) :
    f.kind E = .ident f.controllerId f.firmwareVersion := by
  have h' := Incoming.identifies_iff.1 h
  rw [Incoming.kind, if_pos h'.1, if_neg (Nat.not_lt.2 h'.2)]

theorem Incoming.kind_of_isConfirm (h : f.IsConfirm) : f.kind E = .confirm := by
  have hc : f.message.cmd = TmCode.cDeleteConfirm := h
  have h1 : f.message.cmd ≠ TmCode.cControllerIdent := by
    simp [hc, TmCode.cDeleteConfirm, TmCode.cControllerIdent]
  have h2 : ¬ f.IsData := by
    rintro (hd | hd) <;>
      simp [hc, TmCode.cDeleteConfirm, TmCode.cCurrentData, TmCode.cArchiveData] at hd
  rw [Incoming.kind, if_neg h1, if_neg h2, if_pos h]

variable (E f)

inductive KindOf : Kind → Prop
  | ident (identifies : f.Identifies) : KindOf (.ident f.controllerId f.firmwareVersion)
  | confirm (isConfirm : f.IsConfirm) : KindOf .confirm
  | archiveEnd (isData : f.IsData) (empty : f.message.data = []) : KindOf .archiveEnd
  | package (texts : List Text) (isData : f.IsData) (nine_le : 9 ≤ f.message.data.length)
    (ok : infoMessages E f.message.imData = .returned texts) : KindOf (.package f.message texts)
  | refused (e : Fault) : KindOf (.refused e)
  | misjudged : KindOf .misjudged
  | ignored : KindOf .ignored

theorem Incoming.kind_cases : KindOf E f (f.kind E) := by
  by_cases h1 : f.message.cmd = TmCode.cControllerIdent
  · rcases Nat.lt_or_ge f.message.data.length 6 with h6 | h6
    · rw [Incoming.kind, if_pos h1, if_pos h6]
      exact .refused _
    · have h := Incoming.identifies_iff.2 ⟨h1, h6⟩
      rw [Incoming.kind_of_identifies h]
      exact .ident h
  by_cases h2 : f.IsData
  · rw [Incoming.kind_of_isData h2]
    rcases f.dataKind_cases (E := E) with ⟨h, -, h0⟩ | ⟨texts, h, h9, hi⟩ | ⟨e, h⟩ | h <;> rw [h]
    · exact .archiveEnd h2 h0
    · exact .package texts h2 h9 hi
    · exact .refused e
    · exact .misjudged
  rw [Incoming.kind, if_neg h1, if_neg h2]
  split_ifs with h3
  · exact .confirm h3
  · exact .ignored

end Kind

/-! ## Taking a package -/

section Package

variable (E : Env) (w : World) (m : TransportMessage) (texts : List Text)

def World.taken : World :=
  ((w.push (enqueued w m texts)).setLastCounter w.controllerId m.lastMesNumber).settle m.cmd

/-- How the handler of a package ends. -/
inductive Taking : Outcome Unit × World → Prop
  | taken (takes : Takes w m texts) : Taking (.returned (), w.taken m texts)
  | full (n : ℕ) (lt : n < texts.length)
    (room : 0 < n → w.backend.messages.length + n ≤ w.backend.maxMessages)
    (full : w.backend.maxMessages ≤ w.backend.messages.length + n) :
    Taking (.threw .capacityExceeded, (w.push ((enqueued w m texts).take n)).stop)
  | overflow (n : ℕ) (lt : n < texts.length)
    (room : w.backend.messages.length + n ≤ w.backend.maxMessages)
    (large : World.intMax < firstLabel m.lastMesNumber texts.length + n) :
    Taking (.undefined, w.push ((enqueued w m texts).take n))

theorem handle_package_cases : Taking w m texts (w.handle (.package m texts)) := by
  have h := enqueue_cases texts w (firstLabel m.lastMesNumber texts.length) 0
  rw [Nat.cast_zero, Int.add_zero] at h
  rw [World.handle, World.takePackage]
  generalize w.enqueue (firstLabel m.lastMesNumber texts.length) 0 texts = r at h
  cases h with
  | all room => exact .taken (takes_of_room room)
  | full k lt room full => exact .full k lt room full
  | overflow k lt room large => exact .overflow k lt (room (pos_of_large large)) large

variable {w m texts}

theorem handle_taken (h : Takes w m texts) :
    w.handle (.package m texts) = (.returned (), w.taken m texts) := by
  have hc := handle_package_cases w m texts
  generalize w.handle (.package m texts) = r at hc
  cases hc with
  | taken => rfl
  | full n lt room full => exact absurd h (not_takes_of_full lt full)
  | overflow n lt room large => exact absurd h (not_takes_of_large lt large)

/-! What taking it changes. -/

theorem World.taken_shared : (w.taken m texts).toShared
    = ⟨Function.update w.counterer w.controllerId (some m.lastMesNumber),
        w.backend.append (enqueued w m texts)⟩ := by
  rw [World.taken, World.settle_shared]
  rfl

theorem World.taken_controllerId : (w.taken m texts).controllerId = w.controllerId := by
  rw [World.taken, World.settle_controllerId]
  rfl

theorem World.taken_protocolState : (w.taken m texts).protocolState
    = if m.cmd = TmCode.cCurrentData then .waitFinalDeleteConfirm else w.protocolState := by
  unfold World.taken World.settle
  split <;> rfl

theorem World.taken_sent : (w.taken m texts).sent = w.sent
    ++ if m.cmd = TmCode.cCurrentData ∧ m.lastMesNumber ≠ 0 then [.deleteData m.lastMesNumber]
      else [] := by
  have hg : World.getLastCounter
      ((w.push (enqueued w m texts)).setLastCounter w.controllerId m.lastMesNumber)
      w.controllerId = m.lastMesNumber := by
    simp [World.getLastCounter, World.setLastCounter]
  have hc : ((w.push (enqueued w m texts)).setLastCounter w.controllerId m.lastMesNumber).controllerId
      = w.controllerId := rfl
  rw [World.taken, World.settle]
  by_cases h1 : m.cmd = TmCode.cCurrentData
  · rw [if_pos h1, World.sendDelete_eq, World.deletion, hc, hg]
    by_cases h2 : m.lastMesNumber = 0
    · rw [if_pos h2, if_neg fun h => h.2 h2]
      rfl
    · rw [if_neg h2, if_pos ⟨h1, h2⟩]
      rfl
  · rw [if_neg h1, if_neg fun h => h1 h.1]
    simp [World.setLastCounter, World.push]

end Package

/-! ## Steps of the server -/

section Step

variable {κ : Type} [DecidableEq κ] (E : Env) (s : Server κ) (k : κ) (f : Incoming)

def World.acceptance (w : World) (m : TransportMessage) (texts : List Text) : Acceptance :=
  ⟨w.controllerId, m.lastMesNumber, texts, w.backend.accepted.length⟩

section Put

variable (w : World) (received : List Acceptance)

@[simp]
theorem Server.put_shared : (s.put k w received).shared = w.toShared := rfl

@[simp]
theorem Server.put_sessions : (s.put k w received).sessions k = w.toSession :=
  Function.update_self ..

@[simp]
theorem Server.put_world : (s.put k w received).world k = w := by
  simp [Server.world]

@[simp]
theorem Server.put_sessions_of_ne {j : κ} (h : j ≠ k) :
    (s.put k w received).sessions j = s.sessions j :=
  Function.update_of_ne h ..

end Put

/-- What a frame handed over on connection `k` can do. -/
inductive Stepping : Server κ → Prop
  | ident (identifies : f.Identifies) : Stepping
      (s.put k ((s.world k).identify f.controllerId f.firmwareVersion).start [])
  | confirm (isConfirm : f.IsConfirm) : Stepping (s.put k (s.world k).confirmed [])
  | archiveEnd (kind : f.kind E = .archiveEnd) : Stepping (s.put k (s.world k).archiveEnded [])
  | taken (texts : List Text) (kind : f.kind E = .package f.message texts)
    (takes : Takes (s.world k) f.message texts) :
    Stepping (s.put k ((s.world k).taken f.message texts)
      [(s.world k).acceptance f.message texts])
  | full (texts : List Text) (n : ℕ) (kind : f.kind E = .package f.message texts)
    (lt : n < texts.length)
    (full : s.shared.backend.maxMessages ≤ s.shared.backend.messages.length + n)
    (threw : (processMessage E (s.world k) f.bytes).1 = .threw .capacityExceeded) :
    Stepping
      (s.put k ((s.world k).push ((enqueued (s.world k) f.message texts).take n)).stop [])
  | refused (e : Fault) (kind : f.kind E = .refused e) : Stepping (s.put k (s.world k).stop [])
  | ignored (kind : f.kind E = .ignored) : Stepping (s.put k (s.world k) [])

theorem acceptance_package (hd : f.IsData) (h9 : 9 ≤ f.message.data.length) (w : World)
    {texts : List Text} (ok : infoMessages E f.message.imData = .returned texts) :
    f.acceptance E w = [w.acceptance f.message texts] := by
  have hne : f.message.data ≠ [] := by
    rintro h
    simp [h] at h9
  have hlast := Member.read_bytes f.message (f.message.trailer ++ f.rest)
    (f := DataResponse.lastMesNumber) (by decide) (by simp [DataResponse.lastMesNumber]; omega)
  rw [Incoming.acceptance, if_pos ⟨hd, hne⟩, Incoming.bytes_eq,
    parseInfoPackage_bytes E f.message h9 f.trailer_ne_nil, ok, hlast]
  rfl

theorem acceptance_nil (w : World) (h : ¬ f.IsData ∨ f.message.data = []) :
    f.acceptance E w = [] := by
  rw [Incoming.acceptance, if_neg]
  rintro ⟨hd, h0⟩
  exact h.elim (fun h => h hd) h0

variable {E s k f}

theorem acceptance_of_kind (w : World)
    (h : f.kind E = .ident f.controllerId f.firmwareVersion ∨ f.kind E = .confirm
      ∨ f.kind E = .ignored) : f.acceptance E w = [] := by
  refine acceptance_nil E f w (.inl fun hd => ?_)
  rw [Incoming.kind_of_isData hd] at h
  rcases f.dataKind_cases (E := E) with ⟨h', -⟩ | ⟨texts, h', -⟩ | ⟨e, h'⟩ | h' <;> simp [h'] at h

theorem Server.step_cases {s' : Server κ} (h : s.step E (.frame k f) = some s') :
    Stepping E s k f s' := by
  have hk := f.kind_cases E
  simp only [Server.step, processMessage_kind] at h
  rcases hkd : f.kind E with ⟨id, fw⟩ | _ | _ | ⟨m, texts⟩ | e | _ | _ <;> rw [hkd] at hk h
  · cases hk with
    | ident hi =>
      simp only [World.handle, acceptance_of_kind _ (.inl hkd), Option.some.injEq] at h
      exact h ▸ .ident hi
  · cases hk with
    | confirm hc =>
      simp only [World.handle, acceptance_of_kind _ (.inr (.inl hkd)), Option.some.injEq] at h
      exact h ▸ .confirm hc
  · cases hk with
    | archiveEnd hd h0 =>
      simp only [World.handle, acceptance_nil E f _ (.inr h0), Option.some.injEq] at h
      exact h ▸ .archiveEnd hkd
  · cases hk with
    | package _ hd h9 hi =>
      have hc := handle_package_cases (s.world k) f.message texts
      generalize hr : (s.world k).handle (.package f.message texts) = r at h hc
      cases hc with
      | taken takes =>
        simp only [acceptance_package E f hd h9 _ hi, Option.some.injEq] at h
        exact h ▸ .taken texts hkd takes
      | full n lt room full =>
        simp only [Option.some.injEq] at h
        exact h ▸ .full texts n hkd lt full (by rw [processMessage_kind, hkd, hr])
      | overflow n lt room large => simp at h
  · simp only [World.handle, Option.some.injEq] at h
    exact h ▸ .refused e hkd
  · simp [World.handle] at h
  · simp only [World.handle, acceptance_of_kind _ (.inr (.inr hkd)), Option.some.injEq] at h
    exact h ▸ .ignored hkd

theorem Server.step_ident (h : f.Identifies) : s.step E (.frame k f)
    = some (s.put k ((s.world k).identify f.controllerId f.firmwareVersion).start []) := by
  have hk := Incoming.kind_of_identifies (E := E) h
  simp only [Server.step, processMessage_kind, hk, World.handle, acceptance_of_kind _ (.inl hk)]

theorem Server.step_confirm (h : f.IsConfirm) :
    s.step E (.frame k f) = some (s.put k (s.world k).confirmed []) := by
  have hk := Incoming.kind_of_isConfirm (E := E) h
  simp only [Server.step, processMessage_kind, hk, World.handle,
    acceptance_of_kind _ (.inr (.inl hk))]

theorem Server.step_archiveEnd (hk : f.kind E = .archiveEnd) :
    s.step E (.frame k f) = some (s.put k (s.world k).archiveEnded []) := by
  have hc := f.kind_cases E
  rw [hk] at hc
  cases hc with
  | archiveEnd hd h0 =>
    simp only [Server.step, processMessage_kind, hk, World.handle, acceptance_nil E f _ (.inr h0)]

theorem Server.step_refused {e : Fault} (hk : f.kind E = .refused e) :
    s.step E (.frame k f) = some (s.put k (s.world k).stop []) := by
  simp only [Server.step, processMessage_kind, hk, World.handle]

theorem Server.step_ignored (hk : f.kind E = .ignored) :
    s.step E (.frame k f) = some (s.put k (s.world k) []) := by
  simp only [Server.step, processMessage_kind, hk, World.handle,
    acceptance_of_kind _ (.inr (.inr hk))]

theorem Server.step_put {s' : Server κ} (h : s.step E (.frame k f) = some s') :
    ∃ w received, s' = s.put k w received := by
  simp only [Server.step] at h
  rcases hp : processMessage E (s.world k) f.bytes with ⟨_ | _ | _, w⟩ <;> rw [hp] at h
  · exact ⟨_, _, (Option.some.inj h).symm⟩
  · exact ⟨_, _, (Option.some.inj h).symm⟩
  · simp at h

theorem Server.step_of_ne {s' : Server κ} {j : κ} (hj : j ≠ k)
    (h : s.step E (.frame k f) = some s') : s'.sessions j = s.sessions j := by
  obtain ⟨w, received, rfl⟩ := Server.step_put h
  exact Server.put_sessions_of_ne s k w received hj

/-- Only the connection of a frame sends. -/
theorem Server.sender {e : ServerEvent κ} {s' : Server κ} {r : Request} {new : List Request}
    (h : s.step E e = some s') (hnew : (s'.sessions k).sent = (s.sessions k).sent ++ new)
    (hr : r ∈ new) : ∃ f, e = .frame k f := by
  have hne : (s'.sessions k).sent ≠ (s.sessions k).sent := by
    intro he
    rw [he, List.self_eq_append_right] at hnew
    simp [hnew] at hr
  cases e with
  | take =>
    obtain rfl := Option.some.inj h
    exact absurd rfl hne
  | frame j f =>
    rcases eq_or_ne k j with rfl | hj
    · exact ⟨f, rfl⟩
    · exact absurd (by rw [Server.step_of_ne hj h]) hne

theorem Server.step_taken {texts : List Text} (kind : f.kind E = .package f.message texts)
    (takes : Takes (s.world k) f.message texts) :
    s.step E (.frame k f) = some (s.put k ((s.world k).taken f.message texts)
      [(s.world k).acceptance f.message texts]) := by
  have hk := f.kind_cases E
  rw [kind] at hk
  cases hk with
  | package _ hd h9 hi =>
    simp only [Server.step, processMessage_kind, kind, handle_taken takes,
      acceptance_package E f hd h9 _ hi]

end Step

/-! Frames of a small controller. -/

def identSeven : TransportMessage :=
  ⟨TmCode.cControllerIdent, [7, 0, 0, 0, 1, 0, 0, 0], by decide⟩

theorem oneEvent_length_lt (last : UInt8) :
    [last, 0, 0, 0, 0, 0, 0, 0, 0, 3, 0, 0x0A, 1, 5].length < 65536 := by
  simp

def oneEvent (cmd last : UInt8) : TransportMessage :=
  ⟨cmd, [last, 0, 0, 0, 0, 0, 0, 0, 0, 3, 0, 0x0A, 1, 5], oneEvent_length_lt last⟩

def confirmation : TransportMessage := ⟨TmCode.cDeleteConfirm, [], by decide⟩

/-- A server that has seen no controller yet. -/
def newServer (maxMessages : ℕ) : Server Unit := .start ⟨fun _ => none, ⟨maxMessages, [], []⟩⟩

end Communicator
