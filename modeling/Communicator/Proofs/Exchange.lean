import Communicator.Device
import Communicator.Proofs.AllOrNothing
import Communicator.Proofs.FrameBounds

/-!
# What the server makes of a device's frames

The handlers on the frames a device sends, and from them what handing over the next frame can do
to a connection (`deliver_cases`).
-/

namespace Communicator

variable {D : Device} (E : Env)

namespace Package

variable (p : Package D)

def texts : List Text := p.numbers.flatMap fun i => blockMessages E (D.record i)

theorem data_eq : p.data = toLe 4 p.last ++ (toLe 4 p.time.toNat ++ ([p.priority]
    ++ Chain.join blockHeader (p.numbers.map D.record))) := by
  simp [data, Chain.join, blockHeader, List.flatMap_map]

@[simp]
theorem message_cmd (cmd : UInt8) : (p.message cmd).cmd = cmd := rfl

@[simp]
theorem message_data (cmd : UInt8) : (p.message cmd).data = p.data := rfl

theorem nine_le (cmd : UInt8) : 9 ≤ (p.message cmd).data.length := by
  simp [data_eq]
  omega

theorem last_lt_size : p.last < 2 ^ 32 := by
  have := p.count_pos
  have := p.last_lt
  unfold last
  omega

theorem mem_numbers {k : ℕ} : k ∈ p.numbers ↔ p.first ≤ k ∧ k ≤ p.last := by
  have := p.count_pos
  rw [numbers, List.mem_range'_1, last]
  omega

theorem lastMesNumber_message (cmd : UInt8) :
    (p.message cmd).lastMesNumber = UInt32.ofNat p.last := by
  rw [TransportMessage.lastMesNumber, message_data, data_eq, List.take_left' (length_toLe 4 _),
    le_toLe]
  exact congrArg UInt32.ofNat (Nat.mod_eq_of_lt p.last_lt_size)

theorem record_length_lt {i : ℕ} (hi : i ∈ p.numbers) : (D.record i).length < 65536 := by
  have h := p.length_lt
  have hsub : (D.record i).Sublist
      (p.numbers.flatMap fun i => toLe 2 (D.record i).length ++ D.record i) :=
    (List.sublist_append_right _ _).trans
      (List.sublist_flatten_of_mem (List.mem_map_of_mem hi))
  have hle := hsub.length_le
  simp only [numbers] at hle
  simp only [List.length_append] at h
  omega

theorem infoMessages_message (cmd : UInt8) :
    infoMessages E (p.message cmd).imData = .returned (p.texts E) := by
  have him : (p.message cmd).imData = Chain.join blockHeader (p.numbers.map D.record) := by
    have h9 : (toLe 4 p.last ++ (toLe 4 p.time.toNat ++ [p.priority])).length = 9 := by simp
    rw [TransportMessage.imData, message_data, data_eq, ← h9]
    simp only [← List.append_assoc]
    exact List.drop_left
  rw [him, infoMessages, Chain.split_join]
  · simp [texts, List.flatMap_map]
  · intro b hb
    obtain ⟨i, hi, rfl⟩ := List.mem_map.1 hb
    exact p.record_length_lt hi

end Package

section Handlers

variable (w : World)

theorem processMessage_frame_ident (firmware : UInt32) :
    processMessage E w (Frame.ident (D := D) firmware).message.frame
      = (.returned (), (w.identify D.controllerId firmware).start) := by
  have hid : (Frame.ident (D := D) firmware).message.controllerId = D.controllerId := by
    rw [TransportMessage.controllerId]
    simp only [Frame.message]
    rw [List.take_left' (length_toLe 4 _), le_toLe]
    simp
  have hfw : (Frame.ident (D := D) firmware).message.firmwareVersion = firmware := by
    rw [TransportMessage.firmwareVersion]
    simp only [Frame.message]
    rw [List.drop_left' (length_toLe 4 _), List.take_of_length_le (by simp), le_toLe]
    simp
  rw [TransportMessage.frame, processMessage_ident E w rfl,
    processControllerIdent_bytes w (by simp [Frame.message]), hid, hfw]
  rfl

theorem processMessage_frame_confirm (n : UInt32) :
    processMessage E w (Frame.confirm (D := D) n).message.frame
      = (.returned (), if w.protocolState = .waitInitialDeleteConfirm
          then w.sendRequest.setProtocolState .processArchive else w) := by
  rw [TransportMessage.frame, processMessage_confirm E w rfl, processDeleteConfirmation]
  cases w.protocolState <;> rfl

theorem processMessage_frame_archiveEnd :
    processMessage E w (Frame.archiveEnd (D := D)).message.frame
      = (.returned (), w.sendDelete.setProtocolState .waitFinalDeleteConfirm) := by
  rw [TransportMessage.frame, processMessage_archive E w rfl, processArchiveData_empty E w rfl]
  rfl

/-- `check_length` judges the length of a device's frame right, so what follows the frame in the
buffer makes no difference. -/
theorem processMessage_frame_append (f : Frame D) (rest : List UInt8) :
    processMessage E w (f.message.frame ++ rest) = processMessage E w f.message.frame := by
  have ht : f.message.trailer ≠ [] := by simp [TransportMessage.trailer]
  have hm : ¬ f.message.Misjudged := by
    unfold TransportMessage.Misjudged
    cases f with
    | ident firmware =>
      simp [Frame.message, TransportMessage.IsData, TmCode.cControllerIdent, TmCode.cCurrentData,
        TmCode.cArchiveData]
    | confirm n => simp [Frame.message]
    | archiveEnd => simp [Frame.message]
    | archive p =>
      have : 9 ≤ (Frame.archive p).message.data.length := p.nine_le TmCode.cArchiveData
      omega
    | current p =>
      have : 9 ≤ (Frame.current p).message.data.length := p.nine_le TmCode.cCurrentData
      omega
  rw [frame_append, TransportMessage.frame]
  exact processMessage_congr E w hm (by simp [ht]) ht

def accepted (p : Package D) (cmd : UInt8) : World :=
  ((w.push (enqueued w (p.message cmd) (p.texts E))).setLastCounter w.controllerId
    (UInt32.ofNat p.last)).settle cmd

/-- A package is accepted exactly where the queue takes it; else some of it may stay there. -/
theorem processMessage_frame_package (p : Package D) {cmd : UInt8} (hc : (p.message cmd).IsData) :
    (processMessage E w (p.message cmd).frame = (.returned (), accepted E w p cmd)
        ∧ Takes w (p.message cmd) (p.texts E))
      ∨ ¬ Takes w (p.message cmd) (p.texts E)
        ∧ ((∃ e k, processMessage E w (p.message cmd).frame
            = (.threw e, (w.push ((enqueued w (p.message cmd) (p.texts E)).take k)).stop))
          ∨ (processMessage E w (p.message cmd).frame).1 = .undefined) := by
  rw [TransportMessage.frame, processMessage_data E w hc (p.nine_le cmd) (by
    simp [TransportMessage.trailer])]
  have hi := p.infoMessages_message E cmd
  have h := accept_cases E w (p.message cmd)
  generalize accept E w (p.message cmd) = r at h
  cases h with
  | refused e bad => simp [hi] at bad
  | all texts ok takes =>
    obtain rfl : p.texts E = texts := Outcome.returned.inj (hi.symm.trans ok)
    rw [p.lastMesNumber_message]
    exact .inl ⟨rfl, takes⟩
  | full texts ok not_takes k =>
    obtain rfl : p.texts E = texts := Outcome.returned.inj (hi.symm.trans ok)
    exact .inr ⟨not_takes, .inl ⟨_, k, rfl⟩⟩
  | overflow texts ok not_takes k =>
    obtain rfl : p.texts E = texts := Outcome.returned.inj (hi.symm.trans ok)
    exact .inr ⟨not_takes, .inr rfl⟩

end Handlers

/-- The link once the handler of its next frame returned. -/
def Link.handled (s : Link D) (w : World) (f : Frame D) (rest : List (Frame D)) : Link D :=
  { s with world := w, past := s.past ++ [f], todo := rest, received := s.received ++ f.numbers }

/-- A frame of data, with its package and its code. -/
inductive Carries (p : Package D) : Frame D → UInt8 → Prop
  | archive : Carries p (.archive p) TmCode.cArchiveData
  | current : Carries p (.current p) TmCode.cCurrentData

section Carries

variable {p : Package D} {f : Frame D} {cmd : UInt8}

theorem Carries.message (h : Carries p f cmd) : f.message = p.message cmd := by
  cases h <;> rfl

theorem Carries.numbers (h : Carries p f cmd) : f.numbers = p.numbers := by
  cases h <;> rfl

theorem Carries.isData (h : Carries p f cmd) : (p.message cmd).IsData := by
  cases h
  · exact .inr rfl
  · exact .inl rfl

end Carries

/-- What handing over the next frame can do: its handler returns, or the queue does not take its
package and the frame stays in front, behind those handed over before. -/
inductive Delivering (s : Link D) : Link D → Prop
  | ident (firmware : UInt32) (rest : List (Frame D)) (todo : s.todo = .ident firmware :: rest) :
    Delivering s
      (s.handled (s.world.identify D.controllerId firmware).start (.ident firmware) rest)
  | confirm (n : UInt32) (rest : List (Frame D)) (todo : s.todo = .confirm n :: rest) :
    Delivering s (s.handled (if s.world.protocolState = .waitInitialDeleteConfirm
      then s.world.sendRequest.setProtocolState .processArchive else s.world) (.confirm n) rest)
  | archiveEnd (rest : List (Frame D)) (todo : s.todo = .archiveEnd :: rest) :
    Delivering s
      (s.handled (s.world.sendDelete.setProtocolState .waitFinalDeleteConfirm) .archiveEnd rest)
  | accepted (p : Package D) (f : Frame D) (cmd : UInt8) (rest : List (Frame D))
    (todo : s.todo = f :: rest) (carries : Carries p f cmd)
    (takes : Takes s.world (p.message cmd) (p.texts E)) :
    Delivering s (s.handled (accepted E s.world p cmd) f rest)
  | refused (p : Package D) (f : Frame D) (cmd : UInt8) (rest : List (Frame D))
    (msgs : List InfoMessage) (todo : s.todo = f :: rest) (carries : Carries p f cmd)
    (not_takes : ¬ Takes s.world (p.message cmd) (p.texts E)) :
    Delivering s
      { s with world := (s.world.push msgs).stop, past := [], todo := s.past ++ f :: rest }

section Delivering

variable {E} {s s' : Link D} {f : Frame D} {rest : List (Frame D)}

theorem deliver_returned {w : World} (ht : s.todo = f :: rest)
    (hp : processMessage E s.world f.message.frame = (.returned (), w)) :
    s.deliver E = some (s.handled w f rest) := by
  simp only [Link.deliver, ht, hp]
  rfl

theorem deliver_accepted {p : Package D} {cmd : UInt8} (ht : s.todo = f :: rest)
    (hc : Carries p f cmd) (htk : Takes s.world (p.message cmd) (p.texts E)) :
    s.deliver E = some (s.handled (accepted E s.world p cmd) f rest) := by
  refine deliver_returned ht ?_
  rw [hc.message]
  exact ((processMessage_frame_package E s.world p hc.isData).resolve_right fun hr => hr.1 htk).1

theorem deliver_package {p : Package D} {cmd : UInt8} (ht : s.todo = f :: rest)
    (hc : Carries p f cmd) (hs : s.deliver E = some s') : Delivering E s s' := by
  rcases processMessage_frame_package E s.world p hc.isData with ⟨hp, htk⟩ | ⟨hn, ⟨e, k, hp⟩ | hp⟩
  · rw [deliver_returned ht (by rw [hc.message, hp])] at hs
    obtain rfl := Option.some.inj hs
    exact .accepted p f cmd rest ht hc htk
  · simp only [Link.deliver, ht, hc.message, hp] at hs
    obtain rfl := Option.some.inj hs
    exact .refused p f cmd rest _ ht hc hn
  · rcases hr : processMessage E s.world (p.message cmd).frame with ⟨o, w⟩
    rw [hr] at hp
    simp only [] at hp
    simp [Link.deliver, ht, hc.message, hr, hp] at hs

theorem deliver_cases (hs : s.deliver E = some s') : Delivering E s s' := by
  rcases ht : s.todo with _ | ⟨f, rest⟩
  · simp [Link.deliver, ht] at hs
  cases f with
  | ident firmware =>
    rw [deliver_returned ht (processMessage_frame_ident E s.world firmware)] at hs
    exact Option.some.inj hs ▸ .ident firmware rest ht
  | confirm n =>
    rw [deliver_returned ht (processMessage_frame_confirm E s.world n)] at hs
    exact Option.some.inj hs ▸ .confirm n rest ht
  | archiveEnd =>
    rw [deliver_returned ht (processMessage_frame_archiveEnd E s.world)] at hs
    exact Option.some.inj hs ▸ .archiveEnd rest ht
  | archive p => exact deliver_package ht .archive hs
  | current p => exact deliver_package ht .current hs

end Delivering

/-- A device whose records are one event each. -/
def newDevice : Device := ⟨7, 1, fun _ => [0x0A, 1, 5]⟩

end Communicator
