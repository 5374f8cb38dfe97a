import Communicator.Proofs.Frames

/-!
# Data frames and the queue

A package is parsed before any of its messages is enqueued and the counter is written after all of
them, so a refused frame changes nothing unless the queue fills up in the middle of the package:
then the messages before stay in it, without the counter (`accept_cases`). The device sends the
frame again.
-/

namespace Communicator

open TransportHeader

variable (E : Env) (w : World) (m : TransportMessage)

def enqueued (texts : List Text) : List InfoMessage :=
  labelled w.controllerId w.firmwareVersion (firstLabel m.lastMesNumber texts.length) texts

/-- The frame was accepted as a whole, or refused by an exception without a trace in what outlives
it. -/
def AllOrNothing (rest : List UInt8) : Prop :=
  (∃ texts, parseInfoPackage E (m.frame ++ rest) = .returned texts
      ∧ (processMessage E w (m.frame ++ rest)).1 = .returned ()
      ∧ (processMessage E w (m.frame ++ rest)).2.backend = w.backend.append (enqueued w m texts)
      ∧ (processMessage E w (m.frame ++ rest)).2.getLastCounter w.controllerId = m.lastMesNumber)
    ∨ ∃ e, (processMessage E w (m.frame ++ rest)).1 = .threw e
      ∧ (processMessage E w (m.frame ++ rest)).2.backend = w.backend
      ∧ (processMessage E w (m.frame ++ rest)).2.counterer = w.counterer
      ∧ (processMessage E w (m.frame ++ rest)).2.protocolState = w.protocolState

/-- The queue has room for all messages of the package, and an `int` for their labels. -/
def Takes (texts : List Text) : Prop :=
  texts = [] ∨ w.backend.messages.length + texts.length ≤ w.backend.maxMessages
    ∧ firstLabel m.lastMesNumber texts.length + texts.length ≤ World.intMax + 1

theorem firstLabel_le (last : UInt32) (n : ℕ) : firstLabel last n ≤ World.intMax :=
  Int.le_of_lt_add_one (Int32.toInt_lt _)

section Takes

variable {w m} {texts : List Text} {k : ℕ}

theorem takes_of_room
    (room : texts ≠ [] → w.backend.messages.length + texts.length ≤ w.backend.maxMessages
      ∧ firstLabel m.lastMesNumber texts.length + texts.length ≤ World.intMax + 1) :
    Takes w m texts := by
  by_cases hn : texts = []
  · exact .inl hn
  · exact .inr (room hn)

theorem not_takes_of_full (lt : k < texts.length)
    (full : w.backend.maxMessages ≤ w.backend.messages.length + k) : ¬ Takes w m texts := by
  rintro (rfl | ⟨h, -⟩)
  · simp at lt
  · omega

theorem not_takes_of_large (lt : k < texts.length)
    (large : World.intMax < firstLabel m.lastMesNumber texts.length + k) : ¬ Takes w m texts := by
  rintro (rfl | ⟨-, h⟩)
  · simp at lt
  · omega

/-- The first label always fits an `int`. -/
theorem pos_of_large {last : UInt32} {n : ℕ} (large : World.intMax < firstLabel last n + k) :
    0 < k := by
  have := firstLabel_le last n
  omega

end Takes

/-- How a frame of enough data ends. -/
inductive Accepting : Outcome Unit × World → Prop
  | refused (e : Fault) (bad : infoMessages E m.imData = .threw e) : Accepting (.threw e, w)
  | all (texts : List Text) (ok : infoMessages E m.imData = .returned texts)
    (takes : Takes w m texts) :
    Accepting (.returned (),
      (w.push (enqueued w m texts)).setLastCounter w.controllerId m.lastMesNumber)
  | full (texts : List Text) (ok : infoMessages E m.imData = .returned texts)
    (not_takes : ¬ Takes w m texts) (k : ℕ) (lt : k < texts.length)
    (room : 0 < k → w.backend.messages.length + k ≤ w.backend.maxMessages)
    (full : w.backend.maxMessages ≤ w.backend.messages.length + k) :
    Accepting (.threw .capacityExceeded, w.push ((enqueued w m texts).take k))
  | overflow (texts : List Text) (ok : infoMessages E m.imData = .returned texts)
    (not_takes : ¬ Takes w m texts) (k : ℕ) (lt : k < texts.length)
    (room : w.backend.messages.length < w.backend.maxMessages) :
    Accepting (.undefined, w.push ((enqueued w m texts).take k))

theorem accept_cases : Accepting E w m (accept E w m) := by
  unfold accept
  rcases hi : infoMessages E m.imData with texts | e | _
  · have h := enqueue_cases texts w (firstLabel m.lastMesNumber texts.length) 0
    rw [Nat.cast_zero, Int.add_zero] at h
    simp only []
    generalize w.enqueue (firstLabel m.lastMesNumber texts.length) 0 texts = r at h
    cases h with
    | all room => exact .all texts hi (takes_of_room room)
    | full k lt room full => exact .full texts hi (not_takes_of_full lt full) k lt room full
    | overflow k lt room large =>
      -- a message went in before, so the queue was not full
      have hk := pos_of_large large
      have := room hk
      exact .overflow texts hi (not_takes_of_large lt large) k lt (by omega)
  · exact .refused e hi
  · exact absurd hi (infoMessages_ne_undefined E _)

/-- The loop runs off a buffer that is shorter than the package by more than a block. -/
theorem parseLoop_undefined (hdr : List UInt8) {imDataSize : ℕ}
    (h : hdr.length + 65538 ≤ imDataSize) : ∀ (fuel i : ℕ) (messages : List Text),
      i ≤ hdr.length → parseLoop E hdr imDataSize fuel i messages = .undefined
  | 0, _, _, _ => rfl
  | fuel + 1, i, messages, hi => by
    rw [parseLoop, if_pos (by omega)]
    rcases hb : bytesAt hdr (DataResponse.imData + i) 2 with _ | bs
    · simp only [Member.read, hb, Option.map_none]
    have hlt : le bs < 65536 := by
      have hlen := le_lt bs
      obtain ⟨-, rfl⟩ := bytesAt_eq_some.1 hb
      have : ((hdr.drop (DataResponse.imData + i)).take 2).length ≤ 2 := List.length_take_le _ _
      exact hlen.trans_le (Nat.pow_le_pow_right (by omega) this)
    simp only [Member.read, hb, Option.map_some]
    rw [if_neg (by omega)]
    rcases hk : bytesAt hdr (DataResponse.imData + i + 2) (le bs) with _ | block
    · rfl
    have := (bytesAt_eq_some.1 hk).1
    exact parseLoop_undefined hdr h fuel _ _ (by omega)

/-- Of a misjudged frame the package is looked for behind the frame, up to the end of memory. -/
theorem processMessage_misjudged (hm : m.IsData) (hl : m.data.length = 7 ∨ m.data.length = 8)
    {rest : List UInt8} (hr : (m.frame ++ rest).length < 2 ^ 63) :
    processMessage E w (m.frame ++ rest) = (.undefined, w) := by
  rw [frame_append] at hr ⊢
  have him : 2 ^ 64 - 2 ≤ DataResponse.getImLength (m.bytes ++ (m.trailer ++ rest)) := by
    rw [DataResponse.getImLength, getFullLength_bytes]
    rcases hl with hl | hl <;> simp [hl, DataResponse.sizeof, sizeSub]
  have hp : parseInfoPackage E (m.bytes ++ (m.trailer ++ rest)) = .undefined :=
    parseLoop_undefined E _ (by omega) _ 0 [] (Nat.zero_le _)
  have hc : checkLength DataResponse.sizeof (m.bytes ++ (m.trailer ++ rest)) = true := by
    rw [checkLength_bytes, DataResponse.sizeof]
    omega
  have ha : acceptData E w (m.bytes ++ (m.trailer ++ rest)) = (.undefined, w) := by
    rw [acceptData, processInfoMessages, hp]
  rcases hm with hm | hm
  · rw [processMessage_current E w hm, processCurrentData, hc, ha]
    rfl
  · rw [processMessage_archive E w hm, processArchiveData, dataLen_bytes, if_neg (by omega), hc, ha]
    rfl

theorem allOrNothing_short
    (hm : m.cmd = TmCode.cCurrentData ∨ m.cmd = TmCode.cArchiveData ∧ m.data ≠ [])
    (h7 : m.data.length < 7) (rest : List UInt8) : AllOrNothing E w m rest := by
  have hp : processMessage E w (m.bytes ++ (m.trailer ++ rest))
      = (.threw .wrongMessageSize, w.stop) := by
    rcases hm with hc | ⟨hc, hne⟩
    · rw [processMessage_current E w hc, processCurrentData_short E w h7]
      rfl
    · rw [processMessage_archive E w hc, processArchiveData_short E w (by simpa using hne) h7]
      rfl
  rw [AllOrNothing, frame_append, hp]
  exact .inr ⟨_, rfl, rfl, rfl, rfl⟩

/-- A package is accepted as a whole, or refused before its first message is enqueued, unless the
queue has room for a part of it. -/
theorem allOrNothing_package_iff (hm : m.IsData) (h9 : 9 ≤ m.data.length) (rest : List UInt8) :
    AllOrNothing E w m rest ↔ ∀ texts, infoMessages E m.imData = .returned texts →
      Takes w m texts ∨ w.backend.maxMessages ≤ w.backend.messages.length := by
  have ht : m.trailer ++ rest ≠ [] := by simp [TransportMessage.trailer]
  have h := accept_cases E w m
  rw [AllOrNothing, frame_append, processMessage_data E w hm h9 ht,
    parseInfoPackage_bytes E m h9 ht]
  generalize accept E w m = r at h
  cases h with
  | refused e bad =>
    refine ⟨fun _ texts ok => ?_, fun _ => .inr ⟨e, rfl, rfl, rfl, rfl⟩⟩
    simp [bad] at ok
  | all texts ok takes =>
    refine ⟨fun _ texts' ok' => ?_, fun _ => .inl ⟨texts, ok, rfl, ?_, ?_⟩⟩
    · obtain rfl : texts = texts' := Outcome.returned.inj (ok.symm.trans ok')
      exact .inl takes
    · exact congrArg Shared.backend (World.settle_shared _ _)
    · rw [World.getLastCounter, World.settle_shared]
      simp [World.setLastCounter]
  | full texts ok not_takes k lt room full =>
    constructor
    · rintro (⟨-, -, hr, -⟩ | ⟨-, -, hb, -⟩) texts' ok'
      · simp at hr
      · have hlen := congrArg (fun b => b.messages.length) hb
        simp only [World.stop, World.push, BaseImpl.append_messages, List.length_append,
          List.length_take, enqueued, length_labelled] at hlen
        exact .inr (by omega)
    · intro hf
      have hfull := (hf texts ok).resolve_left not_takes
      obtain rfl : k = 0 := by
        by_contra hk
        have := room (Nat.pos_of_ne_zero hk)
        omega
      rw [List.take_zero, World.push_nil]
      exact .inr ⟨_, rfl, rfl, rfl, rfl⟩
  | overflow texts ok not_takes k lt room =>
    refine ⟨fun h => ?_, fun hf => ?_⟩
    · simp at h
    · exact absurd ((hf texts ok).resolve_left not_takes) (Nat.not_le.2 room)

/-- A data frame is accepted or refused as a whole, whatever follows it, exactly if its length is
none `check_length` misjudges and the queue takes the whole package or is full. -/
theorem allOrNothing_iff
    (hm : m.cmd = TmCode.cCurrentData ∨ m.cmd = TmCode.cArchiveData ∧ m.data ≠ []) :
    (∀ rest, AllOrNothing E w m rest)
      ↔ m.data.length ≠ 7 ∧ m.data.length ≠ 8
        ∧ ∀ texts, infoMessages E m.imData = .returned texts →
          Takes w m texts ∨ w.backend.maxMessages ≤ w.backend.messages.length := by
  have hd : m.IsData := hm.imp_right And.left
  rcases Nat.lt_or_ge m.data.length 7 with h7 | h7
  · refine iff_of_true (allOrNothing_short E w m hm h7) ⟨by omega, by omega, fun texts ok => ?_⟩
    have hnil : m.imData = [] := by
      simp [TransportMessage.imData]
      omega
    rw [hnil, infoMessages, Chain.split_nil] at ok
    simp only [List.flatMap_nil, Outcome.returned.injEq] at ok
    exact .inl (.inl ok.symm)
  rcases Nat.lt_or_ge m.data.length 9 with h9 | h9
  · refine iff_of_false (fun h => ?_) (by omega)
    have hr : (m.frame ++ []).length < 2 ^ 63 := by
      simp
      omega
    have := h []
    simp only [AllOrNothing, processMessage_misjudged E w m hd (by omega) hr] at this
    simp at this
  · refine ⟨fun h => ⟨by omega, by omega, (allOrNothing_package_iff E w m hd h9 []).1 (h [])⟩, ?_⟩
    rintro ⟨-, -, hf⟩ rest
    exact (allOrNothing_package_iff E w m hd h9 rest).2 hf

/-- An archive frame of two records of one event each, the second of them number 2. -/
def twoEvents : TransportMessage :=
  ⟨TmCode.cArchiveData, [2, 0, 0, 0, 0, 0, 0, 0, 0, 3, 0, 0x0A, 1, 5, 3, 0, 0x0A, 1, 6], by decide⟩

def downloading (maxMessages : ℕ) : World :=
  { counterer := fun _ => none, backend := ⟨maxMessages, [], []⟩, controllerId := 7,
    protocolState := .processArchive }

theorem allOrNothing_room_for_two :
    AllOrNothing eventOnly (downloading 2) twoEvents [0xC0, 0x88] := by
  refine (allOrNothing_iff eventOnly (downloading 2) twoEvents (.inr ⟨rfl, by decide⟩)).2
    ⟨by decide, by decide, fun texts hi => .inl (.inr ?_)⟩ _
  have hs : Chain.split blockHeader twoEvents.imData = some [[0x0A, 1, 5], [0x0A, 1, 6]] :=
    Chain.split_join blockHeader [[0x0A, 1, 5], [0x0A, 1, 6]] (by decide)
  rw [infoMessages, hs, Outcome.returned.injEq] at hi
  subst hi
  decide +kernel

/-- A queue with room for one of them: it stays there, and the device will send both again. -/
theorem not_allOrNothing_room_for_one :
    ¬ AllOrNothing eventOnly (downloading 1) twoEvents [] := by
  have h1 : (processMessage eventOnly (downloading 1) (twoEvents.frame ++ [])).1
      = .threw .capacityExceeded := by
    decide +kernel
  have h2 : (processMessage eventOnly (downloading 1) (twoEvents.frame ++ [])).2.backend
      ≠ (downloading 1).backend := by
    decide +kernel
  rintro (⟨texts, -, h, -⟩ | ⟨e, -, h, -⟩)
  · exact absurd (h1.symm.trans h) (by simp)
  · exact h2 h

end Communicator
