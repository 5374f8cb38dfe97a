import Communicator.Proofs.Frames

/-!
# Reading no further than the data

`check_length` counts the two bytes of the checksum as data, so it lets through an identification
of six or seven bytes and a data frame of seven or eight: the last members lie in the checksum or
behind it, and the length of the package wraps round. At every other length a handler reads its
own frame's data only, and does the same whatever follows.
-/

namespace Communicator

open TransportHeader

/-- The structure a handler takes a frame for, as its size and the members it reads. -/
def castTo (cmd : UInt8) : Option (ℕ × List Member) :=
  if cmd = TmCode.cControllerIdent then
    some (ControllerIdent.sizeof, [ControllerIdent.controllerId, ControllerIdent.firmwareVersion])
  else if cmd = TmCode.cCurrentData ∨ cmd = TmCode.cArchiveData then
    some (DataResponse.sizeof,
      [DataResponse.lastMesNumber, DataResponse.firstMesTime, DataResponse.priority])
  else none

structure ReadsOwnData (E : Env) (m : TransportMessage) : Prop where
  members : ∀ n fs t, castTo m.cmd = some (n, fs) → checkLength n (m.bytes ++ t) = true →
    ∀ f ∈ fs, 4 ≤ f.offset ∧ f.offset + f.size ≤ 4 + m.data.length
  imLength : m.IsData → ∀ t, checkLength DataResponse.sizeof (m.bytes ++ t) = true →
    (DataResponse.getImLength (m.bytes ++ t) : ℤ) = m.data.length - 9
  package : m.IsData → checkLength DataResponse.sizeof m.frame = true →
    parseInfoPackage E m.frame ≠ .undefined
  effects : ∀ (w : World) (h l h' l' : UInt8) (rest rest' : List UInt8),
    checkCrc (m.bytes ++ h :: l :: rest) = true → checkCrc (m.bytes ++ h' :: l' :: rest') = true →
      processMessage E w (m.bytes ++ h :: l :: rest)
        = processMessage E w (m.bytes ++ h' :: l' :: rest')

/-- The lengths `check_length` should refuse. -/
def TransportMessage.Misjudged (m : TransportMessage) : Prop :=
  m.cmd = TmCode.cControllerIdent ∧ (m.data.length = 6 ∨ m.data.length = 7)
    ∨ m.IsData ∧ (m.data.length = 7 ∨ m.data.length = 8)

section

variable (E : Env) (w : World) {m : TransportMessage} {t t' : List UInt8}

theorem processMessage_congr (hm : ¬ m.Misjudged) (ht : t ≠ []) (ht' : t' ≠ []) :
    processMessage E w (m.bytes ++ t) = processMessage E w (m.bytes ++ t') := by
  simp only [TransportMessage.Misjudged, TransportMessage.IsData, not_or, not_and] at hm
  obtain ⟨hi, hd⟩ := hm
  by_cases h1 : m.cmd = TmCode.cControllerIdent
  · rw [processMessage_ident E w h1, processMessage_ident E w h1]
    rcases Nat.lt_or_ge m.data.length 6 with h6 | h6
    · rw [processControllerIdent_short w h6, processControllerIdent_short w h6]
    · have h8 : 8 ≤ m.data.length := by
        have := hi h1
        omega
      rw [processControllerIdent_bytes w h8, processControllerIdent_bytes w h8]
  by_cases h2 : m.cmd = TmCode.cCurrentData
  · rw [processMessage_current E w h2, processMessage_current E w h2]
    rcases Nat.lt_or_ge m.data.length 7 with h7 | h7
    · rw [processCurrentData_short E w h7, processCurrentData_short E w h7]
    · have h9 : 9 ≤ m.data.length := by
        have := hd (.inl h2)
        omega
      rw [processCurrentData_bytes E w h9 ht, processCurrentData_bytes E w h9 ht']
  by_cases h3 : m.cmd = TmCode.cArchiveData
  · rw [processMessage_archive E w h3, processMessage_archive E w h3]
    by_cases h0 : m.data.length = 0
    · rw [processArchiveData_empty E w h0, processArchiveData_empty E w h0]
    rcases Nat.lt_or_ge m.data.length 7 with h7 | h7
    · rw [processArchiveData_short E w h0 h7, processArchiveData_short E w h0 h7]
    · have h9 : 9 ≤ m.data.length := by
        have := hd (.inr h3)
        omega
      rw [processArchiveData_bytes E w h9 ht, processArchiveData_bytes E w h9 ht']
  · rw [processMessage_other E w h1 h2 h3, processMessage_other E w h1 h2 h3]

theorem members_inside (hm : ¬ m.Misjudged) {n : ℕ} {fs : List Member}
    (hc : castTo m.cmd = some (n, fs)) (hl : checkLength n (m.bytes ++ t) = true) :
    ∀ f ∈ fs, 4 ≤ f.offset ∧ f.offset + f.size ≤ 4 + m.data.length := by
  simp only [TransportMessage.Misjudged, not_or, not_and] at hm
  obtain ⟨hi, hd⟩ := hm
  rw [checkLength_bytes] at hl
  intro f hf
  unfold castTo at hc
  split_ifs at hc with h1 h2 <;> simp only [Option.some.injEq, Prod.mk.injEq] at hc <;>
    obtain ⟨rfl, rfl⟩ := hc
  · have := hi h1
    simp only [ControllerIdent.sizeof] at hl
    rcases List.mem_pair.1 hf with rfl | rfl <;>
      simp [ControllerIdent.controllerId, ControllerIdent.firmwareVersion] <;> omega
  · have := hd h2
    simp only [DataResponse.sizeof] at hl
    simp only [List.mem_cons, List.not_mem_nil, or_false] at hf
    rcases hf with rfl | rfl | rfl <;>
      simp [DataResponse.lastMesNumber, DataResponse.firstMesTime, DataResponse.priority] <;>
      omega

/-- Where `check_length` misjudges no data frame, it refuses those of less than nine bytes. -/
theorem nine_le_of_checkLength (hm : ¬ m.Misjudged) (hd : m.IsData)
    (hl : checkLength DataResponse.sizeof (m.bytes ++ t) = true) : 9 ≤ m.data.length := by
  simp only [TransportMessage.Misjudged, not_or, not_and] at hm
  rw [checkLength_bytes, DataResponse.sizeof] at hl
  have := hm.2 hd
  omega

end

/-- A handler reads its own frame's data exactly if the frame's length is none of those
`check_length` misjudges. The lines that handlers write to the log are no part of the model; that of
a delete confirmation prints a number of the message without a check. -/
theorem readsOwnData_iff (E : Env) (m : TransportMessage) :
    ReadsOwnData E m ↔ ¬ m.Misjudged := by
  constructor
  · rintro h (⟨hc, hl⟩ | ⟨hd, hl⟩)
    · have := h.members _ _ [] (if_pos hc)
        ((checkLength_bytes _ m []).2 (by simp [ControllerIdent.sizeof]; omega))
        ControllerIdent.firmwareVersion (by simp)
      simp [ControllerIdent.firmwareVersion] at this
      omega
    · have := h.imLength hd [] ((checkLength_bytes _ m []).2 (by simp [DataResponse.sizeof]; omega))
      omega
  · intro hm
    refine ⟨fun n fs t => members_inside hm, fun hd t hl => ?_, fun hd hl => ?_, ?_⟩
    · have h9 := nine_le_of_checkLength hm hd hl
      rw [getImLength_bytes m t h9]
      omega
    · have h9 := nine_le_of_checkLength hm hd hl
      rw [TransportMessage.frame, parseInfoPackage_bytes E m h9 (by
        simp [TransportMessage.trailer])]
      exact infoMessages_ne_undefined E _
    · intro w h l h' l' rest rest' _ _
      exact processMessage_congr E w hm (by simp) (by simp)

/-- A current-data frame of seven bytes: the package starts where the frame ends. -/
theorem not_readsOwnData_seven :
    ¬ ReadsOwnData eventOnly ⟨TmCode.cCurrentData, List.replicate 7 0, by decide⟩ := by
  intro h
  exact h.package (.inl rfl) (by decide +kernel) (by decide +kernel)

end Communicator
