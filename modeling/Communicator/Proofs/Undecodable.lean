import Communicator.Proofs.Grammar
import Communicator.Proofs.Kinds

/-!
# Blocks that do not parse

A block the protobuf parser refuses is only logged: the events of whatever message it left behind
are enqueued like any others, the frame is accepted and the counter moves past the record. It stays
unacknowledged only if something else stops the frame.
-/

namespace Communicator

variable (E : Env) (w : World) (f : Incoming)

/-- The loop over a package comes to a block, whole blocks lie before it. -/
def HasBlock (im block : List UInt8) : Prop :=
  ∃ before rest, im = chainOf before ++ (toLe 2 block.length ++ (block ++ rest))

/-- The block each message of a package comes from. -/
def origins (im : List UInt8) : List (List UInt8) :=
  ((Chain.split blockHeader im).getD []).flatMap fun b => (blockMessages E b).map fun _ => b

def Parses (block : List UInt8) : Prop := (E.parseFromArray block).1 = true

def newlyAccepted : ℕ :=
  (processMessage E w f.bytes).2.backend.accepted.length - w.backend.accepted.length

/-- What the handler of the frame sends. -/
def sentBy : List Request := (processMessage E w f.bytes).2.sent.drop w.sent.length

/-- A frame stores nothing of a block that does not parse, leaves its last message unacknowledged
and asks the device to delete nothing of it. -/
structure Withheld : Prop where
  ends : (processMessage E w f.bytes).1 ≠ .undefined
  decoded : ∀ b ∈ (origins E f.message.imData).take (newlyAccepted E w f), Parses E b
  kept : (processMessage E w f.bytes).2.getLastCounter w.controllerId = f.message.lastMesNumber →
    w.getLastCounter w.controllerId = f.message.lastMesNumber
  unsent : .deleteData f.message.lastMesNumber ∉ sentBy E w f

def World.room : ℕ := w.backend.maxMessages - w.backend.messages.length

/-- What stops a frame: a broken package, a queue that is full before the first event of a block
that does not parse, or that there is nothing to store of such blocks, nothing to acknowledge and
no deletion behind it. -/
def Stopped : Prop :=
  ∀ texts, infoMessages E f.message.imData = .returned texts →
    w.room < texts.length ∧ firstLabel f.message.lastMesNumber texts.length + w.room ≤ World.intMax
        ∧ (∀ b ∈ (origins E f.message.imData).take w.room, Parses E b)
      ∨ Takes w f.message texts ∧ (∀ b ∈ origins E f.message.imData, Parses E b)
        ∧ w.getLastCounter w.controllerId = f.message.lastMesNumber
        ∧ (f.message.cmd = TmCode.cCurrentData → f.message.lastMesNumber = 0)

variable {E w f}

theorem length_origins {im : List UInt8} {texts : List Text}
    (h : infoMessages E im = .returned texts) : (origins E im).length = texts.length := by
  unfold infoMessages at h
  rcases hs : Chain.split blockHeader im with _ | blocks <;> rw [hs] at h
  · simp at h
  · obtain rfl := Outcome.returned.inj h
    simp [origins, hs, List.length_flatMap]

/-- Where the queue ends the loop, the label of the message that did not fit was fine. -/
theorem enqueue_threw : ∀ (texts : List Text) (w : World) (first : ℤ) (i : ℕ) (e : Fault),
    (w.enqueue first i texts).1 = .threw e → first + i + w.room ≤ World.intMax
  | [], w, first, i, e, h => by simp [World.enqueue] at h
  | body :: rest, w, first, i, e, h => by
    rw [World.enqueue, World.label] at h
    by_cases hl : first + i ≤ World.intMax
    swap
    · simp [hl] at h
    rw [if_pos hl] at h
    rcases Nat.lt_or_ge w.backend.messages.length w.backend.maxMessages with hroom | hfull
    · simp only [BaseImpl.addMessage_room hroom] at h
      have ih := enqueue_threw rest _ first (i + 1) e h
      simp only [World.room, List.length_append, List.length_singleton] at ih ⊢
      push_cast at ih
      omega
    · simp only [World.room]
      omega

theorem handle_package_threw {m : TransportMessage} {texts : List Text} {e : Fault}
    (h : (w.handle (.package m texts)).1 = .threw e) :
    firstLabel m.lastMesNumber texts.length + w.room ≤ World.intMax := by
  have ht : (w.enqueue (firstLabel m.lastMesNumber texts.length) 0 texts).1 = .threw e := by
    rw [World.handle, World.takePackage] at h
    rcases he : w.enqueue (firstLabel m.lastMesNumber texts.length) 0 texts with ⟨_ | _ | _, w'⟩ <;>
      rw [he] at h
    · simp at h
    · simpa using h
    · simp at h
  have := enqueue_threw texts w _ 0 e ht
  simpa using this

section Package

variable {texts : List Text}

theorem withheld_taken (htk : Takes w f.message texts)
    (hk : processMessage E w f.bytes = w.handle (.package f.message texts))
    (hi : infoMessages E f.message.imData = .returned texts) :
    Withheld E w f ↔ (∀ b ∈ origins E f.message.imData, Parses E b)
      ∧ w.getLastCounter w.controllerId = f.message.lastMesNumber
      ∧ (f.message.cmd = TmCode.cCurrentData → f.message.lastMesNumber = 0) := by
  rw [handle_taken htk] at hk
  have hacc : newlyAccepted E w f = (origins E f.message.imData).length := by
    unfold newlyAccepted
    rw [hk, World.taken_shared, length_origins hi]
    simp [enqueued]
  have hlast : (processMessage E w f.bytes).2.getLastCounter w.controllerId
      = f.message.lastMesNumber := by
    rw [hk, World.getLastCounter, World.taken_shared]
    simp
  have hsent : .deleteData f.message.lastMesNumber ∉ sentBy E w f
      ↔ (f.message.cmd = TmCode.cCurrentData → f.message.lastMesNumber = 0) := by
    rw [sentBy, hk, World.taken_sent, List.drop_left]
    split_ifs with h
    · simpa using h
    · simpa using h
  constructor
  · rintro ⟨-, hdec, hkept, hunsent⟩
    rw [hacc, List.take_length] at hdec
    exact ⟨hdec, hkept hlast, hsent.1 hunsent⟩
  · rintro ⟨hdec, hpos, hnone⟩
    refine ⟨by rw [hk]; simp, ?_, fun _ => hpos, hsent.2 hnone⟩
    rwa [hacc, List.take_length]

theorem withheld_full {n : ℕ} (hn : n = w.room) (hlt : n < texts.length)
    (hp : processMessage E w f.bytes
      = (.threw .capacityExceeded, (w.push ((enqueued w f.message texts).take n)).stop)) :
    Withheld E w f ↔ ∀ b ∈ (origins E f.message.imData).take w.room, Parses E b := by
  have hacc : newlyAccepted E w f = w.room := by
    unfold newlyAccepted
    rw [hp]
    simp only [World.stop, World.push, BaseImpl.append_accepted, List.length_append,
      List.length_take, enqueued, length_labelled]
    omega
  have hlast : (processMessage E w f.bytes).2.getLastCounter w.controllerId
      = w.getLastCounter w.controllerId := by
    rw [hp]
    rfl
  have hsent : sentBy E w f = [] := by
    rw [sentBy, hp]
    exact List.drop_length
  rw [← hacc]
  exact ⟨Withheld.decoded, fun h => ⟨by rw [hp]; simp, h, fun hl => hlast ▸ hl, by simp [hsent]⟩⟩

/-- A package whose texts were made: either all of them are taken, or the queue or a label stops
the frame. -/
theorem withheld_package (hi : infoMessages E f.message.imData = .returned texts)
    (hpk : processMessage E w f.bytes = w.handle (.package f.message texts)) :
    Withheld E w f ↔ Stopped E w f := by
  have hst : Stopped E w f ↔ w.room < texts.length
        ∧ firstLabel f.message.lastMesNumber texts.length + w.room ≤ World.intMax
        ∧ (∀ b ∈ (origins E f.message.imData).take w.room, Parses E b)
      ∨ Takes w f.message texts ∧ (∀ b ∈ origins E f.message.imData, Parses E b)
        ∧ w.getLastCounter w.controllerId = f.message.lastMesNumber
        ∧ (f.message.cmd = TmCode.cCurrentData → f.message.lastMesNumber = 0) := by
    simp only [Stopped, hi, Outcome.returned.injEq, forall_eq']
  rw [hst]
  have hc := handle_package_cases w f.message texts
  by_cases htk : Takes w f.message texts
  · have hroom : ¬ w.room < texts.length := by
      rcases htk with rfl | ⟨h, -⟩
      · simp
      · simp only [World.room]
        omega
    rw [withheld_taken htk hpk hi]
    exact ⟨fun h => .inr ⟨htk, h⟩, fun h => (h.resolve_left fun h => hroom h.1).2⟩
  · rw [or_iff_left fun h => htk h.1]
    generalize hr : w.handle (.package f.message texts) = r at hc hpk
    cases hc with
    | taken takes => exact absurd takes htk
    | full n lt room full =>
      have hn : n = w.room := by
        simp only [World.room]
        omega
      have hsmall := handle_package_threw (e := .capacityExceeded) (by rw [hr])
      rw [withheld_full hn lt hpk]
      exact ⟨fun h => ⟨hn ▸ lt, hsmall, h⟩, fun h => h.2.2⟩
    | overflow n lt room large =>
      refine iff_of_false (fun h => h.ends (by rw [hpk])) ?_
      rintro ⟨-, hsmall, -⟩
      simp only [World.room] at hsmall
      omega

/-- A malformed package is refused with nothing accepted of it. -/
theorem withheld_refused {e : Fault} (hpk : processMessage E w f.bytes = w.handle (.refused e)) :
    Withheld E w f := by
  have hnew : newlyAccepted E w f = 0 := by
    unfold newlyAccepted
    rw [hpk]
    exact Nat.sub_self _
  have hsent : sentBy E w f = [] := by
    rw [sentBy, hpk]
    exact List.drop_length
  refine ⟨by rw [hpk]; simp [World.handle], by simp [hnew], fun h => ?_, by simp [hsent]⟩
  rw [hpk] at h
  exact h

end Package

/-- A data frame with a block that does not parse is kept from being acknowledged exactly if
something else stops it. -/
theorem withheld_iff (E : Env) (w : World) (f : Incoming) (hd : f.IsData)
    (hb : ∃ b, HasBlock f.message.imData b ∧ ¬ Parses E b) : Withheld E w f ↔ Stopped E w f := by
  have h9 : 9 ≤ f.message.data.length := by
    obtain ⟨b, ⟨before, rest, him⟩, -⟩ := hb
    have hlen := imData_length f.message
    have : 0 < f.message.imData.length := by
      rw [him]
      simp
    omega
  have hpk := processMessage_packageKind E w f hd h9
  rcases hi : infoMessages E f.message.imData with texts | e | _
  · have hkind : f.packageKind E = .package f.message texts := by
      simp only [Incoming.packageKind, hi]
    exact withheld_package hi (hkind ▸ hpk)
  · have hkind : f.packageKind E = .refused e := by
      simp only [Incoming.packageKind, hi]
    refine iff_of_true (withheld_refused (hkind ▸ hpk)) fun texts ht => ?_
    simp [hi] at ht
  · exact absurd hi (infoMessages_ne_undefined E _)

/-! A record that is no message at all, between frames of a known controller. -/

def undecodable : TransportMessage :=
  ⟨TmCode.cArchiveData, [5, 0, 0, 0, 0, 0, 0, 0, 0, 1, 0, 0xFF], by decide⟩

theorem undecodable_block : ∃ b, HasBlock undecodable.imData b ∧ ¬ Parses eventOnly b :=
  ⟨[0xFF], ⟨[], [], rfl⟩, by simp [Parses, eventOnly]⟩

/-- The frame was accepted before and comes again. -/
def upToFive : World :=
  { downloading 10 with counterer := Function.update (fun _ => none) 7 (some 5) }

theorem withheld_again : Withheld eventOnly upToFive (.alone undecodable) := by
  refine (withheld_iff eventOnly upToFive (.alone undecodable) (.inr rfl) undecodable_block).2 ?_
  have hs : Chain.split blockHeader undecodable.imData = some [[0xFF]] :=
    split_imData_iff.2 rfl
  have ho : origins eventOnly undecodable.imData = [] := by
    rw [origins, hs]
    rfl
  intro texts ht
  have hlen : texts.length = 0 := by
    rw [← length_origins ht]
    exact congrArg List.length ho
  refine .inr ⟨.inl (List.length_eq_zero_iff.1 hlen), fun b hb => ?_, by decide +kernel,
    fun h => absurd h (by decide)⟩
  rw [show origins eventOnly (Incoming.alone undecodable).message.imData = [] from ho] at hb
  simp at hb

/-- The counter of controller 7 moves past a record nothing was stored of. -/
theorem not_withheld_undecodable :
    (∃ b, HasBlock undecodable.imData b ∧ ¬ Parses eventOnly b)
      ∧ ¬ Withheld eventOnly (downloading 10) (.alone undecodable) := by
  refine ⟨undecodable_block, fun h => ?_⟩
  exact absurd (h.kept (by decide +kernel)) (by decide +kernel)

end Communicator
