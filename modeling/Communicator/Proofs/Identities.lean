import Communicator.Proofs.Kinds

/-!
# Who sends

A connection says which controller it is by an identification, and its records are put down to the
last one before them. So who a connection is follows from the messages it was sent
(`Server.step_identity`).
-/

namespace Communicator

/-- The controller and the firmware that an identification names. One that is too short for its
firmware has the first bytes of its checksum taken for the rest. -/
def TransportMessage.identity (m : TransportMessage) : Option (UInt32 × UInt32) :=
  if m.cmd = TmCode.cControllerIdent ∧ 6 ≤ m.data.length then
    some (UInt32.ofNat ((ControllerIdent.controllerId.read m.frame).getD 0),
      UInt32.ofNat ((ControllerIdent.firmwareVersion.read m.frame).getD 0))
  else none

def Session.identity (c : Session) : UInt32 × UInt32 := (c.controllerId, c.firmwareVersion)

def identityAfter (who : UInt32 × UInt32) (msgs : List TransportMessage) : UInt32 × UInt32 :=
  msgs.foldl (fun who m => m.identity.getD who) who

/-- Each message with the last identification before it. -/
def identified (who : UInt32 × UInt32) :
    List TransportMessage → List ((UInt32 × UInt32) × TransportMessage)
  | [] => []
  | m :: msgs => (who, m) :: identified (m.identity.getD who) msgs

theorem identityAfter_concat (who : UInt32 × UInt32) (msgs : List TransportMessage)
    (m : TransportMessage) :
    identityAfter who (msgs ++ [m]) = m.identity.getD (identityAfter who msgs) := by
  rw [identityAfter, List.foldl_append]
  rfl

theorem identified_concat : ∀ (msgs : List TransportMessage) (who : UInt32 × UInt32)
    (m : TransportMessage),
    identified who (msgs ++ [m]) = identified who msgs ++ [(identityAfter who msgs, m)]
  | [], _, _ => rfl
  | _ :: msgs, _, m => congrArg _ (identified_concat msgs _ m)

/-- The identification is read in the frame alone, whatever follows it in the buffer. -/
theorem Incoming.identity_eq {f : Incoming} :
    f.message.identity
      = if f.Identifies then some (f.controllerId, f.firmwareVersion) else none := by
  unfold TransportMessage.identity
  by_cases h : f.Identifies
  · have h6 := (Incoming.identifies_iff.1 h).2
    have hread : ∀ m : Member, m.offset + m.size ≤ 12 →
        m.read f.bytes = m.read f.message.frame := by
      intro m hm
      have hle : m.offset + m.size ≤ f.message.frame.length := by
        rw [frame_length]
        omega
      exact congrArg (Option.map le) (bytesAt_append hle f.rest)
    rw [if_pos h, if_pos (Incoming.identifies_iff.1 h), Incoming.controllerId,
      Incoming.firmwareVersion, hread _ (by decide), hread _ (by decide)]
  · rw [if_neg h, if_neg fun h' => h (Incoming.identifies_iff.2 h')]

theorem World.start_identity (w : World) : w.start.identity = w.identity := by
  unfold World.start
  split
  · rfl
  · rw [World.sendDelete_eq]
    rfl

theorem World.confirmed_identity (w : World) : w.confirmed.identity = w.identity := by
  unfold World.confirmed
  split <;> rfl

theorem World.taken_identity {w : World} {m : TransportMessage} {texts : List Text} :
    (w.taken m texts).identity = w.identity := by
  unfold World.taken World.settle
  split
  · rw [World.sendDelete_eq]
    rfl
  · rfl

theorem handle_identity {E : Env} {w : World} {f : Incoming}
    (h : (w.handle (f.kind E)).1 ≠ .undefined) :
    (w.handle (f.kind E)).2.identity = f.message.identity.getD w.identity := by
  rw [Incoming.identity_eq]
  by_cases hi : f.Identifies
  · rw [if_pos hi, Incoming.kind_of_identifies hi]
    exact World.start_identity _
  rw [if_neg hi]
  have hk := f.kind_cases E
  generalize f.kind E = kind at hk h
  cases hk with
  | ident identifies => exact absurd identifies hi
  | confirm => exact World.confirmed_identity w
  | archiveEnd =>
    rw [World.handle, World.archiveEnded_eq]
    rfl
  | package texts =>
    have hc := handle_package_cases w f.message texts
    generalize w.handle (.package f.message texts) = r at hc h
    cases hc with
    | taken => exact World.taken_identity
    | full => rfl
    | overflow => exact absurd rfl h
  | refused e => rfl
  | misjudged => exact absurd rfl h
  | ignored => rfl

section Steps

variable {κ : Type} [DecidableEq κ] {E : Env} {k : κ} {t t' : Server κ}

/-- Whatever its handler does, a connection is who the frame says, or who it was. -/
theorem Server.step_identity {f : Incoming} (hs : t.step E (.frame k f) = some t') :
    (t'.sessions k).identity = f.message.identity.getD (t.sessions k).identity := by
  rw [Server.step, processMessage_kind] at hs
  have hid := handle_identity (E := E) (w := t.world k) (f := f)
  rcases hr : (t.world k).handle (f.kind E) with ⟨_ | e | _, w⟩ <;> rw [hr] at hs hid
  · obtain rfl := Option.some.inj hs
    rw [Server.put_sessions]
    exact hid (by simp)
  · obtain rfl := Option.some.inj hs
    rw [Server.put_sessions]
    exact hid (by simp)
  · cases hs

end Steps

end Communicator
