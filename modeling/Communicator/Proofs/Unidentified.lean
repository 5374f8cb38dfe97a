import Communicator.Proofs.Kinds

/-!
# Frames of an unidentified peer

Only the handler of a confirmation looks at `protocol_state_`. A data frame on a connection that
has not identified itself is taken for controller 0: its messages are enqueued and the counter of 0
is written, unless the frame is refused or the queue is full.
-/

namespace Communicator

variable {κ : Type} [DecidableEq κ] (E : Env) (k : κ)

/-- A frame of `k` leaves the queue, the counters and what was sent to the peer as they are. -/
def Untouched (s : Server κ) : ServerEvent κ → Prop
  | .frame j f => j = k → ∃ s', s.step E (.frame j f) = some s' ∧ s'.shared = s.shared
      ∧ (s'.sessions k).sent = (s.sessions k).sent
  | .take => True

/-- The frames whose handlers find nothing to do for controller 0. -/
def Kind.Harmless (s : Shared) : Kind → Prop
  | .archiveEnd => (s.counterer 0).getD 0 = 0
  | .package m texts =>
    if texts = [] then
      s.counterer 0 = some m.lastMesNumber ∧ (m.cmd = TmCode.cCurrentData → m.lastMesNumber = 0)
    else s.backend.maxMessages ≤ s.backend.messages.length
  | .misjudged => False
  | _ => True

def Harmless (s : Server κ) : ServerEvent κ → Prop
  | .frame j f => j = k → (f.kind E).Harmless s.shared
  | .take => True

/-- A session without an identification, empty archive frames before or not. -/
structure Session.Unidentified (u : Session) : Prop where
  controllerId : u.controllerId = 0
  not_waiting : u.protocolState ≠ .waitInitialDeleteConfirm

variable {E k} {s : Server κ}

theorem unidentified_step {f : Incoming} {j : κ} {s' : Server κ}
    (h : (s.sessions k).Unidentified) (hn : j = k → ¬ f.Identifies)
    (hs : s.step E (.frame j f) = some s') : (s'.sessions k).Unidentified := by
  rcases eq_or_ne j k with rfl | hj
  swap
  · rw [Server.step_of_ne hj.symm hs]
    exact h
  have hid := h.controllerId
  have hst := h.not_waiting
  cases Server.step_cases hs with
  | ident hi => exact absurd hi (hn rfl)
  | confirm hc =>
    rw [World.confirmed_of_ne hst, Server.put_sessions]
    exact h
  | archiveEnd =>
    rw [World.archiveEnded_eq, Server.put_sessions]
    exact ⟨hid, by simp⟩
  | taken texts =>
    rw [Server.put_sessions]
    refine ⟨World.taken_controllerId.trans hid, ?_⟩
    rw [World.taken_protocolState]
    split
    · simp
    · exact hst
  | full =>
    rw [Server.put_sessions]
    exact ⟨hid, hst⟩
  | refused =>
    rw [Server.put_sessions]
    exact ⟨hid, hst⟩
  | ignored =>
    rw [Server.put_sessions]
    exact h

section Frame

variable {w : World} {m : TransportMessage} {texts : List Text}

/-- A handler's call left the shared state and what was sent as they were. -/
def Quiet (w : World) (r : Outcome Unit × World) : Prop :=
  r.1 ≠ .undefined ∧ r.2.toShared = w.toShared ∧ r.2.sent = w.sent

theorem quiet_archiveEnded (hid : w.controllerId = 0) :
    Quiet w (.returned (), w.archiveEnded) ↔ (w.counterer 0).getD 0 = 0 := by
  simp only [Quiet, World.archiveEnded_eq, List.append_right_eq_self, World.deletion,
    World.getLastCounter, hid]
  split_ifs with h0 <;> simp [h0]

theorem quiet_taken_nil (hid : w.controllerId = 0) :
    Quiet w (.returned (), w.taken m []) ↔ w.counterer 0 = some m.lastMesNumber
      ∧ (m.cmd = TmCode.cCurrentData → m.lastMesNumber = 0) := by
  have hs : (w.taken m []).toShared = w.toShared ↔ w.counterer 0 = some m.lastMesNumber := by
    rw [World.taken_shared, hid]
    constructor
    · intro h
      have hc := congrFun (congrArg Shared.counterer h) 0
      simp only [Function.update_self] at hc
      exact hc.symm
    · intro h
      rw [← h, Function.update_eq_self, enqueued, labelled, BaseImpl.append_nil]
  rw [Quiet, hs, World.taken_sent, List.append_right_eq_self]
  constructor
  · rintro ⟨-, h1, h2⟩
    refine ⟨h1, fun hc => ?_⟩
    by_contra hl
    rw [if_pos ⟨hc, hl⟩] at h2
    simp at h2
  · rintro ⟨h1, h2⟩
    exact ⟨by simp, h1, if_neg fun hc => hc.2 (h2 hc.1)⟩

/-- A package with messages leaves the queue alone only if it is full. -/
theorem quiet_package_iff (hne : texts ≠ []) :
    Quiet w (w.handle (.package m texts)) ↔ w.backend.maxMessages ≤ w.backend.messages.length := by
  have hlen := List.length_pos_iff.2 hne
  have hle := firstLabel_le m.lastMesNumber texts.length
  have hc := handle_package_cases w m texts
  generalize w.handle (.package m texts) = r at hc
  cases hc with
  | taken takes =>
    refine ⟨fun hq => ?_, fun h => ?_⟩
    · have h := hq.2.1
      rw [World.taken_shared] at h
      have := congrArg (fun b : Shared => b.backend.messages.length) h
      simp [enqueued, hne] at this
    · have := (takes.resolve_left hne).1
      omega
  | full n lt room full =>
    refine ⟨fun hq => ?_, fun h => ?_⟩
    · have := congrArg (fun b : Shared => b.backend.messages.length) hq.2.1
      simp only [World.stop, World.push, BaseImpl.append_messages, List.length_append,
        List.length_take, enqueued, length_labelled] at this
      omega
    · obtain rfl : n = 0 := by
        by_contra hn
        have := room (Nat.pos_of_ne_zero hn)
        omega
      rw [List.take_zero, World.push_nil]
      exact ⟨by simp, rfl, rfl⟩
  | overflow n lt room large =>
    refine ⟨fun hq => absurd rfl hq.1, fun h => ?_⟩
    obtain rfl : n = 0 := by omega
    omega

theorem quiet_iff_harmless {kd : Kind} (h : w.toSession.Unidentified)
    (hn : ∀ id firmware, kd ≠ .ident id firmware) :
    Quiet w (w.handle kd) ↔ kd.Harmless w.toShared := by
  cases kd with
  | ident id firmware => exact absurd rfl (hn id firmware)
  | confirm =>
    rw [World.handle, World.confirmed_of_ne h.not_waiting]
    exact iff_of_true ⟨by simp, rfl, rfl⟩ trivial
  | archiveEnd => exact quiet_archiveEnded h.controllerId
  | package m texts =>
    rcases eq_or_ne texts [] with rfl | hne
    · rw [handle_taken (.inl rfl), Kind.Harmless, if_pos rfl]
      exact quiet_taken_nil h.controllerId
    · rw [Kind.Harmless, if_neg hne]
      exact quiet_package_iff hne
  | refused e => exact iff_of_true ⟨by simp [World.handle], rfl, rfl⟩ trivial
  | misjudged => exact iff_of_false (fun h => h.1 rfl) id
  | ignored => exact iff_of_true ⟨by simp [World.handle], rfl, rfl⟩ trivial

end Frame

theorem untouched_iff_quiet {f : Incoming} : Untouched E k s (.frame k f)
    ↔ Quiet (s.world k) ((s.world k).handle (f.kind E)) := by
  simp only [Untouched, forall_const, Server.step, processMessage_kind, Quiet]
  rcases (s.world k).handle (f.kind E) with ⟨_ | _ | _, w⟩ <;> simp [Server.world]

theorem untouched_iff_harmless {e : ServerEvent κ} (h : (s.sessions k).Unidentified)
    (hn : ∀ f, e = .frame k f → ¬ f.Identifies) : Untouched E k s e ↔ Harmless E k s e := by
  cases e with
  | take => exact Iff.rfl
  | frame j f =>
    rcases eq_or_ne j k with rfl | hj
    · rw [untouched_iff_quiet]
      have hk : ∀ id firmware, f.kind E ≠ .ident id firmware := by
        intro id firmware hk
        have hc := f.kind_cases E
        rw [hk] at hc
        cases hc with
        | ident hi => exact hn f rfl hi
      exact (quiet_iff_harmless h hk).trans ⟨fun h _ => h, fun h => h rfl⟩
    · exact iff_of_true (fun h => absurd h hj) fun h => absurd h hj

/-- Nothing is taken from a new connection before it identifies itself exactly as long as its
frames are harmless. -/
theorem along_untouched_iff (E : Env) (k : κ) (s : Server κ) (h : s.sessions k = {})
    (es : List (ServerEvent κ)) (hn : ∀ f, .frame k f ∈ es → ¬ f.Identifies) :
    Lts.Along (Server.step E) (Untouched E k) s es
      ↔ Lts.Along (Server.step E) (Harmless E k) s es := by
  have h0 : (s.sessions k).Unidentified := by
    rw [h]
    exact ⟨rfl, by simp⟩
  refine Lts.along_congr (I := fun s => (s.sessions k).Unidentified)
    (Q := fun e => ∀ f, e = .frame k f → ¬ f.Identifies) ?_ (fun _ _ => untouched_iff_harmless) h0
    (fun e he f hf => hn f (hf ▸ he))
  intro s e s' h hn _ hs
  cases e with
  | take =>
    obtain rfl := Option.some.inj hs
    exact h
  | frame j f => exact unidentified_step h (fun hj => hn f (hj ▸ rfl)) hs

theorem along_untouched_confirmation : Lts.Along (Server.step eventOnly) (Untouched eventOnly ())
    (newServer 10) [.frame () (.alone confirmation)] := by
  have hc : (Incoming.alone confirmation).IsConfirm := rfl
  refine (along_untouched_iff eventOnly () (newServer 10) rfl _ ?_).2
    ⟨fun _ => ?_, fun _ _ => trivial⟩
  · simp [Incoming.Identifies, Incoming.alone, confirmation, TmCode.cDeleteConfirm,
      TmCode.cControllerIdent]
  · rw [Incoming.kind_of_isConfirm hc]
    trivial

/-- Two records of an unidentified peer are stored for controller 0. -/
theorem not_along_untouched_archive :
    (∀ f, ServerEvent.frame () f ∈ [ServerEvent.frame () (.alone twoEvents)] → ¬ f.Identifies)
      ∧ ¬ Lts.Along (Server.step eventOnly) (Untouched eventOnly ()) (newServer 10)
        [.frame () (.alone twoEvents)] := by
  refine ⟨?_, fun h => ?_⟩
  · simp [Incoming.Identifies, Incoming.alone, twoEvents, TmCode.cArchiveData,
      TmCode.cControllerIdent]
  · obtain ⟨s', hs, hsh, -⟩ := h.1 rfl
    have ha : ((newServer 10).step eventOnly (.frame () (.alone twoEvents))).map
        (fun s => s.shared.backend.accepted.length) = some 2 := by
      decide +kernel
    rw [hs, Option.map_some, hsh] at ha
    simp [newServer, Server.start] at ha

end Communicator
