import Communicator.Proofs.Kinds

/-!
# What a deletion acknowledges

A deletion names the counter of the connection's controller, and the counter is either the one
loaded or was written by the frame accepted last for this controller, after every message of its
package had gone into the queue (`Recorded`). Frames that were refused in the middle, identifying
again and other connections change nothing about that.
-/

namespace Communicator

/-- The data frame accepted last for a controller, on any connection. -/
def latest (c : UInt32) (received : List Acceptance) : Option Acceptance :=
  (received.filter (·.controllerId = c)).getLast?

/-- The messages of an accepted frame, where the queue took them. -/
def Acceptance.Enqueued (a : Acceptance) (accepted : List InfoMessage) : Prop :=
  ∃ before msgs after, accepted = before ++ msgs ++ after ∧ before.length = a.before
    ∧ msgs.map (·.body) = a.texts ∧ ∀ x ∈ msgs, x.controlId = a.controllerId

/-- What `get_last_counter` finds. -/
def Shared.position (s : Shared) (c : UInt32) : UInt32 := (s.counterer c).getD 0

section Definitions

variable {κ : Type} (E : Env) (loaded : Shared)

/-- Every deletion sent in a step: `w` is what its handler had done when it was sent. -/
def Justified [DecidableEq κ] (s : Server κ) (e : ServerEvent κ) : Prop :=
  ∀ s' ∈ s.step E e, ∀ k n new, (s'.sessions k).sent = (s.sessions k).sent ++ new →
    .deleteData n ∈ new → ∃ (w : World) (st : ProtocolState),
      s'.world k = (w.send (.deleteData n)).setProtocolState st ∧ w.sent = (s.sessions k).sent
        ∧ n ≠ 0 ∧ w.counterer w.controllerId = some n
        ∧ (latest w.controllerId s'.received = none ∧ loaded.counterer w.controllerId = some n
          ∨ ∃ a, latest w.controllerId s'.received = some a ∧ a.last = n
            ∧ a.Enqueued w.backend.accepted)

/-- Where the counters come from. -/
def Recorded (s : Server κ) : Prop :=
  ∀ c, latest c s.received = none ∧ s.shared.counterer c = loaded.counterer c
    ∨ ∃ a, latest c s.received = some a ∧ s.shared.counterer c = some a.last
      ∧ a.Enqueued s.shared.backend.accepted

end Definitions

theorem latest_append (c : UInt32) (received : List Acceptance) (a : Acceptance) :
    latest c (received ++ [a]) = if a.controllerId = c then some a else latest c received := by
  by_cases h : a.controllerId = c <;> simp [latest, h]

theorem Acceptance.Enqueued.append {a : Acceptance} {accepted : List InfoMessage}
    (h : a.Enqueued accepted) (more : List InfoMessage) : a.Enqueued (accepted ++ more) := by
  obtain ⟨before, msgs, after, rfl, h1, h2, h3⟩ := h
  exact ⟨before, msgs, after ++ more, by simp, h1, h2, h3⟩

theorem enqueued_acceptance (w : World) (m : TransportMessage) (texts : List Text) :
    (w.acceptance m texts).Enqueued (w.backend.accepted ++ enqueued w m texts) :=
  ⟨w.backend.accepted, enqueued w m texts, [], by simp, rfl, map_body_labelled ..,
    controlId_labelled _ _ _ _⟩

variable {κ : Type} {E : Env} {loaded : Shared} {s s' : Server κ} {k : κ} {f : Incoming}

theorem Recorded.of_shared (h : Recorded loaded s) {more : List InfoMessage}
    (hr : s'.received = s.received) (hc : s'.shared.counterer = s.shared.counterer)
    (ha : s'.shared.backend.accepted = s.shared.backend.accepted ++ more) :
    Recorded loaded s' := by
  intro c
  rw [hr, hc, ha]
  rcases h c with h | ⟨a, h1, h2, h3⟩
  · exact .inl h
  · exact .inr ⟨a, h1, h2, h3.append more⟩

variable [DecidableEq κ]

theorem Recorded.taken (h : Recorded loaded s) (texts : List Text) :
    Recorded loaded (s.put k ((s.world k).taken f.message texts)
      [(s.world k).acceptance f.message texts]) := by
  intro c
  have hr : (s.put k ((s.world k).taken f.message texts)
      [(s.world k).acceptance f.message texts]).received
      = s.received ++ [(s.world k).acceptance f.message texts] := rfl
  rw [Server.put_shared, World.taken_shared, hr, latest_append]
  simp only [BaseImpl.append_accepted]
  by_cases hc : (s.world k).controllerId = c
  · refine .inr ⟨_, if_pos hc, ?_, enqueued_acceptance _ _ _⟩
    rw [← hc, Function.update_self]
    rfl
  · have hc' : ((s.world k).acceptance f.message texts).controllerId ≠ c := hc
    rw [if_neg hc', Function.update_of_ne (Ne.symm hc)]
    rcases h c with h | ⟨a, h1, h2, h3⟩
    · exact .inl h
    · exact .inr ⟨a, h1, h2, h3.append _⟩

/-- Only accepting a frame writes a counter. -/
theorem Server.step_counterer {e : ServerEvent κ} (hs : s.step E e = some s') :
    (s'.received = s.received ∧ s'.shared.counterer = s.shared.counterer
        ∧ ∃ more, s'.shared.backend.accepted = s.shared.backend.accepted ++ more)
      ∨ ∃ k f texts, e = .frame k f ∧ f.kind E = .package f.message texts
        ∧ Takes (s.world k) f.message texts ∧ s' = s.put k ((s.world k).taken f.message texts)
          [(s.world k).acceptance f.message texts] := by
  have hsame : ∀ (k : κ) (w : World), w.toShared = s.shared →
      (s.put k w []).received = s.received
        ∧ (s.put k w []).shared.counterer = s.shared.counterer
        ∧ ∃ more, (s.put k w []).shared.backend.accepted
          = s.shared.backend.accepted ++ more := by
    intro k w hw
    exact ⟨List.append_nil _, congrArg Shared.counterer hw, [],
      (congrArg (·.backend.accepted) hw).trans (List.append_nil _).symm⟩
  cases e with
  | take =>
    obtain rfl := Option.some.inj hs
    exact .inl ⟨rfl, rfl, [], (List.append_nil _).symm⟩
  | frame k f =>
    cases Server.step_cases hs with
    | ident hi => exact .inl (hsame k _ (World.start_shared _))
    | confirm => exact .inl (hsame k _ (World.confirmed_shared _))
    | archiveEnd => exact .inl (hsame k _ (World.archiveEnded_shared _))
    | taken texts kind takes => exact .inr ⟨k, f, texts, rfl, kind, takes, rfl⟩
    | full texts n => exact .inl ⟨List.append_nil _, rfl, _, rfl⟩
    | refused => exact .inl (hsame k _ rfl)
    | ignored => exact .inl (hsame k _ rfl)

theorem Recorded.step {e : ServerEvent κ} (h : Recorded loaded s) (hs : s.step E e = some s') :
    Recorded loaded s' := by
  rcases Server.step_counterer hs with ⟨hr, hc, more, ha⟩ | ⟨k, f, texts, -, -, -, rfl⟩
  · exact h.of_shared hr hc ha
  · exact h.taken texts

/-- The frames that are answered by a request, and the controller it is for. -/
def Requests {κ : Type} (s : Server κ) : ServerEvent κ → UInt32 → Prop
  | .frame k f, c =>
    f.Identifies ∧ c = f.controllerId ∧ s.shared.position c = 0
      ∨ f.IsConfirm ∧ c = (s.sessions k).controllerId
        ∧ (s.sessions k).protocolState = .waitInitialDeleteConfirm
  | .take, _ => False

def requestAfter (p : UInt32) : UInt32 := if p ≠ 0 then p + 1 else p

inductive Sending (s : Server κ) (k : κ) (f : Incoming) (s' : Server κ) : Prop
  | nothing (same : (s'.sessions k).sent = (s.sessions k).sent)
  | deletion (w : World) (st : ProtocolState)
    (world : s'.world k = w.sendDelete.setProtocolState st)
    (sent : w.sent = (s.sessions k).sent)
  | request (requests : Requests s (.frame k f) (s'.sessions k).controllerId)
    (asks : (s'.sessions k).sent = (s.sessions k).sent
      ++ [.dataRequest (requestAfter (s.shared.position (s'.sessions k).controllerId))])

theorem Server.step_sending (hs : s.step E (.frame k f) = some s') : Sending s k f s' := by
  cases Server.step_cases hs with
  | ident hi =>
    generalize hw : (s.world k).identify f.controllerId f.firmwareVersion = w at *
    have hid : w.controllerId = f.controllerId := hw ▸ rfl
    have hsent : w.sent = (s.sessions k).sent := hw ▸ rfl
    have hsh : w.toShared = s.shared := hw ▸ rfl
    by_cases h0 : w.getLastCounter w.controllerId = 0
    · have hp : s.shared.position f.controllerId = 0 := hsh ▸ hid ▸ h0
      rw [World.start_first h0]
      refine .request ?_ ?_
      · rw [Server.put_sessions]
        exact .inl ⟨hi, hid, hid ▸ hp⟩
      · rw [Server.put_sessions, ← hsent]
        simp only [hid, hp]
        rfl
    · exact .deletion w _ (by rw [Server.put_world, World.start_known h0]) hsent
  | confirm hc =>
    by_cases h0 : (s.world k).protocolState = .waitInitialDeleteConfirm
    · rw [World.confirmed_waiting h0]
      refine .request ?_ ?_
      · rw [Server.put_sessions]
        exact .inr ⟨hc, rfl, h0⟩
      · rw [Server.put_sessions]
        rfl
    · refine .nothing ?_
      rw [Server.put_sessions, World.confirmed_of_ne h0]
      rfl
  | archiveEnd => exact .deletion (s.world k) _ (Server.put_world ..) rfl
  | taken texts kind takes =>
    by_cases hc : f.message.cmd = TmCode.cCurrentData
    · exact .deletion (((s.world k).push (enqueued (s.world k) f.message texts)).setLastCounter
        (s.world k).controllerId f.message.lastMesNumber) _
        (by rw [Server.put_world, World.taken, World.settle, if_pos hc]) rfl
    · refine .nothing ?_
      rw [Server.put_sessions, World.taken_sent, if_neg fun h => hc h.1, List.append_nil]
      rfl
  | full =>
    refine .nothing ?_
    rw [Server.put_sessions]
    rfl
  | refused =>
    refine .nothing ?_
    rw [Server.put_sessions]
    rfl
  | ignored =>
    refine .nothing ?_
    rw [Server.put_sessions]
    rfl

omit [DecidableEq κ] in
theorem Sending.new_cases (h : Sending s k f s') {new : List Request}
    (hnew : (s'.sessions k).sent = (s.sessions k).sent ++ new) :
    new = []
      ∨ (∃ (w : World) (st : ProtocolState), s'.world k = w.sendDelete.setProtocolState st
        ∧ w.sent = (s.sessions k).sent ∧ new = w.deletion)
      ∨ Requests s (.frame k f) (s'.sessions k).controllerId
        ∧ new = [.dataRequest (requestAfter (s.shared.position (s'.sessions k).controllerId))] := by
  cases h with
  | nothing same =>
    rw [same] at hnew
    exact .inl (by simpa using hnew)
  | deletion w st world sent =>
    have hd : (s'.sessions k).sent = w.sent ++ w.deletion := by
      rw [World.sendDelete_eq] at world
      exact congrArg (fun w : World => w.sent) world
    rw [hd, sent] at hnew
    exact .inr (.inl ⟨w, st, world, sent, (List.append_cancel_left hnew).symm⟩)
  | request requests asks =>
    rw [asks] at hnew
    exact .inr (.inr ⟨requests, (List.append_cancel_left hnew).symm⟩)

theorem deletion_spec {w : World} {n : UInt32} (h : .deleteData n ∈ w.deletion) :
    n ≠ 0 ∧ w.counterer w.controllerId = some n ∧ w.sendDelete = w.send (.deleteData n) := by
  unfold World.deletion at h
  split_ifs at h with h0
  · simp at h
  obtain rfl : n = w.getLastCounter w.controllerId := by simpa using h
  refine ⟨h0, ?_, if_pos h0⟩
  unfold World.getLastCounter at h0 ⊢
  rcases hc : w.counterer w.controllerId with _ | v
  · simp [hc] at h0
  · rfl

/-- Deletions are sent by `sendDelete`, as the last thing a handler does but for its state. -/
theorem deletes_of_step {n : UInt32} {new : List Request} (hs : s.step E (.frame k f) = some s')
    (hnew : (s'.sessions k).sent = (s.sessions k).sent ++ new) (hn : .deleteData n ∈ new) :
    ∃ (w : World) (st : ProtocolState), s'.world k = w.sendDelete.setProtocolState st
      ∧ w.sent = (s.sessions k).sent ∧ .deleteData n ∈ w.deletion := by
  rcases (Server.step_sending hs).new_cases hnew with rfl | ⟨w, st, world, sent, rfl⟩ | ⟨-, rfl⟩
  · simp at hn
  · exact ⟨w, st, world, sent, hn⟩
  · simp at hn

theorem Recorded.justified {e : ServerEvent κ} (h : Recorded loaded s) :
    Justified E loaded s e := by
  intro s' hs k n new hnew hn
  obtain ⟨f, rfl⟩ := Server.sender hs hnew hn
  obtain ⟨w, st, hw, hsent, hd⟩ := deletes_of_step hs hnew hn
  obtain ⟨h0, hc, he⟩ := deletion_spec hd
  have hsh : w.toShared = s'.shared := by
    have := congrArg World.toShared hw
    rw [he] at this
    exact this.symm
  refine ⟨w, st, hw.trans (by rw [he]), hsent, h0, hc, ?_⟩
  rw [hsh] at hc ⊢
  rcases h.step hs w.controllerId with ⟨h1, h2⟩ | ⟨a, h1, h2, h3⟩
  · exact .inl ⟨h1, h2 ▸ hc⟩
  · exact .inr ⟨a, h1, Option.some.inj (h2.symm.trans hc), h3⟩

/-- In every run a deletion names the counter of the connection's controller, and this is the
loaded one or that of the frame accepted last, whose messages the queue had taken before. -/
theorem along_justified (E : Env) (shared : Shared) (es : List (ServerEvent κ)) :
    Lts.Along (Server.step E) (Justified E shared) (Server.start shared) es := by
  have h0 : Recorded shared (Server.start (κ := κ) shared) := fun c => .inl ⟨rfl, rfl⟩
  exact Lts.along_of_step (fun _ _ _ h hs => h.step hs) (fun _ _ h => h.justified) es h0

end Communicator
