import Communicator.System
import Communicator.Lib.Simulation
import Communicator.Proofs.Kinds
import Communicator.Proofs.Transactions

/-!
# One frame

What one step of the server on frames needs and does: it does not ask whether the connection was
stopped (`frame_step`), and it adds messages of the frame to the queue (`frame_adds`).
-/

namespace Communicator

open Lts

/-- Everything but whether the connection called `stop`. -/
def Session.forget (s : Session) : Session := { s with stopped := false }

def World.forget (w : World) : World := { w with stopped := false }

namespace World

variable (w : World)

theorem sendDelete_forget : w.forget.sendDelete = w.sendDelete.forget := by
  rw [sendDelete_eq, sendDelete_eq]
  rfl

theorem start_forget : w.forget.start = w.start.forget := by
  by_cases h : w.getLastCounter w.controllerId = 0
  · rw [start_first h, start_first (w := w.forget) h]
    rfl
  · rw [start_known h, start_known (w := w.forget) h, sendDelete_forget]
    rfl

theorem confirmed_forget : w.forget.confirmed = w.confirmed.forget := by
  by_cases h : w.protocolState = .waitInitialDeleteConfirm
  · rw [confirmed_waiting h, confirmed_waiting (w := w.forget) h]
    rfl
  · rw [confirmed_of_ne h, confirmed_of_ne (w := w.forget) h]

theorem enqueue_forget : ∀ (texts : List Text) (w : World) (first : ℤ) (i : ℕ),
    w.forget.enqueue first i texts
      = ((w.enqueue first i texts).1, (w.enqueue first i texts).2.forget)
  | [], _, _, _ => rfl
  | body :: rest, w, first, i => by
    rw [enqueue, enqueue]
    cases label first i with
    | none => rfl
    | some n =>
      have hadd : w.forget.backend.addMessage
          ⟨w.forget.controllerId, w.forget.firmwareVersion, n, body⟩
          = w.backend.addMessage ⟨w.controllerId, w.firmwareVersion, n, body⟩ := rfl
      dsimp only
      rw [hadd]
      cases w.backend.addMessage ⟨w.controllerId, w.firmwareVersion, n, body⟩ with
      | error e => rfl
      | ok b => exact enqueue_forget rest { w with backend := b } first (i + 1)

theorem settle_forget (cmd : UInt8) : w.forget.settle cmd = (w.settle cmd).forget := by
  unfold settle
  split
  · rw [sendDelete_forget]
    rfl
  · rfl

/-- The handlers do not ask whether the connection was stopped. -/
theorem handle_forget (k : Kind) : (w.forget.handle k).1 = (w.handle k).1
    ∧ (w.forget.handle k).2.forget = (w.handle k).2.forget := by
  cases k with
  | ident id firmware =>
    have h : w.forget.identify id firmware = (w.identify id firmware).forget := rfl
    rw [handle, handle, h, start_forget]
    exact ⟨rfl, rfl⟩
  | confirm =>
    rw [handle, handle, confirmed_forget]
    exact ⟨rfl, rfl⟩
  | archiveEnd =>
    rw [handle, handle, archiveEnded_eq, archiveEnded_eq]
    exact ⟨rfl, rfl⟩
  | package m texts =>
    have h := enqueue_forget texts w (firstLabel m.lastMesNumber texts.length) 0
    rw [handle, handle, takePackage, takePackage, h]
    rcases w.enqueue (firstLabel m.lastMesNumber texts.length) 0 texts with ⟨_ | e | _, w'⟩
    · have hs : w'.forget.setLastCounter w'.forget.controllerId m.lastMesNumber
          = (w'.setLastCounter w'.controllerId m.lastMesNumber).forget := rfl
      dsimp only
      rw [hs, settle_forget]
      exact ⟨rfl, rfl⟩
    · exact ⟨rfl, rfl⟩
    · exact ⟨rfl, rfl⟩
  | refused e => exact ⟨rfl, rfl⟩
  | misjudged => exact ⟨rfl, rfl⟩
  | ignored => exact ⟨rfl, rfl⟩

theorem handle_congr {w w' : World} (h : w.forget = w'.forget) (k : Kind) :
    (w.handle k).1 = (w'.handle k).1 ∧ (w.handle k).2.forget = (w'.handle k).2.forget := by
  obtain ⟨h1, h2⟩ := w.handle_forget k
  obtain ⟨h1', h2'⟩ := w'.handle_forget k
  rw [h] at h1 h2
  exact ⟨h1.symm.trans h1', h2.symm.trans h2'⟩

theorem shared_of_forget {w w' : World} (h : w.forget = w'.forget) : w.toShared = w'.toShared := by
  have hs : w.forget.toShared = w'.forget.toShared := congrArg World.toShared h
  exact hs

end World

section Steps

variable {κ : Type} [DecidableEq κ] {E : Env} {k : κ} {s : System κ} {t t' : Server κ}

/-- A step of the server on frames, on a connection that differs in nothing but its being
stopped. -/
theorem frame_step {t : Server κ} {w : World} (f : Incoming) (h : (t.world k).forget = w.forget)
    (hne : (processMessage E w f.bytes).1 ≠ .undefined) :
    ∃ t', t.step E (.frame k f) = some t'
      ∧ (t'.world k).forget = (processMessage E w f.bytes).2.forget
      ∧ ∀ j ≠ k, t'.sessions j = t.sessions j := by
  obtain ⟨h1, h2⟩ := World.handle_congr h (f.kind E)
  rw [← processMessage_kind, ← processMessage_kind] at h1 h2
  rw [← h1] at hne
  rw [← h2, Server.step]
  rcases hr : processMessage E (t.world k) f.bytes with ⟨_ | e | _, w'⟩
  · refine ⟨_, rfl, ?_, fun j hj => Server.put_sessions_of_ne _ _ _ _ hj⟩
    rw [Server.put_world]
  · refine ⟨_, rfl, ?_, fun j hj => Server.put_sessions_of_ne _ _ _ _ hj⟩
    rw [Server.put_world]
  · exact absurd (congrArg Prod.fst hr) hne

@[simp]
theorem System.put_peers (w : World) (r : Receiver) :
    (s.put k w r).peers k = ⟨r, w.toSession⟩ := Function.update_self ..

@[simp]
theorem System.put_peers_of_ne (w : World) (r : Receiver) {j : κ} (h : j ≠ k) :
    (s.put k w r).peers j = s.peers j := Function.update_of_ne h ..

/-- What the storage does of its own shows to the connections as the queue being taken. -/
theorem store_queue {d d' : Database InfoMessage} {e : DatabaseEvent InfoMessage}
    (hs : d.step InfoMessage.text e = some d') (he : ∀ msg, e ≠ .addMessage msg) :
    d'.worker.queue = d.worker.queue
      ∨ d'.worker.queue = { d.worker.queue with messages := [] } := by
  cases e with
  | addMessage msg => exact absurd rfl (he msg)
  | interrupt =>
    obtain rfl := Option.some.inj hs
    exact .inl rfl
  | lose =>
    obtain rfl := Option.some.inj hs
    exact .inl rfl
  | work a =>
    obtain ⟨throws, oracle, -, -, hw⟩ := Database.work_step hs
    obtain ⟨worker', oracle'⟩ := d'
    cases hw with
    | taken pc => exact .inr rfl
    | _ => exact .inl rfl

/-- A message that the frame of `m` puts into the queue. -/
def DecodedFrom (E : Env) (m : TransportMessage) (x : InfoMessage) : Prop :=
  m.IsData ∧ 9 ≤ m.data.length ∧ ∃ texts c firmware, infoMessages E m.imData = .returned texts
    ∧ x ∈ labelled c firmware (firstLabel m.lastMesNumber texts.length) texts

/-- The handler of a package adds messages of it to the queue as long as there is room. -/
theorem package_adds (w : World) (m : TransportMessage) (texts : List Text)
    (hne : (w.handle (.package m texts)).1 ≠ .undefined) :
    ∃ msgs, (w.handle (.package m texts)).2.backend = w.backend.append msgs
      ∧ (msgs ≠ [] → w.backend.messages.length + msgs.length ≤ w.backend.maxMessages)
      ∧ msgs ⊆ enqueued w m texts := by
  have h := handle_package_cases w m texts
  generalize w.handle (.package m texts) = r at h hne
  cases h with
  | taken takes =>
    refine ⟨enqueued w m texts, congrArg Shared.backend World.taken_shared, fun hmsgs => ?_,
      List.Subset.refl _⟩
    rw [enqueued, length_labelled]
    rcases takes with rfl | ⟨room, -⟩
    · exact absurd rfl hmsgs
    · exact room
  | full n lt room full =>
    refine ⟨(enqueued w m texts).take n, rfl, fun hmsgs => ?_, List.take_subset _ _⟩
    have hn : 0 < n := Nat.pos_of_ne_zero fun h0 => hmsgs (by rw [h0, List.take_zero])
    rw [enqueued, List.length_take, length_labelled, Nat.min_eq_left lt.le]
    exact room hn
  | overflow n lt room large => exact absurd rfl hne

theorem frame_adds {f : Incoming} (hs : t.step E (.frame k f) = some t') :
    ∃ msgs, t'.shared.backend = t.shared.backend.append msgs
      ∧ (msgs ≠ [] → t.shared.backend.messages.length + msgs.length
        ≤ t.shared.backend.maxMessages)
      ∧ ∀ x ∈ msgs, DecodedFrom E f.message x := by
  have hkind := f.kind_cases E
  have hback : t'.shared.backend = ((t.world k).handle (f.kind E)).2.backend
      ∧ ((t.world k).handle (f.kind E)).1 ≠ .undefined := by
    rw [Server.step, processMessage_kind] at hs
    rcases hr : (t.world k).handle (f.kind E) with ⟨_ | e | _, w'⟩ <;> rw [hr] at hs
    · obtain rfl := Option.some.inj hs
      exact ⟨rfl, by simp⟩
    · obtain rfl := Option.some.inj hs
      exact ⟨rfl, by simp⟩
    · cases hs
  obtain ⟨hback, hne⟩ := hback
  have hnone : ((t.world k).handle (f.kind E)).2.toShared = t.shared → ∃ msgs,
      t'.shared.backend = t.shared.backend.append msgs
        ∧ (msgs ≠ [] → t.shared.backend.messages.length + msgs.length
          ≤ t.shared.backend.maxMessages)
        ∧ ∀ x ∈ msgs, DecodedFrom E f.message x := by
    intro hsame
    refine ⟨[], ?_, by simp, by simp⟩
    rw [hback, hsame, BaseImpl.append_nil]
  generalize f.kind E = kind at hkind hback hne hnone
  cases hkind with
  | ident => exact hnone (World.start_shared _)
  | confirm => exact hnone (World.confirmed_shared _)
  | archiveEnd => exact hnone (World.archiveEnded_shared _)
  | refused e => exact hnone rfl
  | misjudged => exact absurd rfl hne
  | ignored => exact hnone rfl
  | package texts isData nine_le ok =>
    obtain ⟨msgs, hmsgs, hroom, hsub⟩ := package_adds (t.world k) f.message texts hne
    exact ⟨msgs, hback.trans hmsgs, hroom, fun x hx => ⟨isData, nine_le, texts, _, _, ok, hsub hx⟩⟩

end Steps

end Communicator
