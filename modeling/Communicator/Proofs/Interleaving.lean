import Communicator.Proofs.Reads

/-!
# Two threads and frames

Whatever the worker takes away while a frame is handled shows to its handler as room in the queue.
So a run of the two threads is one of the server on frames in which others do to the queue what they
like between two frames (`exists_follows`); all but the queue is the same, and each connection that
goes on is sent there just the frames it is done with.
-/

namespace Communicator

open Lts

section Returned

variable {κ : Type} [DecidableEq κ] {E : Env} {k : κ} {t u : Server κ}

/-- Only `stop` stops a connection, and it is called where something throws. -/
theorem World.stopped_of_returned {w : World} {kind : Kind} (h : (w.handle kind).1 = .returned ()) :
    (w.handle kind).2.stopped = w.stopped := by
  cases kind with
  | ident id firmware =>
    by_cases h0 : (w.identify id firmware).getLastCounter id = 0
    · rw [handle, start_first h0]
      rfl
    · rw [handle, start_known h0, sendDelete_eq]
      rfl
  | confirm =>
    by_cases hs : w.protocolState = .waitInitialDeleteConfirm
    · rw [handle, confirmed_waiting hs]
    · rw [handle, confirmed_of_ne hs]
  | archiveEnd => rw [handle, archiveEnded_eq]
  | package m texts =>
    have hc := handle_package_cases w m texts
    generalize w.handle (.package m texts) = r at hc h
    cases hc with
    | taken takes =>
      unfold taken settle
      split
      · rw [sendDelete_eq]
        rfl
      · rfl
    | full => cases h
    | overflow => cases h
  | refused e => cases h
  | misjudged => cases h
  | ignored => rfl

theorem processMessage_stopped {w : World} (f : Incoming)
    (h : (processMessage E w f.bytes).1 = .returned ()) :
    (processMessage E w f.bytes).2.stopped = w.stopped := by
  rw [processMessage_kind] at h ⊢
  exact World.stopped_of_returned h

theorem step_stopped {f : Incoming} (hs : t.step E (.frame k f) = some u)
    (h : (processMessage E (t.world k) f.bytes).1 = .returned ()) :
    (u.sessions k).stopped = (t.sessions k).stopped := by
  have hstop := processMessage_stopped f h
  rw [Server.step] at hs
  rcases hr : processMessage E (t.world k) f.bytes with ⟨_ | e | _, w⟩ <;> rw [hr] at hs h hstop
  · obtain rfl := Option.some.inj hs
    rw [Server.put_sessions]
    exact hstop
  · cases h
  · cases h

end Returned

inductive OpenEvent (κ : Type)
  | frame (k : κ) (f : Incoming)
  | queue (maxMessages : ℕ) (messages : List InfoMessage)

namespace Server

variable {κ : Type} [DecidableEq κ] (E : Env) (t : Server κ)

def setQueue (maxMessages : ℕ) (messages : List InfoMessage) : Server κ :=
  { t with shared := ⟨t.shared.counterer, ⟨maxMessages, messages, t.shared.backend.accepted⟩⟩ }

def openStep : OpenEvent κ → Option (Server κ)
  | .frame k f => t.step E (.frame k f)
  | .queue maxMessages messages => some (t.setQueue maxMessages messages)

end Server

def framesIn {κ : Type} (es : List (OpenEvent κ)) : List (κ × Incoming) :=
  es.filterMap fun
    | .frame k f => some (k, f)
    | .queue _ _ => none

theorem framesIn_append {κ : Type} (es es' : List (OpenEvent κ)) :
    framesIn (es ++ es') = framesIn es ++ framesIn es' := List.filterMap_append

section Serves

variable {κ : Type} [DecidableEq κ] {E : Env} {s s' : Threads κ} {t : Server κ} {k : κ}
  {before after : List InfoMessage}

/-- The threads and the server on frames have the same counters and connections, and the queue took
the same messages but for those of a frame the thread is not done with. -/
structure Serves (E : Env) (s : Threads κ) (t : Server κ) (pending : List InfoMessage) : Prop where
  underway : Underway E s pending
  counterer : t.shared.counterer = s.system.counterer
  sessions : ∀ k, (t.sessions k).forget = (s.system.peers k).session.forget
  accepted : s.system.database.worker.queue.accepted = t.shared.backend.accepted ++ pending

/-- A run of the server on frames in which connection `k` is sent the frames the thread is done
with. -/
structure Served (E : Env) (t : Server κ) (k : κ) (fs : List Incoming) (s' : Threads κ)
    (after : List InfoMessage) (new : List (OpenEvent κ)) (t' : Server κ) : Prop where
  run : run (Server.openStep E) t new = some t'
  frames : framesIn new = fs.map (k, ·)
  serves : Serves E s' t' after
  others : ∀ j ≠ k, t'.sessions j = t.sessions j
  goesOn : (s'.system.peers k).session.stopped = false →
    (t'.sessions k).stopped = (t.sessions k).stopped

theorem open_frame {maxMessages : ℕ} {messages : List InfoMessage} {f : Incoming} {t' : Server κ}
    (h : (t.setQueue maxMessages messages).step E (.frame k f) = some t') :
    run (Server.openStep E) t [.queue maxMessages messages, .frame k f] = some t' := by
  rw [run, Server.openStep, Option.bind_some, run, Server.openStep, h]
  rfl

omit [DecidableEq κ] in
/-- With the queue of the threads, the server on frames sees what they see. -/
theorem Serves.forget (h : Serves E s t []) (k : κ) :
    ((t.setQueue s.system.database.worker.queue.maxMessages
      s.system.database.worker.queue.messages).world k).forget = (s.system.world k).forget := by
  have hforget : ∀ (x : Shared) (c : Session), (⟨x, c⟩ : World).forget = ⟨x, c.forget⟩ :=
    fun _ _ => rfl
  have haccepted := h.accepted
  rw [List.append_nil] at haccepted
  rw [Server.world, System.world, hforget, hforget, ← h.sessions k]
  refine congrArg (fun x : Shared => (⟨x, (t.sessions k).forget⟩ : World)) ?_
  dsimp only [Server.setQueue, System.shared]
  rw [h.counterer, ← haccepted]

/-- The connections agree after one of them came to agree. -/
theorem sessions_put {w : World} {r : Receiver} {t' : Server κ}
    (h : ∀ j, (t.sessions j).forget = (s.system.peers j).session.forget)
    (hw : (t'.sessions k).forget = w.toSession.forget)
    (hj : ∀ j ≠ k, t'.sessions j = t.sessions j) (j : κ) :
    (t'.sessions j).forget = ((s.system.put k w r).peers j).session.forget := by
  by_cases hjk : j = k
  · subst hjk
    rw [System.put_peers]
    exact hw
  · rw [System.put_peers_of_ne _ _ hjk, hj j hjk]
    exact h j

/-- A handler that returned without adding messages. -/
theorem Serves.handled (h : Serves E s t []) {f : Incoming}
    {w : World} (returned : (s.system.world k).handle (f.kind E) = (.returned (), w)) {task : Task}
    (hu : Underway E (s.goOn k w task) []) :
    ∃ new t', Served E t k [f] (s.goOn k w task) [] new t' := by
  have hforget := h.forget k
  obtain ⟨hout, hlast⟩ := World.handle_congr hforget (f.kind E)
  rw [returned] at hout hlast
  have hret : (processMessage E (s.system.world k) f.bytes).1 = .returned () := by
    rw [processMessage_kind, returned]
  obtain ⟨t', hstep, hworld, hothers⟩ := frame_step (E := E) f hforget (by rw [hret]; simp)
  rw [processMessage_kind, returned] at hworld
  have hshared : t'.shared = w.toShared := World.shared_of_forget hworld
  rw [← processMessage_kind] at hout
  have hstopped := step_stopped hstep hout
  refine ⟨_, t', open_frame hstep, rfl, ⟨hu, ?_, ?_, ?_⟩, hothers, fun _ => hstopped⟩
  · exact congrArg Shared.counterer hshared
  · exact sessions_put h.sessions (congrArg World.toSession hworld) hothers
  · rw [List.append_nil, hshared]
    rfl

theorem Serves.refused (h : Serves E s t []) {f : Incoming} {e : Fault}
    (kind : f.kind E = .refused e) (r : Receiver) :
    ∃ new t', Served E t k [f] (s.leave k (s.system.world k).stop r) [] new t' := by
  have hforget := h.forget k
  have hthrew : processMessage E (s.system.world k) f.bytes
      = (.threw e, (s.system.world k).stop) := by
    rw [processMessage_kind, kind]
    rfl
  obtain ⟨t', hstep, hworld, hothers⟩ := frame_step (E := E) f hforget (by rw [hthrew]; simp)
  rw [hthrew] at hworld
  have hshared : t'.shared = s.system.shared := World.shared_of_forget hworld
  refine ⟨_, t', open_frame hstep, rfl, ⟨.idle rfl, ?_, ?_, ?_⟩, hothers, fun hno => ?_⟩
  · exact congrArg Shared.counterer hshared
  · exact sessions_put h.sessions (congrArg World.toSession hworld) hothers
  · rw [List.append_nil, hshared]
    rfl
  · rw [Threads.leave, System.put_peers] at hno
    cases hno

/-! The messages of a package: the queue of the server on frames has room for as many of them as
went into that of the threads. -/

theorem take_labelled (c firmware : UInt32) : ∀ (first : ℤ) (done rest : List Text),
    (labelled c firmware first (done ++ rest)).take done.length = labelled c firmware first done
  | _, [], _ => rfl
  | first, text :: done, rest => by
    rw [List.cons_append, labelled, List.length_cons, List.take_succ_cons,
      take_labelled c firmware (first + 1) done rest, labelled]

theorem handle_full {w : World} {m : TransportMessage} {done rest : List Text} {body : Text}
    (fits : firstLabel m.lastMesNumber (done ++ body :: rest).length + done.length
      ≤ World.intMax)
    (empty : w.backend.messages = []) (room : w.backend.maxMessages = done.length) :
    w.handle (.package m (done ++ body :: rest)) = (.threw .capacityExceeded,
      (w.push (w.entered m (done ++ body :: rest) done)).stop) := by
  have hlen : done.length < (done ++ body :: rest).length := by simp
  have hc := handle_package_cases w m (done ++ body :: rest)
  generalize w.handle (.package m (done ++ body :: rest)) = r at hc
  cases hc with
  | taken takes =>
    refine absurd takes (not_takes_of_full hlen ?_)
    rw [empty, room]
    simp
  | full n lt hroom full =>
    rw [empty, room, List.length_nil] at hroom full
    obtain rfl : n = done.length := by omega
    rw [enqueued, take_labelled]
    rfl
  | overflow n lt hroom large =>
    rw [empty, room, List.length_nil] at hroom
    omega

theorem handle_all {w : World} {m : TransportMessage} {texts : List Text}
    (fits : texts ≠ [] → firstLabel m.lastMesNumber texts.length + texts.length
      ≤ World.intMax + 1)
    (empty : w.backend.messages = []) (room : w.backend.maxMessages = texts.length) :
    w.handle (.package m texts) = (.returned (), w.taken m texts) := by
  refine handle_taken (takes_of_room fun hne => ⟨?_, fits hne⟩)
  rw [empty, room, List.length_nil, Nat.zero_add]

/-- What a data handler does behind the loop depends on the counters and the connection. -/
theorem World.settle_congr {w w' : World} (hc : w.counterer = w'.counterer)
    (hs : w.toSession.forget = w'.toSession.forget) (cmd : UInt8) :
    (w.settle cmd).toSession.forget = (w'.settle cmd).toSession.forget := by
  obtain ⟨⟨c, b⟩, ⟨state, id, firmware, sent, stopped⟩⟩ := w
  obtain ⟨⟨c', b'⟩, ⟨state', id', firmware', sent', stopped'⟩⟩ := w'
  obtain rfl : c = c' := hc
  unfold Session.forget at hs
  injection hs with h1 h2 h3 h4
  subst h1 h2 h3 h4
  unfold settle
  split
  · rw [sendDelete_eq, sendDelete_eq]
    rfl
  · rfl

omit [DecidableEq κ] in
theorem Serves.identity (h : Serves E s t before) (k : κ) :
    (t.sessions k).controllerId = (s.system.world k).controllerId
      ∧ (t.sessions k).firmwareVersion = (s.system.world k).firmwareVersion := by
  have hid := congrArg Session.controllerId (h.sessions k)
  have hfw := congrArg Session.firmwareVersion (h.sessions k)
  exact ⟨hid, hfw⟩

theorem Serves.full {f : Incoming} {done rest : List Text} {body : Text}
    (h : Serves E s t ((s.system.world k).entered f.message (done ++ body :: rest) done))
    (kind : f.kind E = .package f.message (done ++ body :: rest))
    (fits : firstLabel f.message.lastMesNumber (done ++ body :: rest).length + done.length
      ≤ World.intMax) (r : Receiver) :
    ∃ new t', Served E t k [f] (s.leave k (s.system.world k).stop r) [] new t' := by
  have hstep : (t.setQueue done.length []).step E (.frame k f) = some
      ((t.setQueue done.length []).put k ((((t.setQueue done.length []).world k).push
        (((t.setQueue done.length []).world k).entered f.message (done ++ body :: rest)
          done)).stop) []) := by
    rw [Server.step, processMessage_kind, kind, handle_full fits rfl rfl]
  obtain ⟨hid, hfw⟩ := h.identity k
  have haccepted := h.accepted
  refine ⟨_, _, open_frame hstep, rfl, ⟨.idle rfl, h.counterer, ?_, ?_⟩, ?_, fun hno => ?_⟩
  · refine sessions_put h.sessions ?_ fun j hj => Server.put_sessions_of_ne _ _ _ _ hj
    rw [Server.put_sessions]
    exact h.sessions k
  · rw [List.append_nil]
    refine haccepted.trans ?_
    rw [World.entered, ← hid, ← hfw]
    rfl
  · exact fun j hj => Server.put_sessions_of_ne _ _ _ _ hj
  · rw [Threads.leave, System.put_peers] at hno
    cases hno

theorem Serves.ended {f : Incoming} {texts : List Text}
    (h : Serves E s t ((s.system.world k).entered f.message texts texts))
    (kind : f.kind E = .package f.message texts)
    (fits : texts ≠ [] → firstLabel f.message.lastMesNumber texts.length + texts.length
      ≤ World.intMax + 1) {task : Task} {w : World}
    (hw : w = ((s.system.world k).setLastCounter (s.system.world k).controllerId
      f.message.lastMesNumber).settle f.message.cmd) (hu : Underway E (s.goOn k w task) []) :
    ∃ new t', Served E t k [f] (s.goOn k w task) [] new t' := by
  have hhandle := handle_all (w := (t.setQueue texts.length []).world k) (m := f.message) fits rfl
    rfl
  have hstep : (t.setQueue texts.length []).step E (.frame k f) = some
      ((t.setQueue texts.length []).put k
        (((t.setQueue texts.length []).world k).taken f.message texts)
        (f.acceptance E ((t.setQueue texts.length []).world k))) := by
    rw [Server.step, processMessage_kind, kind, hhandle]
  obtain ⟨hid, hfw⟩ := h.identity k
  have haccepted := h.accepted
  have hshared : w.toShared = ((s.system.world k).setLastCounter (s.system.world k).controllerId
      f.message.lastMesNumber).toShared := by
    rw [hw]
    exact World.settle_shared _ _
  have htaken : (((t.setQueue texts.length []).world k).taken f.message texts).toShared = _ :=
    World.taken_shared
  refine ⟨_, _, open_frame hstep, rfl, ⟨hu, ?_, ?_, ?_⟩, ?_, fun _ => ?_⟩
  · rw [Server.put_shared, htaken]
    refine Eq.trans ?_ (congrArg Shared.counterer hshared).symm
    exact congrArg₂ (fun c id => Function.update c id (some f.message.lastMesNumber)) h.counterer
      hid
  · refine sessions_put h.sessions ?_ fun j hj => Server.put_sessions_of_ne _ _ _ _ hj
    rw [Server.put_sessions, hw]
    refine World.settle_congr ?_ (h.sessions k) _
    exact congrArg₂ (fun c id => Function.update c id (some f.message.lastMesNumber)) h.counterer
      hid
  · rw [List.append_nil, Server.put_shared, htaken]
    refine (congrArg (fun x : Shared => x.backend.accepted) hshared).trans (haccepted.trans ?_)
    rw [World.entered, ← hid, ← hfw]
    rfl
  · exact fun j hj => Server.put_sessions_of_ne _ _ _ _ hj
  · rw [Server.put_sessions]
    have hstopped := World.stopped_of_returned (congrArg Prod.fst hhandle)
    rw [hhandle] at hstopped
    exact hstopped

/-- Turns that show to nobody else. -/
theorem Serves.quiet (h : Serves E s t before) {w : World} {r : Receiver} {task : Option (κ × Task)}
    (hu : Underway E ⟨s.system.put k w r, task⟩ after)
    (hc : w.counterer = s.system.counterer)
    (hs : w.toSession.forget = (s.system.world k).toSession.forget)
    (ha : w.backend.accepted = t.shared.backend.accepted ++ after) :
    Serves E ⟨s.system.put k w r, task⟩ t after :=
  ⟨hu, h.counterer.trans hc.symm,
    sessions_put h.sessions ((h.sessions k).trans hs.symm) fun _ _ => rfl, ha⟩

/-- Every turn is matched by the server on frames. -/
theorem Serves.turn {fs : List Incoming} (h : Serves E s t before)
    (ht : Turning E s k before s' after fs) (hu : Underway E s' after) :
    ∃ new t', Served E t k fs s' after new t' := by
  have hnone : ∀ u, Serves E u t after → ∃ new t', Served E t k [] u after new t' :=
    fun u hserves => ⟨[], t, rfl, rfl, hserves, fun _ _ => rfl, fun _ => rfl⟩
  have haccepted := h.accepted
  cases ht with
  | waits => exact hnone _ (h.quiet hu rfl rfl haccepted)
  | damaged => exact hnone _ (h.quiet hu rfl rfl haccepted)
  | begins => exact hnone _ (h.quiet hu rfl rfl haccepted)
  | handled start g f task found w other returned => exact h.handled returned hu
  | refused start g f task found e kind => exact h.refused kind _
  | added f done body rest x task entered room =>
    refine hnone _ (h.quiet hu rfl rfl ?_)
    rw [entered, ← List.append_assoc, ← haccepted]
    rfl
  | full f done body rest task kind fits => exact h.full kind fits _
  | ended f texts task kind fits => exact h.ended kind fits rfl hu

end Serves

end Communicator
