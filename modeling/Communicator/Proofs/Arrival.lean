import Communicator.Proofs.EndToEnd
import Mathlib.Data.List.Forall2

/-!
# What is sent is what is handled

As long as a connection is not stopped, its handlers see the frames of everything it was sent, one
after the other. If these are encoded messages, every record of every data frame among them is
accepted (`records_delivered`), whatever the worker does between two of them or inside of one.
-/

namespace Communicator

open Lts

section Encoded

variable {κ : Type} [DecidableEq κ] {E : Env} {k : κ} {s : Threads κ}
  {es : List (SystemEvent κ)} {msgs sent : List TransportMessage}

/-- What was read of a stream of messages so far has the frames of its first messages. -/
theorem Hears.messages_prefix (h : Hears k es s msgs)
    (hread : bytesRead k es <+: sent.flatMap (·.wire)) : msgs <+: sent := by
  obtain ⟨later, hlater⟩ := hread
  have hall : (unstuffed k es).storeData later = ⟨.normal, sent.flatMap (·.frame)⟩ := by
    rw [unstuffed, ← Receiver.storeData_append, hlater]
    exact storeData_wires sent []
  obtain ⟨more, hmore⟩ := Receiver.storeData_buffer_prefix (unstuffed k es) later
  rw [hall] at hmore
  dsimp only at hmore
  have hitems := (scan_frames sent).1
  rw [← hmore, framing.scan_append, Scan.Result.andThen, List.map_append, ← h.heard.frames,
    List.append_assoc] at hitems
  exact (List.prefix_map_iff_of_injective frame_injective).1 ⟨_, hitems⟩

/-- Where the thread is done with what was read, it went through all of the messages. -/
theorem Hears.messages (h : Hears k es s msgs) (hread : bytesRead k es = sent.flatMap (·.wire))
    (hdone : ∀ task, s.task ≠ some (k, task)) : msgs = sent := by
  have hall : unstuffed k es = ⟨.normal, sent.flatMap (·.frame)⟩ := by
    rw [unstuffed, hread]
    exact storeData_wires sent []
  have hframes := h.frames hdone
  rw [framesRead, hall, (scan_frames sent).1] at hframes
  exact List.map_injective_iff.2 frame_injective hframes

/-- Connections that are sent encoded messages, cut up and mixed with whatever others are sent: for
each of them, unless it is stopped, the server on frames is sent just its messages, those of them
that were read and that the thread is done with, and does not stop it. -/
theorem follows_wire (E : Env) (loaded : Counterer) (maxMessages : ℕ) (testConnection : Bool)
    (a₀ : Answers) (ts : List (ThreadsEvent κ)) (s : Threads κ) (sent : κ → List TransportMessage)
    (hs : run (Threads.step E)
      (.start loaded maxMessages (Oracle.create testConnection a₀).2) ts = some s) :
    ∃ gs t pending, run (Server.openStep E) (.start ⟨loaded, ⟨maxMessages, [], []⟩⟩) gs = some t
      ∧ t.shared.counterer = s.system.counterer
      ∧ (∀ k, (t.sessions k).forget = (s.system.peers k).session.forget)
      ∧ Underway E s pending
      ∧ s.system.database.worker.queue.accepted = t.shared.backend.accepted ++ pending
      ∧ ∀ k, (s.system.peers k).session.stopped = false → (t.sessions k).stopped = false
        ∧ (bytesRead k (ThreadsEvent.given ts) <+: (sent k).flatMap (·.wire) →
          messagesOn k gs <+: sent k)
        ∧ (bytesRead k (ThreadsEvent.given ts) = (sent k).flatMap (·.wire) →
          (∀ task, s.task ≠ some (k, task)) → messagesOn k gs = sent k) := by
  obtain ⟨gs, t, hrun, h⟩ := exists_follows hs
  obtain ⟨pending, hserves⟩ := h.serves
  refine ⟨gs, t, pending, hrun, hserves.counterer, hserves.sessions, hserves.underway,
    hserves.accepted, fun k hk => ?_⟩
  obtain ⟨hgoes, hhears⟩ := h.hears k hk
  exact ⟨hgoes, hhears.messages_prefix, hhears.messages⟩

end Encoded

theorem bytesRead_cutStream : bytesRead () (ThreadsEvent.given cutStream)
    = [identSeven, oneEvent TmCode.cArchiveData 3].flatMap (·.wire) := by decide +kernel

theorem follows_wire_cut : ∃ s, run (Threads.step eventOnly)
      (.start (fun _ => none) 4096 (Oracle.create true {}).2) cutStream = some s
    ∧ ∃ gs t, run (Server.openStep eventOnly) (.start ⟨fun _ => none, ⟨4096, [], []⟩⟩) gs = some t
      ∧ t.shared.counterer = s.system.counterer
      ∧ messagesOn () gs = [identSeven, oneEvent TmCode.cArchiveData 3] := by
  obtain ⟨s, hs, hstopped, hdone, -⟩ := cutStream_run
  obtain ⟨gs, t, -, hrun, hcounterer, -, -, -, hk⟩ := follows_wire eventOnly (fun _ => none) 4096
    true {} cutStream s (fun _ => [identSeven, oneEvent TmCode.cArchiveData 3]) hs
  exact ⟨s, hs, gs, t, hrun, hcounterer, (hk () hstopped).2.2 bytesRead_cutStream hdone⟩

section Records

variable {κ : Type} [DecidableEq κ] {E : Env} {k : κ} {s : Threads κ}

/-- What the queue gains by a frame whose handler returns: the records of a data frame, labelled
with who sends them. -/
inductive Gains (E : Env) (who : UInt32 × UInt32) (m : TransportMessage) : List InfoMessage → Prop
  | records (isData : m.IsData) (texts : List Text)
    (ok : infoMessages E m.imData = .returned texts) :
    Gains E who m (labelled who.1 who.2 (firstLabel m.lastMesNumber texts.length) texts)
  | nothing (h : ¬ m.IsData ∨ m.data = []) : Gains E who m []

theorem handle_gains {w : World} {f : Incoming} (h : (w.handle (f.kind E)).1 = .returned ()) :
    ∃ block, Gains E w.identity f.message block
      ∧ (w.handle (f.kind E)).2.backend.accepted = w.backend.accepted ++ block := by
  by_cases hd : f.IsData
  · rw [Incoming.kind_of_isData hd] at h ⊢
    rcases f.dataKind_cases (E := E) with ⟨hk, -, h0⟩ | ⟨texts, hk, h9, hi⟩ | ⟨e, hk⟩ | hk <;>
      rw [hk] at h ⊢
    · refine ⟨[], .nothing (.inr h0), ?_⟩
      rw [List.append_nil]
      exact congrArg (·.backend.accepted) (World.archiveEnded_shared w)
    · have hc := handle_package_cases w f.message texts
      generalize w.handle (.package f.message texts) = r at hc h
      cases hc with
      | taken takes =>
        refine ⟨enqueued w f.message texts, .records hd texts hi, ?_⟩
        exact congrArg (·.backend.accepted) World.taken_shared
      | full => cases h
      | overflow => cases h
    · cases h
    · cases h
  · have hother : ∀ m texts, f.kind E ≠ .package m texts := by
      intro m texts heq
      have hcases := f.kind_cases E
      rw [heq] at hcases
      cases hcases with
      | package _ isData => exact hd isData
    refine ⟨[], .nothing (.inl hd), ?_⟩
    rw [handle_backend hother, List.append_nil]

theorem processMessage_threw {w w' : World} {e : Fault} {hdr : List UInt8}
    (h : processMessage E w hdr = (.threw e, w')) : w'.stopped = true := by
  unfold processMessage at h
  split at h
  · obtain rfl := (Prod.mk.inj h).2
    rfl
  · rename_i hne
    exact absurd h (hne e w')

/-- A connection goes on after a frame whose handler returned. -/
theorem step_goesOn {t t' : Server κ} {f : Incoming} (hs : t.step E (.frame k f) = some t')
    (h : (t'.sessions k).stopped = false) : ((t.world k).handle (f.kind E)).1 = .returned ()
      ∧ t'.world k = ((t.world k).handle (f.kind E)).2 := by
  rw [Server.step] at hs
  rw [← processMessage_kind]
  rcases hr : processMessage E (t.world k) f.bytes with ⟨_ | e | _, w⟩ <;> rw [hr] at hs
  · obtain rfl := Option.some.inj hs
    exact ⟨rfl, Server.put_world ..⟩
  · obtain rfl := Option.some.inj hs
    rw [Server.put_sessions] at h
    exact absurd (processMessage_threw hr) (by simp [h])
  · cases hs

/-- A connection that goes on: it is the controller that named itself last, and its records were
accepted, frame after frame. -/
structure Delivered (E : Env) (msgs : List TransportMessage) (w : World) : Prop where
  identity : w.identity = identityAfter (0, 0) msgs
  gains : ∃ blocks, List.Forall₂ (fun x => Gains E x.1 x.2) (identified (0, 0) msgs) blocks
    ∧ blocks.flatten.Sublist w.backend.accepted

theorem Delivered.other {msgs : List TransportMessage} {w w' : World} (h : Delivered E msgs w)
    (hw : w'.toSession = w.toSession) (hsub : w.backend.accepted <+: w'.backend.accepted) :
    Delivered E msgs w' := by
  obtain ⟨blocks, hgains, hblocks⟩ := h.gains
  exact ⟨(congrArg Session.identity hw).trans h.identity, blocks, hgains,
    hblocks.trans hsub.sublist⟩

theorem Delivered.handle {msgs : List TransportMessage} {w : World} {f : Incoming}
    (h : Delivered E msgs w) (hret : (w.handle (f.kind E)).1 = .returned ()) :
    Delivered E (msgs ++ [f.message]) (w.handle (f.kind E)).2 := by
  obtain ⟨blocks, hgains, hblocks⟩ := h.gains
  obtain ⟨block, hblock, haccepted⟩ := handle_gains hret
  refine ⟨?_, blocks ++ [block], ?_, ?_⟩
  · rw [identityAfter_concat, ← h.identity]
    exact handle_identity (by rw [hret]; simp)
  · rw [identified_concat, ← h.identity]
    exact List.rel_append hgains (.cons hblock .nil)
  · rw [haccepted, List.flatten_append, List.flatten_singleton]
    exact hblocks.append (List.Sublist.refl _)

theorem delivered_step {gs : List (OpenEvent κ)} {t t' : Server κ} {e : OpenEvent κ}
    (h : (t.sessions k).stopped = false → Delivered E (messagesOn k gs) (t.world k))
    (hs : t.openStep E e = some t') (hk : (t'.sessions k).stopped = false) :
    Delivered E (messagesOn k (gs ++ [e])) (t'.world k) := by
  rw [messagesOn_append]
  cases e with
  | queue maxMessages messages =>
    obtain rfl := Option.some.inj hs
    have hnone : messagesOn k [OpenEvent.queue maxMessages messages] = [] := rfl
    rw [hnone, List.append_nil]
    exact (h hk).other rfl List.prefix_rfl
  | frame j f =>
    have hstep : t.step E (.frame j f) = some t' := hs
    have hone : framesIn [OpenEvent.frame j f] = [f].map (j, ·) := rfl
    by_cases hj : k = j
    · subst hj
      obtain ⟨hret, hw⟩ := step_goesOn hstep hk
      have hstopped := World.stopped_of_returned hret
      rw [← hw] at hstopped
      rw [messagesOn_served hone, List.map_singleton, hw]
      exact (h (hstopped.symm.trans hk)).handle hret
    · have hsame := Server.step_of_ne hj hstep
      obtain ⟨msgs, hmsgs, -⟩ := frame_adds hstep
      rw [messagesOn_other hone hj, List.append_nil]
      refine (h (hsame ▸ hk)).other hsame ?_
      have hprefix : t.shared.backend.accepted <+: t'.shared.backend.accepted := by
        rw [hmsgs, BaseImpl.append_accepted]
        exact List.prefix_append _ _
      exact hprefix

theorem always_delivered {shared : Shared} {gs : List (OpenEvent κ)} {t : Server κ}
    (h : run (Server.openStep E) (.start shared) gs = some t)
    (hk : (t.sessions k).stopped = false) : Delivered E (messagesOn k gs) (t.world k) :=
  run_induction (P := fun gs (t : Server κ) => (t.sessions k).stopped = false →
      Delivered E (messagesOn k gs) (t.world k))
    (fun _ => ⟨rfl, [], .nil, List.nil_sublist _⟩)
    (fun _ _ _ _ _ h hs => delivered_step h hs) h hk

/-- A connection that reads encoded messages, cut up anyhow, and is not stopped: the thread handled
the first of them, all once it is done with all that was sent. Every record of every data frame
among these was accepted for the controller that named itself last, frame after frame; and if the
storage never failed and the worker sleeps, all of them are in the table or in the queue, in this
order. -/
theorem records_delivered (E : Env) (loaded : Counterer) (maxMessages : ℕ) (testConnection : Bool)
    (a₀ : Answers) (es : List (ThreadsEvent κ)) (s : Threads κ) (k : κ)
    (sent : List TransportMessage)
    (hs : run (Threads.step E)
      (.start loaded maxMessages (Oracle.create testConnection a₀).2) es = some s)
    (hk : (s.system.peers k).session.stopped = false)
    (hread : bytesRead k (ThreadsEvent.given es) <+: sent.flatMap (·.wire)) :
    ∃ handled blocks, handled <+: sent
      ∧ (bytesRead k (ThreadsEvent.given es) = sent.flatMap (·.wire) →
        (∀ task, s.task ≠ some (k, task)) → handled = sent)
      ∧ List.Forall₂ (fun x => Gains E x.1 x.2) (identified (0, 0) handled) blocks
      ∧ blocks.flatten.Sublist s.system.database.worker.queue.accepted
      ∧ (a₀ = {} → (∀ e ∈ es, e.Fine) → s.system.database.worker.pc = .sleep →
        (blocks.flatten.map (Database.row InfoMessage.text)).Sublist
          (s.system.database.oracle.table
            ++ s.system.database.worker.queue.messages.map (Database.row InfoMessage.text))) := by
  obtain ⟨gs, t, hrun, h⟩ := exists_follows hs
  obtain ⟨hgoes, hhears⟩ := h.hears k hk
  obtain ⟨blocks, hgains, hblocks⟩ := (always_delivered hrun hgoes).gains
  obtain ⟨pending, hserves⟩ := h.serves
  have hsub : blocks.flatten.Sublist s.system.database.worker.queue.accepted := by
    rw [hserves.accepted]
    exact hblocks.trans (List.sublist_append_left _ _)
  refine ⟨messagesOn k gs, blocks, hhears.messages_prefix hread, fun hall hdone =>
    hhears.messages hall hdone, hgains, hsub, fun ha hfine hpc => ?_⟩
  subst ha
  rw [accepted_stored hfine hs hpc]
  exact hsub.map _

end Records

theorem records_delivered_cut : ∃ s, run (Threads.step eventOnly)
      (.start (fun _ => none) 4096 (Oracle.create true {}).2) cutStream = some s
    ∧ s.system.database.oracle.table.length = 1
    ∧ ∃ blocks, List.Forall₂ (fun x => Gains eventOnly x.1 x.2)
        [((0, 0), identSeven), ((7, 1), oneEvent TmCode.cArchiveData 3)] blocks
      ∧ (blocks.flatten.map (Database.row InfoMessage.text)).Sublist
          (s.system.database.oracle.table
            ++ s.system.database.worker.queue.messages.map
              (Database.row InfoMessage.text)) := by
  obtain ⟨s, hs, hstopped, hdone, hpc, hlen⟩ := cutStream_run
  have hprefix : bytesRead () (ThreadsEvent.given cutStream)
      <+: [identSeven, oneEvent TmCode.cArchiveData 3].flatMap (·.wire) :=
    ⟨[], by rw [List.append_nil, bytesRead_cutStream]⟩
  obtain ⟨handled, blocks, -, hall, hgains, -, hrows⟩ := records_delivered eventOnly
    (fun _ => none) 4096 true {} cutStream s () _ hs hstopped hprefix
  rw [hall bytesRead_cutStream hdone] at hgains
  have hfine : ∀ e ∈ cutStream, e.Fine := by
    simp [cutStream, ThreadsEvent.Fine, SystemEvent.Fine, Database.Fine]
  exact ⟨s, hs, hlen, blocks, hgains, hrows rfl hfine hpc⟩

end Communicator
