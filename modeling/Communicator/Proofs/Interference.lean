import Communicator.Proofs.Deletions
import Mathlib.Data.Finset.Basic

/-!
# Connections on their own

What a handler does to the shared state it does under the controller id of its connection, and all
it reads of it is this controller's counter and whether the queue has room. So for connections of
different controllers the frames of the others can be left out of a run (`run_filter`): what is
sent, the controller's counters and its messages stay the same (`Solo`).
-/

namespace Communicator

open Lts

section Definitions

variable {κ : Type} (E : Env) (ids : κ → Finset UInt32)

/-- The connections name ids of their own, before their first data frame. -/
structure Separate (es : List (ServerEvent κ)) : Prop where
  disjoint : ∀ j k, j ≠ k → Disjoint (ids j) (ids k)
  nonzero : ∀ k, 0 ∉ ids k
  named : ∀ k f, .frame k f ∈ es → f.Identifies → f.controllerId ∈ ids k
  first : ∀ pre k f post, es = pre ++ .frame k f :: post → f.IsData →
    ∃ g, .frame k g ∈ pre ∧ g.Identifies

def NoOverflow (s : Server κ) : ServerEvent κ → Prop
  | .frame k f => (processMessage E (s.world k) f.bytes).1 ≠ .threw .capacityExceeded
  | .take => True

instance instDecidableNoOverflow (s : Server κ) : ∀ e, Decidable (NoOverflow E s e)
  | .frame _ _ => inferInstanceAs (Decidable (_ ≠ _))
  | .take => inferInstanceAs (Decidable True)

def Attributed (s : Server κ) (e : ServerEvent κ) : Prop :=
  ∀ k f, e = .frame k f → (f.IsData → (s.sessions k).controllerId ∈ ids k)
    ∧ (f.Identifies → f.controllerId ∈ ids k)

/-- The frames of `k`, and the worker. -/
def ownEvent [DecidableEq κ] (k : κ) : ServerEvent κ → Bool
  | .frame j _ => decide (j = k)
  | .take => true

def messagesOf (ids : Finset UInt32) (accepted : List InfoMessage) : List InfoMessage :=
  accepted.filter (·.controlId ∈ ids)

/-- `t` is what `s` would be had only connection `k` been there. -/
structure Solo (k : κ) (s t : Server κ) : Prop where
  session : t.sessions k = s.sessions k
  owned : (s.sessions k).controllerId = 0 ∨ (s.sessions k).controllerId ∈ ids k
  counterer : ∀ c, c = 0 ∨ c ∈ ids k → t.shared.counterer c = s.shared.counterer c
  accepted : messagesOf (ids k) t.shared.backend.accepted
    = messagesOf (ids k) s.shared.backend.accepted
  room : t.shared.backend.messages.length ≤ s.shared.backend.messages.length
  maxMessages : t.shared.backend.maxMessages = s.shared.backend.maxMessages

end Definitions

variable {κ : Type} {E : Env} {ids : κ → Finset UInt32} {s s' t : Server κ} {k : κ} {f : Incoming}

theorem Solo.of_shared (h : Solo ids k s t) (hsess : s'.sessions k = s.sessions k)
    (hsh : s'.shared = s.shared) : Solo ids k s' t := by
  refine ⟨by rw [hsess, h.session], by rw [hsess]; exact h.owned, ?_, ?_, ?_, ?_⟩ <;> rw [hsh]
  · exact h.counterer
  · exact h.accepted
  · exact h.room
  · exact h.maxMessages

theorem Solo.takes (h : Solo ids k s t) {texts : List Text}
    (htk : Takes (s.world k) f.message texts) : Takes (t.world k) f.message texts := by
  refine htk.imp_right fun ⟨h1, h2⟩ => ⟨?_, h2⟩
  have hr := h.room
  have hm := h.maxMessages
  simp only [Server.world] at h1 ⊢
  omega

variable [DecidableEq κ]

theorem isData_of_kind (h : f.kind E = .archiveEnd ∨ ∃ m texts, f.kind E = .package m texts) :
    f.IsData := by
  have hc := f.kind_cases E
  rcases h with h | ⟨m, texts, h⟩ <;> rw [h] at hc
  · cases hc with
    | archiveEnd hd => exact hd
  · cases hc with
    | package _ hd => exact hd

theorem Server.ident_controllerId (hi : f.Identifies) (hs : s.step E (.frame k f) = some s') :
    (s'.sessions k).controllerId = f.controllerId := by
  rw [Server.step_ident hi] at hs
  obtain rfl := Option.some.inj hs
  rw [Server.put_sessions]
  exact World.start_controllerId _

theorem World.confirmed_controllerId (w : World) : w.confirmed.controllerId = w.controllerId := by
  unfold World.confirmed
  split <;> rfl

theorem Server.step_controllerId (hs : s.step E (.frame k f) = some s') :
    (s'.sessions k).controllerId = (s.sessions k).controllerId
      ∨ f.Identifies ∧ (s'.sessions k).controllerId = f.controllerId := by
  cases Server.step_cases hs with
  | ident hi => exact .inr ⟨hi, Server.ident_controllerId hi hs⟩
  | confirm =>
    rw [Server.put_sessions]
    exact .inl (World.confirmed_controllerId _)
  | archiveEnd =>
    rw [Server.put_sessions, World.archiveEnded_eq]
    exact .inl rfl
  | taken texts =>
    rw [Server.put_sessions]
    exact .inl World.taken_controllerId
  | full =>
    rw [Server.put_sessions]
    exact .inl rfl
  | refused =>
    rw [Server.put_sessions]
    exact .inl rfl
  | ignored =>
    rw [Server.put_sessions]
    exact .inl rfl

/-- Where the ids are named first, data is taken for an id of the connection. -/
theorem Separate.attributed {es : List (ServerEvent κ)} (h : Separate ids es) :
    ∀ (pre post : List (ServerEvent κ)) (s : Server κ), es = pre ++ post →
      (∀ k g, .frame k g ∈ pre → g.Identifies → (s.sessions k).controllerId ∈ ids k) →
        Along (Server.step E) (Attributed ids) s post
  | _, [], _, _, _ => trivial
  | pre, e :: post, s, he, hpre => by
    refine ⟨?_, fun s' hs => ?_⟩
    · rintro k f rfl
      refine ⟨fun hd => ?_, h.named k f (by simp [he])⟩
      obtain ⟨g, hg, hi⟩ := h.first pre k f post he hd
      exact hpre k g hg hi
    · refine h.attributed (pre ++ [e]) post s' (by simp [he]) fun k g hg hi => ?_
      rcases List.mem_append.1 hg with hg | hg
      · have hk := hpre k g hg hi
        by_cases hef : ∃ f, e = .frame k f
        · obtain ⟨f, rfl⟩ := hef
          rcases Server.step_controllerId hs with hc | ⟨hf, hc⟩
          · rwa [hc]
          · exact hc ▸ h.named k f (by simp [he]) hf
        · cases e with
          | take =>
            obtain rfl := Option.some.inj hs
            exact hk
          | frame j f =>
            rwa [Server.step_of_ne (fun hj => hef ⟨f, by rw [hj]⟩) hs]
      · obtain rfl := List.mem_singleton.1 hg
        exact Server.ident_controllerId hi hs ▸ h.named k g (by simp [he]) hi

theorem messagesOf_enqueued {w : World} (m : TransportMessage) (texts : List Text)
    {c : Finset UInt32} (h : w.controllerId ∉ c) : messagesOf c (enqueued w m texts) = [] := by
  refine List.filter_eq_nil_iff.2 fun x hx => ?_
  rw [controlId_labelled _ _ _ _ x hx]
  simpa using h

theorem Solo.other {j : κ} (h : Solo ids k s t) (hj : j ≠ k) (hdis : Disjoint (ids j) (ids k))
    (hzero : 0 ∉ ids j) (ha : Attributed ids s (.frame j f)) (hno : NoOverflow E s (.frame j f))
    (hs : s.step E (.frame j f) = some s') : Solo ids k s' t := by
  have hsess := Server.step_of_ne hj.symm hs
  cases Server.step_cases hs with
  | ident hi => exact h.of_shared hsess (World.start_shared _)
  | confirm => exact h.of_shared hsess (World.confirmed_shared _)
  | archiveEnd => exact h.of_shared hsess (World.archiveEnded_shared _)
  | taken texts kind takes =>
    have hid : (s.world j).controllerId ∈ ids j :=
      (ha j f rfl).1 (isData_of_kind (.inr ⟨_, _, kind⟩))
    have hidk : (s.world j).controllerId ∉ ids k := Finset.disjoint_left.1 hdis hid
    refine ⟨by rw [hsess, h.session], by rw [hsess]; exact h.owned, fun c hc => ?_, ?_, ?_, ?_⟩
    · have hne : c ≠ (s.world j).controllerId := by
        rintro rfl
        exact hc.elim (fun h0 => hzero (h0 ▸ hid)) hidk
      rw [h.counterer c hc, Server.put_shared, World.taken_shared]
      exact (Function.update_of_ne hne ..).symm
    · rw [h.accepted, Server.put_shared, World.taken_shared, BaseImpl.append_accepted, messagesOf,
        messagesOf, List.filter_append]
      have he := messagesOf_enqueued f.message texts hidk
      rw [messagesOf] at he
      rw [he, List.append_nil]
      rfl
    · rw [Server.put_shared, World.taken_shared, BaseImpl.append_messages, List.length_append]
      exact h.room.trans (Nat.le_add_right _ _)
    · rw [h.maxMessages, Server.put_shared, World.taken_shared, BaseImpl.append_maxMessages]
      rfl
  | full texts n kind lt full threw => exact absurd threw hno
  | refused => exact h.of_shared hsess rfl
  | ignored => exact h.of_shared hsess rfl

section Own

variable {w w' : World}

theorem World.start_congr (h : w'.toSession = w.toSession)
    (hp : w'.getLastCounter w'.controllerId = w.getLastCounter w.controllerId) :
    w'.start.toSession = w.start.toSession := by
  have hd : w'.deletion = w.deletion := by rw [World.deletion, World.deletion, hp]
  rcases w with ⟨sh, se⟩
  rcases w' with ⟨sh', se'⟩
  obtain rfl : se' = se := h
  by_cases h0 : World.getLastCounter ⟨sh, se'⟩ se'.controllerId = 0
  · rw [World.start_first h0, World.start_first (hp.trans h0)]
  · rw [World.start_known h0, World.start_known fun h => h0 (hp ▸ h), World.sendDelete_eq,
      World.sendDelete_eq, hd]
    rfl

theorem World.confirmed_congr (h : w'.toSession = w.toSession)
    (hp : w'.getLastCounter w'.controllerId = w.getLastCounter w.controllerId) :
    w'.confirmed.toSession = w.confirmed.toSession := by
  have hr : w'.requested = w.requested := by rw [World.requested, World.requested, hp]
  rcases w with ⟨sh, se⟩
  rcases w' with ⟨sh', se'⟩
  obtain rfl : se' = se := h
  by_cases hw : se'.protocolState = .waitInitialDeleteConfirm
  · rw [World.confirmed_waiting hw, World.confirmed_waiting hw, hr]
  · rw [World.confirmed_of_ne hw, World.confirmed_of_ne hw]

theorem World.archiveEnded_congr (h : w'.toSession = w.toSession)
    (hp : w'.getLastCounter w'.controllerId = w.getLastCounter w.controllerId) :
    w'.archiveEnded.toSession = w.archiveEnded.toSession := by
  have hd : w'.deletion = w.deletion := by rw [World.deletion, World.deletion, hp]
  rcases w with ⟨sh, se⟩
  rcases w' with ⟨sh', se'⟩
  obtain rfl : se' = se := h
  rw [World.archiveEnded_eq, World.archiveEnded_eq, hd]

theorem World.taken_congr (h : w'.toSession = w.toSession) (m : TransportMessage)
    (texts : List Text) : (w'.taken m texts).toSession = (w.taken m texts).toSession := by
  have hd : ∀ w : World, ((w.push (enqueued w m texts)).setLastCounter w.controllerId
      m.lastMesNumber).deletion
        = if m.lastMesNumber = 0 then [] else [.deleteData m.lastMesNumber] := by
    intro w
    simp [World.deletion, World.getLastCounter, World.setLastCounter, World.push]
  rw [World.taken, World.taken, World.settle, World.settle]
  split_ifs with hc
  · rw [World.sendDelete_eq, World.sendDelete_eq, hd, hd]
    rcases w with ⟨sh, se⟩
    rcases w' with ⟨sh', se'⟩
    obtain rfl : se' = se := h
    rfl
  · exact h

theorem enqueued_congr (h : w'.toSession = w.toSession) (m : TransportMessage)
    (texts : List Text) : enqueued w' m texts = enqueued w m texts := by
  rw [enqueued, enqueued, h]

end Own

/-- The two connections did the same, without touching what is shared. -/
theorem Solo.put (h : Solo ids k s t) {w w' : World} (hw : w.toShared = s.shared)
    (hw' : w'.toShared = t.shared) (hsess : w'.toSession = w.toSession)
    (howned : w.controllerId = 0 ∨ w.controllerId ∈ ids k) :
    Solo ids k (s.put k w []) (t.put k w' []) := by
  refine ⟨?_, ?_, ?_, ?_, ?_, ?_⟩ <;> simp only [Server.put_sessions, Server.put_shared, hw, hw']
  · exact hsess
  · exact howned
  · exact h.counterer
  · exact h.accepted
  · exact h.room
  · exact h.maxMessages

theorem Solo.taken (h : Solo ids k s t) (texts : List Text) (received received' : List Acceptance) :
    Solo ids k (s.put k ((s.world k).taken f.message texts) received)
      (t.put k ((t.world k).taken f.message texts) received') := by
  have hsess : (t.world k).toSession = (s.world k).toSession := h.session
  have hid : (t.world k).controllerId = (s.world k).controllerId :=
    congrArg Session.controllerId h.session
  have he := enqueued_congr hsess f.message texts
  refine ⟨?_, ?_, ?_, ?_, ?_, ?_⟩
  · rw [Server.put_sessions, Server.put_sessions, World.taken_congr hsess]
  · rw [Server.put_sessions, World.taken_controllerId]
    exact h.owned
  · intro c hc
    rw [Server.put_shared, Server.put_shared, World.taken_shared, World.taken_shared, hid]
    by_cases hck : c = (s.world k).controllerId
    · rw [hck]
      simp
    · simp only [Function.update_of_ne hck]
      exact h.counterer c hc
  · rw [Server.put_shared, Server.put_shared, World.taken_shared, World.taken_shared, he]
    simp only [BaseImpl.append_accepted, messagesOf, List.filter_append]
    exact congrArg (· ++ _) h.accepted
  · rw [Server.put_shared, Server.put_shared, World.taken_shared, World.taken_shared, he]
    simp only [BaseImpl.append_messages, List.length_append]
    exact Nat.add_le_add_right h.room _
  · rw [Server.put_shared, Server.put_shared, World.taken_shared, World.taken_shared]
    exact h.maxMessages

theorem Solo.own (h : Solo ids k s t) (ha : Attributed ids s (.frame k f))
    (hno : NoOverflow E s (.frame k f)) (hs : s.step E (.frame k f) = some s') :
    ∃ t', t.step E (.frame k f) = some t' ∧ Solo ids k s' t' := by
  have hsess : (t.world k).toSession = (s.world k).toSession := h.session
  have hpos : ∀ c, c = 0 ∨ c ∈ ids k →
      (t.world k).getLastCounter c = (s.world k).getLastCounter c :=
    fun c hc => congrArg (·.getD 0) (h.counterer c hc)
  have hid : (t.world k).controllerId = (s.world k).controllerId :=
    congrArg Session.controllerId h.session
  have hown : (t.world k).getLastCounter (t.world k).controllerId
      = (s.world k).getLastCounter (s.world k).controllerId := by
    rw [hid]
    exact hpos _ h.owned
  cases Server.step_cases hs with
  | ident hi =>
    have hmem := (ha k f rfl).2 hi
    refine ⟨_, Server.step_ident hi, h.put (World.start_shared _) (World.start_shared _) ?_ ?_⟩
    · refine World.start_congr ?_ (hpos _ (.inr hmem))
      simp only [World.identify]
      rw [hsess]
    · rw [World.start_controllerId]
      exact .inr hmem
  | confirm hc =>
    refine ⟨_, Server.step_confirm hc, h.put (World.confirmed_shared _)
      (World.confirmed_shared _) (World.confirmed_congr hsess hown) ?_⟩
    rw [World.confirmed_controllerId]
    exact h.owned
  | archiveEnd kind =>
    refine ⟨_, Server.step_archiveEnd kind, h.put (World.archiveEnded_shared _)
      (World.archiveEnded_shared _) (World.archiveEnded_congr hsess hown) ?_⟩
    rw [World.archiveEnded_eq]
    exact h.owned
  | taken texts kind takes => exact ⟨_, Server.step_taken kind (h.takes takes), h.taken ..⟩
  | full texts n kind lt full threw => exact absurd threw hno
  | refused e kind =>
    refine ⟨_, Server.step_refused kind, h.put rfl rfl ?_ h.owned⟩
    simp only [World.stop]
    rw [hsess]
  | ignored kind => exact ⟨_, Server.step_ignored kind, h.put rfl rfl hsess h.owned⟩

/-- In every run of connections of different controllers, each sends what it would send alone, and
its controllers' counters and messages are what they would be. -/
theorem solo_run (E : Env) (ids : κ → Finset UInt32) (shared : Shared)
    {es : List (ServerEvent κ)} {s : Server κ} (hsep : Separate ids es)
    (hno : Along (Server.step E) (NoOverflow E) (Server.start shared) es)
    (hr : run (Server.step E) (Server.start shared) es = some s) (k : κ) :
    ∃ t, run (Server.step E) (Server.start shared) (es.filter (ownEvent k)) = some t
      ∧ (t.sessions k).sent = (s.sessions k).sent
      ∧ (∀ c ∈ ids k, t.shared.counterer c = s.shared.counterer c)
      ∧ messagesOf (ids k) t.shared.backend.accepted
        = messagesOf (ids k) s.shared.backend.accepted := by
  have hatt : Along (Server.step E) (Attributed ids) (Server.start shared) es :=
    hsep.attributed [] es _ rfl (by simp)
  have h0 : Solo ids k (Server.start shared) (Server.start shared) :=
    ⟨rfl, .inl rfl, fun _ _ => rfl, rfl, Nat.le_refl _, rfl⟩
  have hown : ∀ (s t : Server κ) (e : ServerEvent κ) (s' : Server κ), Solo ids k s t →
      NoOverflow E s e ∧ Attributed ids s e → ownEvent k e = true → s.step E e = some s' →
        ∃ t', t.step E e = some t' ∧ Solo ids k s' t' := by
    rintro s t e s' h ⟨hno, ha⟩ ho hs
    cases e with
    | take =>
      obtain rfl := Option.some.inj hs
      exact ⟨_, rfl, h.session, h.owned, h.counterer, h.accepted, Nat.le_refl _, h.maxMessages⟩
    | frame j f =>
      obtain rfl : j = k := by simpa [ownEvent] using ho
      exact h.own ha hno hs
  have hother : ∀ (s t : Server κ) (e : ServerEvent κ) (s' : Server κ), Solo ids k s t →
      NoOverflow E s e ∧ Attributed ids s e → ownEvent k e = false → s.step E e = some s' →
        Solo ids k s' t := by
    rintro s t e s' h ⟨hno, ha⟩ ho hs
    cases e with
    | take => simp [ownEvent] at ho
    | frame j f =>
      have hj : j ≠ k := by simpa [ownEvent] using ho
      exact h.other hj (hsep.disjoint j k hj) (hsep.nonzero j) ha hno hs
  obtain ⟨t, ht, hR⟩ := run_filter hown hother h0 (hno.and hatt) hr
  exact ⟨t, ht, congrArg Session.sent hR.session, fun c hc => hR.counterer c (.inr hc),
    hR.accepted⟩

/-! Two controllers, one connection each. -/

def identEight : TransportMessage :=
  ⟨TmCode.cControllerIdent, [8, 0, 0, 0, 1, 0, 0, 0], by decide⟩

def twoControllers : List (ServerEvent Bool) :=
  [.frame true (.alone identSeven), .frame false (.alone identEight),
    .frame true (.alone (oneEvent TmCode.cCurrentData 5))]

def noCounters : Shared := ⟨fun _ => none, ⟨10, [], []⟩⟩

theorem separate_twoControllers :
    Separate (fun k : Bool => if k then {7} else {8}) twoControllers := by
  constructor
  · decide
  · decide
  · intro k f hf hi
    simp only [twoControllers, List.mem_cons, ServerEvent.frame.injEq, List.not_mem_nil,
      or_false] at hf
    rcases hf with ⟨rfl, rfl⟩ | ⟨rfl, rfl⟩ | ⟨rfl, rfl⟩
    · decide +kernel
    · decide +kernel
    · exact absurd hi.1 (by decide)
  · intro pre k f post he hd
    rcases pre with _ | ⟨a, _ | ⟨b, _ | ⟨c, pre⟩⟩⟩ <;>
      simp only [twoControllers, List.nil_append, List.cons_append, List.cons.injEq,
        ServerEvent.frame.injEq] at he
    · obtain ⟨⟨-, rfl⟩, -⟩ := he
      exact absurd hd (by decide)
    · obtain ⟨-, ⟨-, rfl⟩, -⟩ := he
      exact absurd hd (by decide)
    · obtain ⟨rfl, -, ⟨rfl, -⟩, -⟩ := he
      exact ⟨_, List.mem_cons_self, by decide +kernel⟩
    · simp at he

theorem solo_run_two : ∃ s t,
    run (Server.step eventOnly) (Server.start noCounters) twoControllers = some s
      ∧ run (Server.step eventOnly) (Server.start noCounters) (twoControllers.filter (ownEvent true))
        = some t
      ∧ (t.sessions true).sent = (s.sessions true).sent := by
  have h : (run (Server.step eventOnly) (Server.start noCounters) twoControllers).isSome := by
    decide +kernel
  obtain ⟨s, hs⟩ := Option.isSome_iff_exists.1 h
  obtain ⟨t, ht, hsent, -⟩ := solo_run eventOnly _ noCounters separate_twoControllers
    (by decide +kernel) hs true
  exact ⟨s, t, hs, ht, hsent⟩

end Communicator
