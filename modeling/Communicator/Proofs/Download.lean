import Communicator.Proofs.Deletions

/-!
# Starting the archive download

A controller with a counter is first told to delete what was accepted, and the request for the rest
waits for its confirmation. The confirmation finds `wait_initial_delete_confirm` overwritten if an
empty archive frame was handled or current data accepted in between, and then no request is sent.
-/

namespace Communicator

open Lts

def Request.isDataRequest : Request → Bool
  | .dataRequest _ => true
  | .deleteData _ => false

def ServerEvent.Confirms {κ : Type} (k : κ) : ServerEvent κ → Prop
  | .frame j f => j = k ∧ f.IsConfirm
  | .take => False

section Definitions

variable {κ : Type} (E : Env) (k : κ)

def asked (s : Server κ) : ℕ := (s.sessions k).sent.countP (·.isDataRequest)

def Waiting (s : Server κ) : Prop :=
  (s.sessions k).protocolState = .waitInitialDeleteConfirm

/-- No frame after which the handler sets `wait_final_delete_confirm`. -/
def Uninterrupted (s : Server κ) : ServerEvent κ → Prop
  | .frame j f => j = k → f.kind E ≠ .archiveEnd ∧ ∀ texts,
      f.kind E = .package f.message texts → f.message.cmd = TmCode.cCurrentData →
        ¬ Takes (s.world k) f.message texts
  | .take => True

end Definitions

variable {κ : Type} [DecidableEq κ] {E : Env} {k : κ} {s s' : Server κ}

theorem waiting_put {w : World} {received : List Acceptance} :
    Waiting k (s.put k w received) ↔ w.protocolState = .waitInitialDeleteConfirm := by
  rw [Waiting, Server.put_sessions]

theorem asked_put {w : World} {received : List Acceptance} :
    asked k (s.put k w received) = w.sent.countP (·.isDataRequest) := by
  rw [asked, Server.put_sessions]

theorem countP_deletion (w : World) : w.deletion.countP (·.isDataRequest) = 0 := by
  unfold World.deletion
  split <;> rfl

theorem waiting_confirm {f : Incoming} (hc : f.IsConfirm) (hw : Waiting k s)
    (hs : s.step E (.frame k f) = some s') : ¬ Waiting k s' ∧ asked k s' = asked k s + 1 := by
  have hw' : (s.world k).protocolState = .waitInitialDeleteConfirm := hw
  rw [Server.step_confirm hc, World.confirmed_waiting hw'] at hs
  obtain rfl := Option.some.inj hs
  rw [waiting_put, asked_put, List.countP_append]
  exact ⟨by simp, rfl⟩

/-- Apart from an awaited confirmation no frame is answered by a request, and the wait goes on
unless it is disturbed. -/
theorem waiting_step {f : Incoming} (hn : ¬ f.Identifies) (hc : ¬ (f.IsConfirm ∧ Waiting k s))
    (hs : s.step E (.frame k f) = some s') :
    asked k s' = asked k s ∧ (Waiting k s' ↔ Waiting k s ∧ Uninterrupted E k s (.frame k f)) := by
  have hundisturbed : ∀ kd, f.kind E = kd → kd ≠ .archiveEnd → (∀ m texts, kd ≠ .package m texts) →
      Uninterrupted E k s (.frame k f) :=
    fun kd hk h1 h2 _ => ⟨hk ▸ h1, fun texts hk' => absurd (hk ▸ hk') (h2 _ _)⟩
  cases Server.step_cases hs with
  | ident hi => exact absurd hi hn
  | confirm hf =>
    have hw : (s.world k).protocolState ≠ .waitInitialDeleteConfirm := fun hw => hc ⟨hf, hw⟩
    rw [World.confirmed_of_ne hw, waiting_put, asked_put]
    exact ⟨rfl, iff_of_false hw fun h => hw h.1⟩
  | archiveEnd kind =>
    rw [World.archiveEnded_eq, waiting_put, asked_put, List.countP_append, countP_deletion]
    exact ⟨rfl, iff_of_false (by simp) fun h => (h.2 rfl).1 kind⟩
  | taken texts kind takes =>
    rw [waiting_put, asked_put, World.taken_sent, World.taken_protocolState]
    by_cases hcur : f.message.cmd = TmCode.cCurrentData
    · rw [if_pos hcur, List.countP_append]
      refine ⟨?_, iff_of_false (by simp) fun h => (h.2 rfl).2 texts kind hcur takes⟩
      split <;> rfl
    · rw [if_neg fun h => hcur h.1, if_neg hcur, List.append_nil]
      refine ⟨rfl, ⟨fun h => ⟨h, fun _ => ⟨by simp [kind], fun _ _ h => absurd h hcur⟩⟩, And.left⟩⟩
  | full texts n kind lt full =>
    rw [waiting_put, asked_put]
    refine ⟨rfl, ⟨fun h => ⟨h, fun _ => ⟨by simp [kind], fun texts' kind' _ htk => ?_⟩⟩, And.left⟩⟩
    rw [kind, Kind.package.injEq] at kind'
    exact not_takes_of_full lt full (kind'.2 ▸ htk)
  | refused e kind =>
    rw [waiting_put, asked_put]
    have hu := hundisturbed _ kind (by simp) (by simp)
    exact ⟨rfl, ⟨fun h => ⟨h, hu⟩, And.left⟩⟩
  | ignored kind =>
    rw [waiting_put, asked_put]
    have hu := hundisturbed _ kind (by simp) (by simp)
    exact ⟨rfl, ⟨fun h => ⟨h, hu⟩, And.left⟩⟩

theorem waiting_other {e : ServerEvent κ} (he : ∀ f, e ≠ .frame k f)
    (hs : s.step E e = some s') : s'.sessions k = s.sessions k ∧ Uninterrupted E k s e := by
  cases e with
  | take =>
    obtain rfl := Option.some.inj hs
    exact ⟨rfl, trivial⟩
  | frame j f =>
    have hj : k ≠ j := fun h => he f (h ▸ rfl)
    exact ⟨Server.step_of_ne hj hs, fun h => absurd h.symm hj⟩

/-- Without an awaited confirmation nothing is requested. -/
theorem waiting_step_event {e : ServerEvent κ} (hn : ∀ f, e = .frame k f → ¬ f.Identifies)
    (hc : ¬ (e.Confirms k ∧ Waiting k s)) (hs : s.step E e = some s') :
    asked k s' = asked k s ∧ (Waiting k s' ↔ Waiting k s ∧ Uninterrupted E k s e) := by
  by_cases he : ∃ f, e = .frame k f
  · obtain ⟨f, rfl⟩ := he
    exact waiting_step (hn f rfl) (fun h => hc ⟨⟨rfl, h.1⟩, h.2⟩) hs
  · obtain ⟨hsess, hu⟩ := waiting_other (fun f hf => he ⟨f, hf⟩) hs
    rw [asked, asked, Waiting, Waiting, hsess]
    exact ⟨rfl, (and_iff_left hu).symm⟩

theorem not_waiting_run : ∀ {es : List (ServerEvent κ)} {s s' : Server κ}, ¬ Waiting k s →
    (∀ f, .frame k f ∈ es → ¬ f.Identifies) → run (Server.step E) s es = some s' →
      asked k s' = asked k s
  | [], s, s', _, _, hr => by
    obtain rfl := Option.some.inj hr
    rfl
  | e :: es, s, s', hw, hn, hr => by
    obtain ⟨t, ht, hr⟩ := Option.bind_eq_some_iff.1 hr
    obtain ⟨ha, hwt⟩ := waiting_step_event (fun f hf => hn f (hf ▸ List.mem_cons_self))
      (fun h => hw h.2) ht
    rw [← ha]
    exact not_waiting_run (fun h => hw (hwt.1 h).1)
      (fun f hf => hn f (List.mem_cons_of_mem _ hf)) hr

theorem waiting_run : ∀ {es : List (ServerEvent κ)} {s s' : Server κ}, Waiting k s →
    (∀ f, .frame k f ∈ es → ¬ f.Identifies) → (∃ e ∈ es, e.Confirms k) →
      run (Server.step E) s es = some s' →
        (asked k s' = asked k s + 1
          ↔ AlongUntil (Server.step E) (·.Confirms k) (Uninterrupted E k) s es)
  | [], _, _, _, _, hc, _ => by
    obtain ⟨e, he, -⟩ := hc
    simp at he
  | e :: es, s, s', hw, hn, hc, h => by
    obtain ⟨t, ht, hr⟩ := Option.bind_eq_some_iff.1 h
    have hn' : ∀ f, .frame k f ∈ es → ¬ f.Identifies :=
      fun f hf => hn f (List.mem_cons_of_mem _ hf)
    have hin : ∀ f, e = .frame k f → ¬ f.Identifies := fun f hf => hn f (hf ▸ List.mem_cons_self)
    by_cases he : e.Confirms k
    · refine iff_of_true ?_ (.inl he)
      cases e with
      | take => exact he.elim
      | frame j f =>
        obtain ⟨rfl, hf⟩ := he
        obtain ⟨hwt, ha⟩ := waiting_confirm hf hw ht
        rw [← ha]
        exact not_waiting_run hwt hn' hr
    · obtain ⟨ha, hwt⟩ := waiting_step_event hin (fun h => he h.1) ht
      have hc' : ∃ e ∈ es, e.Confirms k := by
        obtain ⟨c, hmem, hcc⟩ := hc
        rcases List.mem_cons.1 hmem with rfl | hmem
        · exact absurd hcc he
        · exact ⟨c, hmem, hcc⟩
      by_cases hu : Uninterrupted E k s e
      · rw [← ha, waiting_run (hwt.2 ⟨hw, hu⟩) hn' hc' hr]
        refine ⟨fun h => .inr ⟨hu, fun t' ht' => ?_⟩, fun h => (h.resolve_left he).2 t ht⟩
        exact Option.some.inj (ht.symm.trans ht') ▸ h
      · have := not_waiting_run (fun h => hu (hwt.1 h).2) hn' hr
        exact iff_of_false (by omega) fun h => hu (h.resolve_left he).1

/-- After an identification exactly one request is sent, at once or by the next confirmation,
unless an empty archive frame or current data is handled before the confirmation. -/
theorem asked_once_iff (E : Env) (k : κ) {s s₁ s₂ : Server κ} {f : Incoming}
    {es : List (ServerEvent κ)} (hf : f.Identifies) (h₁ : s.step E (.frame k f) = some s₁)
    (hn : ∀ g, .frame k g ∈ es → ¬ g.Identifies)
    (hc : s.shared.position f.controllerId = 0 ∨ ∃ e ∈ es, e.Confirms k)
    (h₂ : run (Server.step E) s₁ es = some s₂) :
    asked k s₂ = asked k s + 1 ↔ s.shared.position f.controllerId = 0
      ∨ AlongUntil (Server.step E) (·.Confirms k) (Uninterrupted E k) s₁ es := by
  rw [Server.step_ident hf] at h₁
  obtain rfl := Option.some.inj h₁
  generalize hw : (s.world k).identify f.controllerId f.firmwareVersion = w at *
  have hsent : w.sent = (s.sessions k).sent := hw ▸ rfl
  by_cases h0 : s.shared.position f.controllerId = 0
  · have hw0 : w.getLastCounter w.controllerId = 0 := hw ▸ h0
    refine iff_of_true ?_ (.inl h0)
    rw [World.start_first hw0] at h₂
    rw [not_waiting_run (by rw [waiting_put]; simp) hn h₂, asked_put, List.countP_append, hsent]
    rfl
  · have hw0 : w.getLastCounter w.controllerId ≠ 0 := hw ▸ h0
    rw [World.start_known hw0, World.sendDelete_eq] at h₂
    have ha : asked k (s.put k w.start []) = asked k s := by
      rw [World.start_known hw0, World.sendDelete_eq, asked_put]
      simp [World.setProtocolState, countP_deletion, hsent, asked]
    rw [← ha, World.start_known hw0, World.sendDelete_eq, or_iff_right h0]
    exact waiting_run (waiting_put.2 rfl) hn (hc.resolve_left h0) h₂

def knownServer : Server Unit :=
  .start ⟨Function.update (fun _ => none) 7 (some 5), ⟨10, [], []⟩⟩

def identFrame : ServerEvent Unit := .frame () (.alone identSeven)

def confirmFrame : ServerEvent Unit := .frame () (.alone confirmation)

def currentFrame : ServerEvent Unit := .frame () (.alone (oneEvent TmCode.cCurrentData 6))

theorem asked_once_confirmation : ∃ s, run (Server.step eventOnly) knownServer
    [identFrame, confirmFrame] = some s ∧ asked () s = asked () knownServer + 1 := by
  have h : (run (Server.step eventOnly) knownServer [identFrame, confirmFrame]).isSome := by
    decide +kernel
  obtain ⟨s, hs⟩ := Option.isSome_iff_exists.1 h
  obtain ⟨s₁, h₁, h₂⟩ := Option.bind_eq_some_iff.1 hs
  have hi : (Incoming.alone identSeven).Identifies :=
    Incoming.identifies_iff.2 ⟨rfl, by decide⟩
  have hn : ∀ g, .frame () g ∈ [confirmFrame] → ¬ g.Identifies := by
    intro g hg
    obtain rfl : g = .alone confirmation := by simpa [confirmFrame] using hg
    exact fun h => absurd h.1 (by decide)
  exact ⟨s, hs, (asked_once_iff eventOnly () hi h₁ hn
    (.inr ⟨_, List.mem_cons_self, rfl, rfl⟩) h₂).2 (.inr (.inl ⟨rfl, rfl⟩))⟩

/-- Current data between the deletion and its confirmation: the archive is not requested. -/
theorem not_asked_once_current : ∃ s₁ s₂, knownServer.step eventOnly identFrame = some s₁
    ∧ run (Server.step eventOnly) s₁ [currentFrame, confirmFrame] = some s₂
    ∧ confirmFrame.Confirms () ∧ asked () s₂ ≠ asked () knownServer + 1 := by
  have h : (run (Server.step eventOnly) knownServer [identFrame, currentFrame, confirmFrame]).map
      (asked ()) = some 0 := by
    decide +kernel
  obtain ⟨s₂, hs, ha⟩ := Option.map_eq_some_iff.1 h
  obtain ⟨s₁, h₁, h₂⟩ := Option.bind_eq_some_iff.1 hs
  refine ⟨s₁, s₂, h₁, h₂, ⟨rfl, rfl⟩, ?_⟩
  rw [ha]
  simp

end Communicator
