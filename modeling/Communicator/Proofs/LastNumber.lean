import Communicator.Proofs.Download

/-!
# Where the next session goes on

A session is told to delete up to the counter and then asked for the message after it. The counter
0 is taken for a controller that was never seen, and the number after the last one there is is 0
again: for these two numbers a known controller is asked for its whole archive.
-/

namespace Communicator

open Lts

/-- The identification between `s` and `s₁` is answered by the deletion up to `n`, the confirmation
between `s₂` and `s₃` by the request for the message after it. -/
structure Resumes {κ : Type} (k : κ) (n : UInt32) (s s₁ s₂ s₃ : Server κ) : Prop where
  deletes : (s₁.sessions k).sent = (s.sessions k).sent ++ [.deleteData n]
  requests : ∃ m, (s₃.sessions k).sent = (s₂.sessions k).sent ++ [.dataRequest m]
    ∧ m.toNat = n.toNat + 1

variable {κ : Type} [DecidableEq κ] {E : Env} {k : κ} {s s₁ s₂ s₃ : Server κ}

theorem toNat_add_one_iff (n : UInt32) : (n + 1).toNat = n.toNat + 1 ↔ n ≠ 0xFFFFFFFF := by
  have hlt := n.toNat_lt
  rw [UInt32.toNat_add, UInt32.toNat_one, Ne, ← UInt32.toNat_inj]
  have hmax : (0xFFFFFFFF : UInt32).toNat = 4294967295 := rfl
  rw [hmax]
  omega

omit [DecidableEq κ] in
theorem Recorded.counterer_of_latest {loaded : Shared} {c : UInt32} {a : Acceptance}
    (h : Recorded loaded s) (ha : latest c s.received = some a) :
    s.shared.counterer c = some a.last := by
  rcases h c with ⟨h1, -⟩ | ⟨a', h1, h2, -⟩
  · rw [ha] at h1
    simp at h1
  · rw [ha, Option.some.injEq] at h1
    exact h1 ▸ h2

/-- Frames of other connections and the worker leave a session as it is. -/
theorem sessions_run_of_ne : ∀ {es : List (ServerEvent κ)} {s s' : Server κ},
    (∀ f, .frame k f ∉ es) → run (Server.step E) s es = some s' → s'.sessions k = s.sessions k
  | [], s, s', _, hr => by
    obtain rfl := Option.some.inj hr
    rfl
  | e :: es, s, s', hne, hr => by
    obtain ⟨t, ht, hr⟩ := Option.bind_eq_some_iff.1 hr
    have hes := sessions_run_of_ne (fun f hf => hne f (List.mem_cons_of_mem _ hf)) hr
    rw [hes]
    cases e with
    | take =>
      obtain rfl := Option.some.inj ht
      rfl
    | frame j f =>
      have hj : k ≠ j := by
        rintro rfl
        exact hne f List.mem_cons_self
      exact Server.step_of_ne hj ht

theorem ident_first {f : Incoming} (hf : f.Identifies)
    (h0 : s.shared.position f.controllerId = 0) (h : s.step E (.frame k f) = some s₁) :
    (s₁.sessions k).sent = (s.sessions k).sent ++ [.dataRequest 0] := by
  have h0' : ((s.world k).identify f.controllerId f.firmwareVersion).getLastCounter
      f.controllerId = 0 := h0
  rw [Server.step_ident hf, World.start_first h0'] at h
  obtain rfl := Option.some.inj h
  rw [Server.put_sessions]
  rfl

theorem ident_known {f : Incoming} (hf : f.Identifies)
    (h0 : s.shared.position f.controllerId ≠ 0) (h : s.step E (.frame k f) = some s₁) :
    (s₁.sessions k).sent
        = (s.sessions k).sent ++ [.deleteData (s.shared.position f.controllerId)]
      ∧ (s₁.sessions k).controllerId = f.controllerId
      ∧ (s₁.sessions k).protocolState = .waitInitialDeleteConfirm := by
  rw [Server.step_ident hf] at h
  generalize hw : (s.world k).identify f.controllerId f.firmwareVersion = w at *
  have h0' : w.getLastCounter w.controllerId ≠ 0 := hw ▸ h0
  have hd : w.deletion = [.deleteData (s.shared.position f.controllerId)] := by
    unfold World.deletion
    rw [if_neg h0']
    subst hw
    rfl
  rw [World.start_known h0', World.sendDelete_eq, hd] at h
  obtain rfl := Option.some.inj h
  rw [Server.put_sessions]
  subst hw
  exact ⟨rfl, rfl, rfl⟩

theorem confirm_waiting {g : Incoming} (hg : g.IsConfirm)
    (hw : (s₂.sessions k).protocolState = .waitInitialDeleteConfirm)
    (h : s₂.step E (.frame k g) = some s₃) :
    (s₃.sessions k).sent = (s₂.sessions k).sent
      ++ [.dataRequest (requestAfter (s₂.shared.position (s₂.sessions k).controllerId))] := by
  have hw' : (s₂.world k).protocolState = .waitInitialDeleteConfirm := hw
  rw [Server.step_confirm hg, World.confirmed_waiting hw'] at h
  obtain rfl := Option.some.inj h
  rw [Server.put_sessions]
  rfl

/-- A controller of which a frame was accepted is resumed behind it exactly if the frame's last
number was neither 0 nor the last number there is. -/
theorem resumes_iff (E : Env) (loaded : Shared) {es between : List (ServerEvent κ)}
    {f g : Incoming} {a : Acceptance} (hr : run (Server.step E) (Server.start loaded) es = some s)
    (hf : f.Identifies) (ha : latest f.controllerId s.received = some a)
    (h₁ : s.step E (.frame k f) = some s₁) (hne : ∀ f, .frame k f ∉ between)
    (h₂ : run (Server.step E) s₁ between = some s₂)
    (ha₂ : latest f.controllerId s₂.received = some a) (hg : g.IsConfirm)
    (h₃ : s₂.step E (.frame k g) = some s₃) :
    Resumes k a.last s s₁ s₂ s₃ ↔ a.last ≠ 0 ∧ a.last ≠ 0xFFFFFFFF := by
  have hstart : Recorded loaded (Server.start (κ := κ) loaded) := fun c => .inl ⟨rfl, rfl⟩
  have hrec : Recorded loaded s := run_of_step (fun _ _ _ h hs => h.step hs) hstart hr
  have hrec₂ : Recorded loaded s₂ :=
    run_of_step (fun _ _ _ h hs => h.step hs) (hrec.step h₁) h₂
  have hp : s.shared.position f.controllerId = a.last := by
    rw [Shared.position, hrec.counterer_of_latest ha]
    rfl
  have hp₂ : s₂.shared.position f.controllerId = a.last := by
    rw [Shared.position, hrec₂.counterer_of_latest ha₂]
    rfl
  by_cases h0 : a.last = 0
  · refine iff_of_false (fun h => ?_) fun h => h.1 h0
    have hd := h.deletes
    rw [ident_first hf (hp.trans h0) h₁] at hd
    simp at hd
  · obtain ⟨hsent, hid, hst⟩ := ident_known hf (by rwa [hp]) h₁
    have hsess := sessions_run_of_ne hne h₂
    have hreq := confirm_waiting hg (by rw [hsess, hst]) h₃
    rw [hsess, hid, hp₂, ← hsess, requestAfter, if_pos h0] at hreq
    rw [hp] at hsent
    constructor
    · rintro ⟨-, m, hm, hsucc⟩
      rw [hreq] at hm
      obtain rfl : a.last + 1 = m := by simpa using hm
      exact ⟨h0, (toNat_add_one_iff _).1 hsucc⟩
    · rintro ⟨-, hmax⟩
      exact ⟨hsent, _, hreq, (toNat_add_one_iff _).2 hmax⟩

def archiveFrame (last : UInt8) : ServerEvent Unit :=
  .frame () (.alone (oneEvent TmCode.cArchiveData last))

/-- One message, under the last number there is. -/
def highest : TransportMessage :=
  ⟨TmCode.cArchiveData, [255, 255, 255, 255, 0, 0, 0, 0, 0, 3, 0, 0x0A, 1, 5], by decide⟩

def highestFrame : ServerEvent Unit := .frame () (.alone highest)

def lastAccepted (es : List (ServerEvent Unit)) : Option UInt32 :=
  (run (Server.step eventOnly) (newServer 10) es).bind fun s => (latest 7 s.received).map (·.last)

/-- What was sent when the controller has identified itself again behind `es`. -/
def sentAgain (es : List (ServerEvent Unit)) : Option (List Request) :=
  (run (Server.step eventOnly) (newServer 10) es).bind fun s =>
    (run (Server.step eventOnly) s [identFrame, confirmFrame]).map fun s => (s.sessions ()).sent

/-- A session in which a frame of the controller is accepted and the controller identifies itself
again. -/
theorem exists_again {es : List (ServerEvent Unit)} {last : UInt32} {sent : List Request}
    (hlast : lastAccepted es = some last) (hsent : sentAgain es = some sent) :
    ∃ s s₁ s₂ a, run (Server.step eventOnly) (newServer 10) es = some s
      ∧ latest 7 s.received = some a ∧ a.last = last ∧ s.step eventOnly identFrame = some s₁
      ∧ s₁.step eventOnly confirmFrame = some s₂ ∧ (s₂.sessions ()).sent = sent := by
  obtain ⟨s, hs, ha⟩ := Option.bind_eq_some_iff.1 hlast
  obtain ⟨a, ha, hlast⟩ := Option.map_eq_some_iff.1 ha
  unfold sentAgain at hsent
  rw [hs, Option.bind_some] at hsent
  obtain ⟨s₂, hrun, hsent⟩ := Option.map_eq_some_iff.1 hsent
  obtain ⟨s₁, h₁, hrun⟩ := Option.bind_eq_some_iff.1 hrun
  obtain ⟨t, h₂, hrun⟩ := Option.bind_eq_some_iff.1 hrun
  obtain rfl := Option.some.inj hrun
  exact ⟨s, s₁, t, a, hs, ha, hlast, h₁, h₂, hsent⟩

theorem resumes_behind_five : ∃ s s₁ s₂ a,
    run (Server.step eventOnly) (newServer 10) [identFrame, archiveFrame 5] = some s
      ∧ latest 7 s.received = some a ∧ a.last = 5 ∧ s.step eventOnly identFrame = some s₁
      ∧ s₁.step eventOnly confirmFrame = some s₂ ∧ Resumes () a.last s s₁ s₁ s₂ := by
  have hacc : lastAccepted [identFrame, archiveFrame 5] = some 5 := by decide +kernel
  have hsent : sentAgain [identFrame, archiveFrame 5]
      = some [.dataRequest 0, .deleteData 5, .dataRequest 6] := by decide +kernel
  obtain ⟨s, s₁, s₂, a, hs, ha, hlast, h₁, h₂, -⟩ := exists_again hacc hsent
  have hi : (Incoming.alone identSeven).Identifies :=
    Incoming.identifies_iff.2 ⟨rfl, by decide⟩
  have hrec : latest 7 s₁.received = some a := by
    rw [identFrame, Server.step_ident hi] at h₁
    obtain rfl := Option.some.inj h₁
    simpa [Server.put] using ha
  refine ⟨s, s₁, s₂, a, hs, ha, hlast, h₁, h₂, ?_⟩
  have hg : (Incoming.alone confirmation).IsConfirm := rfl
  have hnil : run (Server.step eventOnly) s₁ [] = some s₁ := rfl
  refine (resumes_iff eventOnly _ hs hi ha h₁ (by simp) hnil hrec hg h₂).2 ?_
  rw [hlast]
  decide

/-- Behind the last number there is the whole archive is asked for again. -/
theorem archive_asked_again : ∃ s s₁ s₂ a,
    run (Server.step eventOnly) (newServer 10) [identFrame, highestFrame] = some s
      ∧ latest 7 s.received = some a ∧ s.step eventOnly identFrame = some s₁
      ∧ s₁.step eventOnly confirmFrame = some s₂
      ∧ (s₂.sessions ()).sent = [.dataRequest 0, .deleteData 0xFFFFFFFF, .dataRequest 0]
      ∧ ¬ Resumes () a.last s s₁ s₁ s₂ := by
  have hacc : lastAccepted [identFrame, highestFrame] = some 0xFFFFFFFF := by decide +kernel
  have hagain : sentAgain [identFrame, highestFrame]
      = some [.dataRequest 0, .deleteData 0xFFFFFFFF, .dataRequest 0] := by decide +kernel
  obtain ⟨s, s₁, s₂, a, hs, ha, hlast, h₁, h₂, hsent⟩ := exists_again hacc hagain
  refine ⟨s, s₁, s₂, a, hs, ha, h₁, h₂, hsent, fun hres => ?_⟩
  obtain ⟨m, -, hm⟩ := hres.requests
  have hlt := m.toNat_lt
  rw [hm, hlast] at hlt
  exact absurd hlt (by decide)

end Communicator
