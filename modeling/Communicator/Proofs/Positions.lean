import Communicator.Proofs.Deletions

/-!
# The accepted position

Whatever number an accepted frame carries is written over the controller's counter, so the counter
goes back when an older frame is accepted after a newer one, as an archive frame after current data
or a frame of an old connection. A request asks for the message after the counter, which after the
last number of all is the first again.
-/

namespace Communicator

section Definitions

variable {κ : Type} (E : Env) (loaded : Shared)

/-- A step moves no position back and asks for nothing that was accepted before it. -/
def Forward [DecidableEq κ] (s : Server κ) (e : ServerEvent κ) : Prop :=
  ∀ s' ∈ s.step E e, (∀ c, s.shared.position c ≤ s'.shared.position c)
    ∧ ∀ k n new, (s'.sessions k).sent = (s.sessions k).sent ++ new → .dataRequest n ∈ new →
      (loaded.position (s'.sessions k).controllerId = 0
          ∨ loaded.position (s'.sessions k).controllerId < n)
        ∧ ∀ a ∈ s.received, a.controllerId = (s'.sessions k).controllerId → a.last < n

/-- A step that accepts no frame older than the counter and requests nothing after the last number
there is, nor from the start once a frame of the controller was accepted. -/
structure Advancing (s : Server κ) (e : ServerEvent κ) : Prop where
  accepts : ∀ k f texts, e = .frame k f → f.kind E = .package f.message texts →
    Takes (s.world k) f.message texts →
      s.shared.position (s.sessions k).controllerId ≤ f.message.lastMesNumber
  requests : ∀ c, Requests s e c → s.shared.position c ≠ 0xFFFFFFFF
    ∧ (s.shared.position c = 0 → latest c s.received = none)

/-- Every position accepted so far is at most the counter. -/
structure Climbing (s : Server κ) : Prop where
  recorded : Recorded loaded s
  loaded_le : ∀ c, loaded.position c ≤ s.shared.position c
  received_le : ∀ a ∈ s.received, a.last ≤ s.shared.position a.controllerId

end Definitions

variable {κ : Type} {E : Env} {loaded : Shared} {s s' : Server κ}

theorem mem_of_latest {c : UInt32} {received : List Acceptance} {a : Acceptance}
    (h : latest c received = some a) : a ∈ received ∧ a.controllerId = c := by
  have := List.mem_of_getLast? h
  simpa using this

theorem latest_eq_none {c : UInt32} {received : List Acceptance} :
    latest c received = none ↔ ∀ a ∈ received, a.controllerId ≠ c := by
  simp [latest]

variable [DecidableEq κ]

theorem position_taken (k : κ) (m : TransportMessage) (texts : List Text)
    (received : List Acceptance) (c : UInt32) :
    (s.put k ((s.world k).taken m texts) received).shared.position c
      = if c = (s.sessions k).controllerId then m.lastMesNumber else s.shared.position c := by
  have hc : (s.world k).controllerId = (s.sessions k).controllerId := rfl
  rw [Server.put_shared, World.taken_shared, hc]
  by_cases h : c = (s.sessions k).controllerId
  · simp [Shared.position, h]
  · simp [Shared.position, h, Server.world]

theorem Advancing.position_le {e : ServerEvent κ} (h : Advancing E s e)
    (hs : s.step E e = some s') (c : UInt32) : s.shared.position c ≤ s'.shared.position c := by
  rcases Server.step_counterer hs with ⟨-, hc, -⟩ | ⟨k, f, texts, rfl, hk, ht, rfl⟩
  · rw [Shared.position, Shared.position, hc]
    exact UInt32.le_refl _
  · rw [position_taken]
    split_ifs with he
    · exact he ▸ h.accepts k f texts rfl hk ht
    · exact UInt32.le_refl _

theorem Climbing.step {e : ServerEvent κ} (h : Climbing loaded s) (ha : Advancing E s e)
    (hs : s.step E e = some s') : Climbing loaded s' := by
  have hle := ha.position_le hs
  refine ⟨h.recorded.step hs, fun c => UInt32.le_trans (h.loaded_le c) (hle c), fun a hmem => ?_⟩
  rcases Server.step_counterer hs with ⟨hr, -, -⟩ | ⟨k, f, texts, rfl, hk, ht, rfl⟩
  · exact UInt32.le_trans (h.received_le a (hr ▸ hmem)) (hle _)
  · rcases List.mem_append.1 hmem with hmem | hmem
    · exact UInt32.le_trans (h.received_le a hmem) (hle _)
    · obtain rfl := List.mem_singleton.1 hmem
      have hp := position_taken (s := s) k f.message texts
        [(s.world k).acceptance f.message texts] (s.sessions k).controllerId
      rw [if_pos rfl] at hp
      exact hp ▸ UInt32.le_refl _

theorem exists_request {k : κ} {f : Incoming} {c : UInt32} (h : Requests s (.frame k f) c) :
    ∃ s', s.step E (.frame k f) = some s' ∧ (s'.sessions k).controllerId = c
      ∧ (s'.sessions k).sent
        = (s.sessions k).sent ++ [.dataRequest (requestAfter (s.shared.position c))] := by
  rcases h with ⟨hi, rfl, h0⟩ | ⟨hc, rfl, hw⟩
  · have h0' : ((s.world k).identify f.controllerId f.firmwareVersion).getLastCounter
        f.controllerId = 0 := h0
    refine ⟨_, Server.step_ident hi, ?_⟩
    rw [Server.put_sessions, World.start_first h0', h0]
    exact ⟨rfl, rfl⟩
  · refine ⟨_, Server.step_confirm hc, ?_⟩
    rw [Server.put_sessions, World.confirmed_waiting hw]
    exact ⟨rfl, rfl⟩

theorem requests_of_step {k : κ} {f : Incoming} {n : UInt32} {new : List Request}
    (hs : s.step E (.frame k f) = some s')
    (hnew : (s'.sessions k).sent = (s.sessions k).sent ++ new) (hn : .dataRequest n ∈ new) :
    Requests s (.frame k f) (s'.sessions k).controllerId
      ∧ n = requestAfter (s.shared.position (s'.sessions k).controllerId) := by
  rcases (Server.step_sending hs).new_cases hnew with rfl | ⟨w, st, -, -, rfl⟩ | ⟨requests, rfl⟩
  · simp at hn
  · unfold World.deletion at hn
    split_ifs at hn <;> simp at hn
  · exact ⟨requests, by simpa using hn⟩

theorem lt_requestAfter {p : UInt32} (h : p ≠ 0xFFFFFFFF) (h0 : p ≠ 0) : p < requestAfter p := by
  have hlt := p.toNat_lt
  have hmax : p.toNat ≠ 4294967295 := fun he => h (UInt32.toNat_inj.1 he)
  rw [requestAfter, if_pos h0, UInt32.lt_iff_toNat_lt, UInt32.toNat_add, UInt32.toNat_one]
  omega

theorem Climbing.forward {e : ServerEvent κ} (h : Climbing loaded s) (ha : Advancing E s e) :
    Forward E loaded s e := by
  intro s' hs
  refine ⟨ha.position_le hs, fun k n new hnew hn => ?_⟩
  obtain ⟨f, rfl⟩ := Server.sender hs hnew hn
  obtain ⟨hr, rfl⟩ := requests_of_step hs hnew hn
  generalize (s'.sessions k).controllerId = c at hr
  obtain ⟨hmax, hzero⟩ := ha.requests c hr
  have hle := h.loaded_le c
  by_cases h0 : s.shared.position c = 0
  · refine ⟨.inl ?_, fun a hmem hac => ?_⟩
    · rw [h0] at hle
      exact UInt32.le_zero_iff.1 hle
    · exact absurd hac (latest_eq_none.1 (hzero h0) a hmem)
  · have hlt := lt_requestAfter hmax h0
    exact ⟨.inr (UInt32.lt_of_le_of_lt hle hlt), fun a hmem hac =>
      UInt32.lt_of_le_of_lt (hac ▸ h.received_le a hmem) hlt⟩

theorem Climbing.advancing {e : ServerEvent κ} (h : Climbing loaded s)
    (hf : Forward E loaded s e) : Advancing E s e := by
  constructor
  · rintro k f texts rfl kind takes
    have := (hf _ (Server.step_taken kind takes)).1 (s.sessions k).controllerId
    rwa [position_taken, if_pos rfl] at this
  · intro c hr
    cases e with
    | take => exact hr.elim
    | frame k f =>
      obtain ⟨s', hs, hc, hsent⟩ := exists_request (E := E) hr
      obtain ⟨h1, h2⟩ := (hf s' hs).2 k _ _ hsent List.mem_cons_self
      rw [hc] at h1 h2
      refine ⟨fun hmax => ?_, fun h0 => ?_⟩
      · have hn : requestAfter (s.shared.position c) = 0 := by
          rw [hmax]
          rfl
        rw [hn] at h1 h2
        rcases h.recorded c with ⟨-, hl⟩ | ⟨a, hl, hl', -⟩
        · have : loaded.position c = 0xFFFFFFFF := by
            rw [← hmax, Shared.position, Shared.position, hl]
          rw [this] at h1
          simp at h1
        · obtain ⟨hmem, hac⟩ := mem_of_latest hl
          have := h2 a hmem hac
          simp at this
      · rw [latest_eq_none]
        intro a hmem hac
        have := h2 a hmem hac
        rw [h0] at this
        simp [requestAfter] at this

/-- No position goes back and no request asks again for what was accepted exactly as long as the
frames accepted for a controller do not get older, and no request follows the last number. -/
theorem along_forward_iff (E : Env) (loaded : Shared) (es : List (ServerEvent κ)) :
    Lts.Along (Server.step E) (Forward E loaded) (Server.start loaded) es
      ↔ Lts.Along (Server.step E) (Advancing E) (Server.start loaded) es := by
  have h0 : Climbing loaded (Server.start (κ := κ) loaded) :=
    ⟨fun _ => .inl ⟨rfl, rfl⟩, fun _ => UInt32.le_refl _, by simp [Server.start]⟩
  exact Lts.along_congr (I := Climbing loaded) (Q := fun _ => True)
    (fun s e s' h _ ha hs => h.step ha hs)
    (fun s e h _ => ⟨h.advancing, h.forward⟩) h0 (fun _ _ => trivial)

/-! A current-data frame and an older one of the archive behind it. -/

def untilFive : List (ServerEvent Unit) :=
  [.frame () (.alone identSeven), .frame () (.alone (oneEvent TmCode.cCurrentData 5))]

def olderFrame : ServerEvent Unit := .frame () (.alone (oneEvent TmCode.cArchiveData 3))

theorem not_along_forward_older :
    ¬ Lts.Along (Server.step eventOnly) (Forward eventOnly (newServer 10).shared)
      (Server.start (newServer 10).shared) (untilFive ++ [olderFrame]) := by
  intro h
  have hpos : ((Lts.run (Server.step eventOnly) (Server.start (newServer 10).shared) untilFive).bind
      fun s => (s.step eventOnly olderFrame).map fun s' =>
        (s.shared.position 7, s'.shared.position 7)) = some (5, 3) := by
    decide +kernel
  obtain ⟨s, hr, hpos⟩ := Option.bind_eq_some_iff.1 hpos
  obtain ⟨s', hs, hpos⟩ := Option.map_eq_some_iff.1 hpos
  have hle := (h.after hr s' hs).1 7
  simp only [Prod.mk.injEq] at hpos
  rw [hpos.1, hpos.2] at hle
  exact absurd hle (by decide)

end Communicator
