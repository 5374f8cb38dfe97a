import Communicator.Proofs.Exchange

/-!
# What is acknowledged was received

A deletion names the controller's counter, so it is safe as long as everything up to the counter
was received. An archive frame keeps that: the frames before it in the stream, or in what was
received, reach up to its first record. A frame of current data keeps it only if nothing is missing
before its own first record; otherwise the server has the device delete what it never sent.
-/

namespace Communicator

variable {D : Device} (E : Env)

/-- What is covered once the archive frames among `frames` are accepted. -/
def After (C : ℕ → Prop) (frames : List (Frame D)) (k : ℕ) : Prop :=
  C k ∨ ∃ p, Frame.archive p ∈ frames ∧ k ∈ p.numbers

/-- Each archive frame starts where the coverage, grown by the frames before it, has come to. -/
def Covers (C : ℕ → Prop) (frames : List (Frame D)) : Prop :=
  ∀ before p rest, frames = before ++ .archive p :: rest → ∀ k < p.first, After C before k

section Coverage

variable {C C' : ℕ → Prop} {frames : List (Frame D)}

theorem After.mono {frames' : List (Frame D)} {k : ℕ} (hC : C k → C' k)
    (hf : ∀ f ∈ frames, f ∈ frames') (h : After C frames k) : After C' frames' k :=
  h.imp hC fun ⟨p, hp, hk⟩ => ⟨p, hf _ hp, hk⟩

theorem Covers.head {p : Package D} (h : Covers C (.archive p :: frames)) :
    ∀ k < p.first, C k := fun k hk => (h [] p frames rfl k hk).resolve_right (by simp)

theorem Covers.append {f : Frame D} (h : Covers C frames)
    (hf : ∀ p, f = .archive p → ∀ k < p.first, After C frames k) : Covers C (frames ++ [f]) := by
  intro before p rest he
  rcases List.eq_nil_or_concat rest with rfl | ⟨rest', x, rfl⟩
  · obtain ⟨rfl, hx⟩ := List.append_inj' he rfl
    exact hf p (List.singleton_inj.1 hx)
  · rw [List.concat_eq_append, ← List.cons_append, ← List.append_assoc] at he
    exact h before p rest' (List.append_inj' he rfl).1

theorem Covers.tail {f : Frame D} (h : Covers C (f :: frames)) (hC : ∀ k, C k → C' k)
    (hf : ∀ p, f = .archive p → ∀ k ∈ p.numbers, C' k) : Covers C' frames := by
  intro before p rest he k hk
  rcases h (f :: before) p rest (by rw [he, List.cons_append]) k hk with hc | ⟨q, hq, hk'⟩
  · exact .inl (hC k hc)
  · rcases List.mem_cons.1 hq with rfl | hq
    · exact .inl (hf q rfl k hk')
    · exact .inr ⟨q, hq, hk'⟩

/-- Frames accepted before may be put in front again. -/
theorem Covers.prepend {past : List (Frame D)} (h : Covers C frames)
    (hp : ∀ p, .archive p ∈ past → ∀ k < p.first, C k) : Covers C (past ++ frames) := by
  intro before p rest he k hk
  rcases List.append_eq_append_iff.1 he with ⟨as, rfl, hf⟩ | ⟨as, rfl, hf⟩
  · exact (h as p rest hf k hk).mono id fun f hf => List.mem_append_right _ hf
  · rcases as with _ | ⟨x, as⟩
    · exact (h [] p rest hf.symm k hk).mono id fun f hf => by simp at hf
    · obtain ⟨rfl, -⟩ := List.cons.inj hf
      exact .inl (hp p (by simp) k hk)

end Coverage

structure Safe (C : ℕ → Prop) (controllerId : UInt32) (w : World) : Prop where
  counter : ∀ k ≤ (w.getLastCounter controllerId).toNat, C k
  deleted : ∀ n, .deleteData n ∈ w.sent → ∀ k ≤ n.toNat, C k
  requested : ∀ n, .dataRequest n ∈ w.sent → ∀ k < n.toNat, C k

section Safe

variable {C C' : ℕ → Prop} {w : World}

theorem Safe.mono {c : UInt32} (h : Safe C c w) (hC : ∀ k, C k → C' k) : Safe C' c w :=
  ⟨fun k hk => hC k (h.counter k hk), fun n hn k hk => hC k (h.deleted n hn k hk),
    fun n hn k hk => hC k (h.requested n hn k hk)⟩

theorem Safe.sendDelete (h : Safe C w.controllerId w) : Safe C w.controllerId w.sendDelete := by
  rw [World.sendDelete_eq]
  refine ⟨h.counter, fun n hn => ?_, fun n hn => ?_⟩
  · rcases List.mem_append.1 hn with hn | hn
    · exact h.deleted n hn
    · unfold World.deletion at hn
      split_ifs at hn
      · simp at hn
      · simp only [List.mem_singleton, Request.deleteData.injEq] at hn
        exact hn ▸ h.counter
  · rcases List.mem_append.1 hn with hn | hn
    · exact h.requested n hn
    · unfold World.deletion at hn
      split_ifs at hn <;> simp at hn

theorem Safe.sendRequest (h : Safe C w.controllerId w) : Safe C w.controllerId w.sendRequest := by
  refine ⟨h.counter, fun n hn => ?_, fun n hn k hk => ?_⟩
  · simp only [World.sendRequest, World.send, List.mem_append, List.mem_singleton, reduceCtorEq,
      or_false] at hn
    exact h.deleted n hn
  · simp only [World.sendRequest, World.send, List.mem_append, List.mem_singleton,
      Request.dataRequest.injEq] at hn
    rcases hn with hn | rfl
    · exact h.requested n hn k hk
    · refine h.counter k ?_
      split_ifs at hk
      · rw [UInt32.toNat_add] at hk
        have : (1 : UInt32).toNat = 1 := rfl
        omega
      · omega

theorem Safe.start (h : Safe C w.controllerId w) : Safe C w.controllerId w.start := by
  unfold World.start
  split_ifs
  · exact ⟨h.sendRequest.counter, h.sendRequest.deleted, h.sendRequest.requested⟩
  · exact ⟨h.sendDelete.counter, h.sendDelete.deleted, h.sendDelete.requested⟩

theorem Safe.settle (h : Safe C w.controllerId w) (cmd : UInt8) :
    Safe C w.controllerId (w.settle cmd) := by
  unfold World.settle
  split_ifs
  · exact ⟨h.sendDelete.counter, h.sendDelete.deleted, h.sendDelete.requested⟩
  · exact h

theorem Safe.accepted {p : Package D} (h : Safe C w.controllerId w) (hC : ∀ k, C k → C' k)
    (hlast : ∀ k ≤ p.last, C' k) (cmd : UInt8) :
    Safe C' w.controllerId (accepted E w p cmd) := by
  refine Safe.settle (w := (w.push _).setLastCounter w.controllerId _)
    ⟨fun k hk => hlast k ?_, (h.mono hC).deleted, (h.mono hC).requested⟩ cmd
  have hn : (UInt32.ofNat p.last).toNat = p.last := Nat.mod_eq_of_lt p.last_lt_size
  simpa [World.getLastCounter, World.setLastCounter, World.push, hn] using hk

end Safe

/-! ## The invariant -/

/-- Records that were accepted before the run, or came in a data frame that was. -/
def Covered (before : ℕ) (s : Link D) (k : ℕ) : Prop :=
  D.firstRecord ≤ k → k ≤ before ∨ k ∈ s.received

def Enqueued (s : Link D) (k : ℕ) : Prop :=
  ∀ t ∈ blockMessages E (D.record k), ∃ m ∈ s.world.backend.accepted,
    m.controlId = D.controllerId ∧ m.body = t

structure Inv (before : ℕ) (s : Link D) : Prop where
  identified : s.world.controllerId = D.controllerId
    ∨ s.past = [] ∧ ∃ firmware rest, s.todo = .ident firmware :: rest
  safe : Safe (Covered before s) D.controllerId s.world
  enqueued : ∀ k ∈ s.received, Enqueued E s k
  past : ∀ p, .archive p ∈ s.past → ∀ k < p.first, Covered before s k
  todo : Covers (Covered before s) s.todo
  next : ∀ q, s.next = some q → ∀ k < q, After (Covered before s) s.todo k

/-- A frame of current data is accepted only where nothing before it is missing. -/
def Gapless (before : ℕ) (s : Link D) : LinkEvent D → Prop
  | .deliver => ∀ p rest, s.todo = .current p :: rest →
    Takes s.world (p.message TmCode.cCurrentData) (p.texts E) → ∀ k < p.first, Covered before s k
  | _ => True

section Step

variable {E} {before : ℕ} {s s' : Link D}

theorem mem_enqueued {w : World} {m : TransportMessage} {texts : List Text} {t : Text}
    (h : t ∈ texts) : ∃ x ∈ enqueued w m texts, x.controlId = w.controllerId ∧ x.body = t :=
  mem_labelled _ _ _ texts h

theorem Inv.post {f : Frame D} (h : Inv E before s)
    (hf : ∀ p, f = .archive p → ∀ k < p.first, After (Covered before s) s.todo k) :
    Inv E before (s.post f) where
  identified := h.identified.imp id fun ⟨hp, fw, rest, ht⟩ =>
    ⟨hp, fw, rest ++ [f], by simp [Link.post, ht]⟩
  safe := h.safe
  enqueued := h.enqueued
  past := h.past
  todo := h.todo.append hf
  next q hq k hk := (h.next q hq k hk).mono id fun _ => List.mem_append_left _

theorem Inv.connect (h : Inv E before s) (firmware : UInt32) :
    Inv E before (s.connect firmware) where
  identified := .inr ⟨rfl, firmware, [], rfl⟩
  safe := ⟨h.safe.counter, by simp [Link.connect], by simp [Link.connect]⟩
  enqueued := h.enqueued
  past := by simp [Link.connect]
  todo := by
    intro b p rest he
    rcases b with _ | ⟨x, b⟩ <;> simp [Link.connect] at he
  next := by simp [Link.connect]

theorem Inv.answer (h : Inv E before s) (hs : s.answer = some s') : Inv E before s' := by
  unfold Link.answer at hs
  split at hs
  · simp at hs
  · rename_i n hn
    obtain rfl := Option.some.inj hs
    have hp := h.post (f := .confirm n) (fun p hp => by simp at hp)
    exact ⟨hp.identified, hp.safe, hp.enqueued, hp.past, hp.todo, hp.next⟩
  · rename_i n hn
    obtain rfl := Option.some.inj hs
    refine ⟨h.identified, h.safe, h.enqueued, h.past, h.todo, ?_⟩
    intro q hq k hk
    simp only [Option.some.injEq] at hq
    subst hq
    split_ifs at hk
    · exact .inl fun hf => absurd hk (Nat.not_lt.2 hf)
    · exact .inl (h.safe.requested n (List.mem_of_getElem? hn) k hk)

theorem Covered.handled {w : World} {f : Frame D} {rest : List (Frame D)} {k : ℕ}
    (h : Covered before s k) : Covered before (s.handled w f rest) k :=
  fun hk => (h hk).imp_right (List.mem_append_left _)

theorem covered_numbers {w : World} {f : Frame D} {rest : List (Frame D)} {k : ℕ}
    (h : k ∈ f.numbers) : Covered before (s.handled w f rest) k :=
  fun _ => .inr (List.mem_append_right _ h)

theorem Inv.handled {w : World} {f : Frame D} {rest : List (Frame D)} (h : Inv E before s)
    (ht : s.todo = f :: rest) (hid : w.controllerId = D.controllerId)
    (hsafe : Safe (Covered before (s.handled w f rest)) D.controllerId w)
    (hacc : s.world.backend.accepted ⊆ w.backend.accepted)
    (hnew : ∀ k ∈ f.numbers, Enqueued E (s.handled w f rest) k) :
    Inv E before (s.handled w f rest) where
  identified := .inl hid
  safe := hsafe
  enqueued k hk := by
    rcases List.mem_append.1 hk with hk | hk
    · intro t ht
      obtain ⟨m, hm, hm'⟩ := h.enqueued k hk t ht
      exact ⟨m, hacc hm, hm'⟩
    · exact hnew k hk
  past p hp k hk := by
    rcases List.mem_append.1 hp with hp | hp
    · exact (h.past p hp k hk).handled
    · obtain rfl := List.mem_singleton.1 hp
      exact ((ht ▸ h.todo).head k hk).handled
  todo := (ht ▸ h.todo).tail (fun _ => Covered.handled) fun p hp k hk =>
    covered_numbers (by rw [hp]; exact hk)
  next q hq k hk := by
    rcases h.next q hq k hk with hc | ⟨p, hp, hk'⟩
    · exact .inl hc.handled
    · rw [ht] at hp
      rcases List.mem_cons.1 hp with rfl | hp
      · exact .inl (covered_numbers hk')
      · exact .inr ⟨p, hp, hk'⟩

theorem Inv.control {w : World} {f : Frame D} {rest : List (Frame D)} (h : Inv E before s)
    (ht : s.todo = f :: rest) (hid : w.controllerId = D.controllerId) (hn : f.numbers = [])
    (hw : w.toShared = s.world.toShared) (hsafe : Safe (Covered before s) D.controllerId w) :
    Inv E before (s.handled w f rest) :=
  h.handled ht hid (hsafe.mono fun _ => Covered.handled)
    (by rw [hw]; exact List.Subset.refl _) (by simp [hn])

theorem Inv.refused {msgs : List InfoMessage} {f : Frame D} {rest : List (Frame D)}
    (h : Inv E before s) (ht : s.todo = f :: rest) (hid : s.world.controllerId = D.controllerId) :
    Inv E before
      { s with world := (s.world.push msgs).stop, past := [], todo := s.past ++ f :: rest } where
  identified := .inl hid
  safe := ⟨h.safe.counter, h.safe.deleted, h.safe.requested⟩
  enqueued k hk t ht := by
    obtain ⟨m, hm, hm'⟩ := h.enqueued k hk t ht
    exact ⟨m, List.mem_append_left _ hm, hm'⟩
  past := by simp
  todo := (ht ▸ h.todo).prepend h.past
  next q hq k hk := (h.next q hq k hk).mono id fun f hf => by
    rw [ht] at hf
    exact List.mem_append_right _ hf

/-- Once a package is accepted, what it covers is received. -/
theorem Inv.accepted {p : Package D} {f : Frame D} {rest : List (Frame D)} {cmd : UInt8}
    (h : Inv E before s) (ht : s.todo = f :: rest) (hid : s.world.controllerId = D.controllerId)
    (hc : Carries p f cmd) (hfirst : ∀ k < p.first, Covered before s k) :
    Inv E before (s.handled (accepted E s.world p cmd) f rest) := by
  have hacc : (Communicator.accepted E s.world p cmd).backend
      = s.world.backend.append (Communicator.enqueued s.world (p.message cmd) (p.texts E)) :=
    congrArg Shared.backend (World.settle_shared _ cmd)
  refine h.handled ht ((World.settle_controllerId _ cmd).trans hid) ?_ ?_ fun k hk t hb => ?_
  · have hsafe := h.safe
    rw [← hid] at hsafe ⊢
    refine hsafe.accepted E (fun k => Covered.handled) (fun k hk => ?_) cmd
    rcases Nat.lt_or_ge k p.first with hlt | hge
    · exact (hfirst k hlt).handled
    · exact covered_numbers (hc.numbers ▸ p.mem_numbers.2 ⟨hge, hk⟩)
  · rw [hacc]
    exact List.subset_append_left _ _
  · obtain ⟨x, hx, hx1, hx2⟩ := mem_enqueued (w := s.world) (m := p.message cmd)
      (List.mem_flatMap.2 ⟨k, hc.numbers ▸ hk, hb⟩ : t ∈ p.texts E)
    refine ⟨x, ?_, hx1.trans hid, hx2⟩
    rw [Link.handled, hacc]
    exact List.mem_append_right _ hx

/-- The device identifies itself before it sends anything else. -/
theorem Inv.controllerId {f : Frame D} {rest : List (Frame D)} (h : Inv E before s)
    (ht : s.todo = f :: rest) (hf : ∀ firmware, f ≠ .ident firmware) :
    s.world.controllerId = D.controllerId := by
  rcases h.identified with hid | ⟨-, firmware, rest', ht'⟩
  · exact hid
  · rw [ht, List.cons.injEq] at ht'
    exact absurd ht'.1 (hf firmware)

theorem Carries.ne_ident {p : Package D} {f : Frame D} {cmd : UInt8} (h : Carries p f cmd)
    (firmware : UInt32) : f ≠ .ident firmware := by
  cases h <;> simp

theorem Inv.deliver (h : Inv E before s) (hg : Gapless E before s .deliver)
    (hs : s.deliver E = some s') : Inv E before s' := by
  cases deliver_cases hs with
  | ident firmware rest todo =>
    have hsafe : Safe (Covered before s) D.controllerId
        (s.world.identify D.controllerId firmware) :=
      ⟨h.safe.counter, h.safe.deleted, h.safe.requested⟩
    exact h.control todo (World.start_controllerId _) rfl (World.start_shared _)
      (Safe.start (w := s.world.identify D.controllerId firmware) hsafe)
  | confirm n rest todo =>
    have hid := h.controllerId todo (by simp)
    have hsafe := h.safe
    split_ifs
    · rw [← hid] at hsafe
      have hr := hsafe.sendRequest
      rw [hid] at hr
      exact h.control todo hid rfl rfl ⟨hr.counter, hr.deleted, hr.requested⟩
    · exact h.control todo hid rfl rfl hsafe
  | archiveEnd rest todo =>
    have hid := h.controllerId todo (by simp)
    have hsafe := h.safe
    rw [← hid] at hsafe
    have hd := hsafe.sendDelete
    rw [hid] at hd
    rw [World.sendDelete_eq] at hd ⊢
    exact h.control todo hid rfl rfl ⟨hd.counter, hd.deleted, hd.requested⟩
  | accepted p f cmd rest todo carries takes =>
    refine h.accepted todo (h.controllerId todo carries.ne_ident) carries ?_
    cases carries with
    | archive => exact (todo ▸ h.todo).head
    | current => exact hg p rest todo takes
  | refused p f cmd rest msgs todo carries =>
    exact h.refused todo (h.controllerId todo carries.ne_ident)

theorem Inv.step (h : Inv E before s) {e : LinkEvent D} (hg : Gapless E before s e)
    (hs : s.step E e = some s') : Inv E before s' := by
  cases e with
  | connect firmware =>
    obtain rfl := Option.some.inj hs
    exact h.connect firmware
  | record =>
    obtain rfl := Option.some.inj hs
    exact ⟨h.identified, h.safe, h.enqueued, h.past, h.todo, h.next⟩
  | answer => exact h.answer hs
  | archive p =>
    simp only [Link.step] at hs
    split_ifs at hs with hc
    obtain rfl := Option.some.inj hs
    have hnext := h.next p.first hc.1
    have hp := h.post (f := .archive p) fun q hq => Frame.archive.inj hq ▸ hnext
    refine ⟨hp.identified, hp.safe, hp.enqueued, hp.past, hp.todo, ?_⟩
    intro q hq k hk
    obtain rfl := Option.some.inj hq
    rcases Nat.lt_or_ge k p.first with hlt | hge
    · exact (hnext k hlt).mono id fun _ => List.mem_append_left _
    · exact .inr ⟨p, List.mem_append_right _ List.mem_cons_self,
        p.mem_numbers.2 ⟨hge, Nat.le_sub_one_of_lt hk⟩⟩
  | archiveEnd =>
    simp only [Link.step] at hs
    split_ifs at hs
    obtain rfl := Option.some.inj hs
    exact h.post (by simp)
  | current p =>
    simp only [Link.step] at hs
    split_ifs at hs
    obtain rfl := Option.some.inj hs
    exact h.post (by simp)
  | deliver => exact h.deliver hg hs
  | drop =>
    obtain rfl := Option.some.inj hs
    exact ⟨h.identified.imp_right fun ⟨_, ht⟩ => ⟨rfl, ht⟩, h.safe, h.enqueued, by simp, h.todo,
      h.next⟩
  | others counterer messages new =>
    simp only [Link.step] at hs
    split_ifs at hs with hc
    obtain rfl := Option.some.inj hs
    refine ⟨h.identified, ⟨?_, h.safe.deleted, h.safe.requested⟩, ?_, h.past, h.todo, h.next⟩
    · simp only [World.getLastCounter, hc.1]
      exact h.safe.counter
    · intro k hk t ht
      obtain ⟨m, hm, hm'⟩ := h.enqueued k hk t ht
      exact ⟨m, List.mem_append_left _ hm, hm'⟩

end Step

theorem inv_start (shared : Shared) (newest : ℕ) (firmware : UInt32) :
    Inv E ((shared.counterer D.controllerId).getD 0).toNat
      (Link.start (D := D) shared newest firmware) where
  identified := .inr ⟨rfl, firmware, [], rfl⟩
  safe := ⟨fun k hk _ => .inl hk, by simp [Link.start], by simp [Link.start]⟩
  enqueued := by simp [Link.start]
  past := by simp [Link.start]
  todo := by
    intro b p rest he
    rcases b with _ | ⟨x, b⟩ <;> simp [Link.start] at he
  next := by simp [Link.start]

/-- Of every deletion the server has sent, the device's records up to its number were accepted
before the run or came in a data frame that was accepted, their messages enqueued. -/
def Acknowledged (before : ℕ) (s : Link D) : Prop :=
  ∀ n, .deleteData n ∈ s.world.sent → ∀ k, D.firstRecord ≤ k → k ≤ n.toNat →
    k ≤ before ∨ k ∈ s.received ∧ Enqueued E s k

theorem Inv.acknowledged {before : ℕ} {s : Link D} (h : Inv E before s) :
    Acknowledged E before s := fun n hn k hf hk =>
  (h.safe.deleted n hn k hk hf).imp_right fun hr => ⟨hr, h.enqueued k hr⟩

theorem deleteData_mem_accepted {w : World} {p : Package D} (hp : p.last ≠ 0) :
    .deleteData (UInt32.ofNat p.last) ∈ (accepted E w p TmCode.cCurrentData).sent := by
  have hne : UInt32.ofNat p.last ≠ 0 := by
    intro h0
    have hn : (UInt32.ofNat p.last).toNat = p.last := Nat.mod_eq_of_lt p.last_lt_size
    rw [h0] at hn
    exact hp hn.symm
  rw [accepted, World.settle, if_pos rfl, World.sendDelete_eq]
  refine List.mem_append_right _ ?_
  simp [World.deletion, World.getLastCounter, World.setLastCounter, World.push, hne]

/-- A frame of current data accepted over a gap has the device delete what is in the gap. -/
theorem not_acknowledged_of_gap {before : ℕ} {s : Link D} {e : LinkEvent D}
    (hg : ¬ Gapless E before s e) : ∃ s', s.step E e = some s' ∧ ¬ Acknowledged E before s' := by
  cases e <;> simp only [Gapless, not_true_eq_false, not_forall] at hg
  obtain ⟨p, rest, ht, htk, k, hk, hcov⟩ := hg
  refine ⟨_, deliver_accepted ht .current htk, fun ha => ?_⟩
  have hn : (UInt32.ofNat p.last).toNat = p.last := Nat.mod_eq_of_lt p.last_lt_size
  have hlast : k < p.last := by
    have := p.count_pos
    unfold Package.last
    omega
  simp only [Covered, not_forall, not_or] at hcov
  obtain ⟨hf, hb, hr⟩ := hcov
  rcases ha (UInt32.ofNat p.last) (deleteData_mem_accepted E (by omega)) k hf (by omega)
    with hc | ⟨hc, -⟩
  · exact hb hc
  · rcases List.mem_append.1 hc with hc | hc
    · exact hr hc
    · exact absurd (p.mem_numbers.1 hc).1 (Nat.not_le.2 hk)

/-- Nothing is acknowledged that was not received exactly if frames of current data are accepted
only where nothing before them is missing. -/
theorem always_acknowledged_iff (shared : Shared) (newest : ℕ) (firmware : UInt32)
    (es : List (LinkEvent D)) :
    Lts.Always (Link.step E) (Acknowledged E ((shared.counterer D.controllerId).getD 0).toNat)
        (.start shared newest firmware) es
      ↔ Lts.Along (Link.step E) (Gapless E ((shared.counterer D.controllerId).getD 0).toNat)
        (.start shared newest firmware) es := by
  have hI := inv_start E (D := D) shared newest firmware
  refine ⟨fun h => ?_, fun h => ?_⟩
  · exact Lts.along_of_always (Q := fun _ => True) (fun _ _ _ h _ hg hs => h.step hg hs)
      (fun _ _ _ => not_acknowledged_of_gap E) hI (fun _ _ => trivial) h
  · exact (Lts.always_of_along (fun _ _ _ h hg hs => h.step hg hs) hI h).imp
      fun _ => Inv.acknowledged E

/-- It has kept 99 records when it identifies itself; then its hundredth arrives as current data,
and the server has it delete them all. -/
theorem not_always_acknowledged_newest :
    ¬ Lts.Always (Link.step eventOnly) (Acknowledged eventOnly 0)
      (Link.start (D := newDevice) ⟨fun _ => none, ⟨4096, [], []⟩⟩ 99 0)
      [.deliver, .answer, .record,
        .current ⟨100, 1, 0, 0, by decide, by decide, by decide⟩, .deliver] := by
  intro h
  have hr : (Lts.run (Link.step eventOnly)
      (Link.start (D := newDevice) ⟨fun _ => none, ⟨4096, [], []⟩⟩ 99 0)
      [.deliver, .answer, .record,
        .current ⟨100, 1, 0, 0, by decide, by decide, by decide⟩, .deliver]).map
      (fun s => (s.world.sent, s.received)) = some ([.dataRequest 0, .deleteData 100], [100]) := by
    decide +kernel
  obtain ⟨s, hs, he⟩ := Option.map_eq_some_iff.1 hr
  obtain ⟨hsent, hrec⟩ := Prod.mk.inj he
  rcases h.last hs 100 (by simp [hsent]) 1 (by decide) (by decide) with hb | ⟨hb, -⟩
  · omega
  · simp [hrec] at hb

end Communicator
