import Communicator.Proofs.Exchange

/-!
# Interrupted downloads

A session is in one of four phases (`Phase`): the identification is on its way, the deletion of
what was accepted is, the request is, or the download runs. In each the request, the device's place
in the download and the frames in flight go on from the counter, so cutting the session at any
point loses and repeats nothing.
-/

namespace Communicator

variable {D : Device} (E : Env)

def mine (D : Device) (w : World) : List InfoMessage :=
  w.backend.accepted.filter (·.controlId = D.controllerId)

def counter (D : Device) (w : World) : ℕ := (w.getLastCounter D.controllerId).toNat

/-- The messages are those of the records up to the counter, each once and in order, and their
labels count them from 0. -/
def Resumed (D : Device) (w : World) : Prop :=
  (mine D w).map (·.body)
      = (List.range' 1 (counter D w)).flatMap (fun i => blockMessages E (D.record i))
    ∧ (mine D w).map (·.mesNumber) = (List.range (counter D w)).map fun i : ℕ => (i : ℤ)

def OneEvent (D : Device) : Prop :=
  ∀ i, (E.parseFromArray (D.record i)).1 = true ∧ (E.parseFromArray (D.record i)).2.mid.length = 1

def HasRoom (w : World) : Frame D → Prop
  | .archive p => w.backend.messages.length + p.count ≤ w.backend.maxMessages
  | _ => True

/-- The device keeps fewer than 2^31 records and sends no current data, and the queue has room for
what it sends. -/
def Undisturbed (s : Link D) : LinkEvent D → Prop
  | .record => s.newest + 1 < 2 ^ 31
  | .current _ => False
  | .deliver => ∀ f ∈ s.todo.head?, HasRoom s.world f
  | _ => True

instance (w : World) : ∀ f : Frame D, Decidable (HasRoom w f)
  | .archive _ => inferInstanceAs (Decidable (_ ≤ _))
  | .ident _ | .confirm _ | .archiveEnd | .current _ => inferInstanceAs (Decidable True)

instance (s : Link D) : ∀ e, Decidable (Undisturbed s e)
  | .record => inferInstanceAs (Decidable (_ < _))
  | .current _ => inferInstanceAs (Decidable False)
  | .deliver => inferInstanceAs (Decidable (∀ f ∈ s.todo.head?, HasRoom s.world f))
  | .connect _ | .answer | .archive _ | .archiveEnd | .drop | .others _ _ _ =>
    inferInstanceAs (Decidable True)

theorem length_flatMap_of_one {f : ℕ → List Text} (h : ∀ i, (f i).length = 1) :
    ∀ xs : List ℕ, (xs.flatMap f).length = xs.length
  | [] => rfl
  | x :: xs => by simp [h x, length_flatMap_of_one h xs, Nat.add_comm]

theorem firstLabel_of_lt {last n : ℕ} (hn : n ≤ last) (hl : last < 2 ^ 31) :
    firstLabel (UInt32.ofNat last) n = (last - n : ℕ) := by
  have hsub : UInt32.ofNat last - UInt32.ofNat n = UInt32.ofNat (last - n) :=
    (UInt32.ofNat_sub hn).symm
  have hnat : (UInt32.ofNat (last - n)).toNat = last - n := Nat.mod_eq_of_lt (by omega)
  rw [firstLabel, hsub, ← Int32.toInt_toBitVec, UInt32.toBitVec_toInt32,
    BitVec.toInt_eq_toNat_of_lt]
  · simp [hnat]
  · simp [hnat]
    omega

section Accept

variable {E} {w : World} {p : Package D}

theorem length_texts (hD : OneEvent E D) : (p.texts E).length = p.count := by
  rw [Package.texts, length_flatMap_of_one fun i => ?_, Package.numbers, List.length_range']
  rw [blockMessages, length_eventTexts]
  exact (hD i).2

theorem takes (hD : OneEvent E D) (h1 : 1 ≤ p.first) (hlt : p.last < 2 ^ 31)
    (hroom : w.backend.messages.length + p.count ≤ w.backend.maxMessages) (cmd : UInt8) :
    Takes w (p.message cmd) (p.texts E) := by
  have hc := p.count_pos
  have hl : p.last = p.first + p.count - 1 := rfl
  refine .inr ?_
  rw [length_texts hD, p.lastMesNumber_message, firstLabel_of_lt (by omega) hlt, World.intMax]
  refine ⟨hroom, ?_⟩
  omega

theorem counter_accepted (hid : w.controllerId = D.controllerId) (cmd : UInt8) :
    counter D (accepted E w p cmd) = p.last := by
  have hn : (UInt32.ofNat p.last).toNat = p.last := Nat.mod_eq_of_lt p.last_lt_size
  rw [counter, World.getLastCounter, accepted, World.settle_shared]
  simp [World.setLastCounter, hid, hn]

theorem Resumed.accepted (h : Resumed E D w) (hD : OneEvent E D)
    (hid : w.controllerId = D.controllerId) (hf : p.first = counter D w + 1)
    (hlt : p.last < 2 ^ 31) (cmd : UInt8) : Resumed E D (accepted E w p cmd) := by
  have hc := p.count_pos
  have hl : p.last = counter D w + p.count := by
    rw [Package.last]
    omega
  have hmine : mine D (Communicator.accepted E w p cmd)
      = mine D w ++ enqueued w (p.message cmd) (p.texts E) := by
    have hb : (Communicator.accepted E w p cmd).backend
        = w.backend.append (enqueued w (p.message cmd) (p.texts E)) :=
      congrArg Shared.backend (World.settle_shared _ cmd)
    rw [mine, hb, BaseImpl.append_accepted, List.filter_append, mine]
    congr 1
    refine List.filter_eq_self.2 fun m hm => ?_
    simpa [hid] using controlId_labelled _ _ _ _ m hm
  have hfirst : firstLabel (p.message cmd).lastMesNumber (p.texts E).length = counter D w := by
    rw [p.lastMesNumber_message, length_texts hD, firstLabel_of_lt (by omega) hlt, hl,
      Nat.add_sub_cancel_right]
  rw [Resumed, counter_accepted hid, hmine, List.map_append, List.map_append, h.1, h.2, enqueued,
    hfirst, map_body_labelled, map_mesNumber_labelled, length_texts hD, hl]
  constructor
  · rw [← List.range'_append_1, List.flatMap_append, Package.texts, Package.numbers, hf,
      Nat.add_comm 1]
  · rw [List.range_add, List.map_append, List.map_map]
    simp [Function.comp_def]

end Accept

/-! ## Phases -/

def Pending (s : Link D) (rs : List Request) : Prop :=
  ∃ done, s.world.sent = done ++ rs ∧ done.length = s.answered

/-- Where the counter, now `n`, will be once the frames are accepted, if each of them goes on from
the one before. -/
def arrive (n : ℕ) : List (Frame D) → Option ℕ
  | [] => some n
  | .archive p :: rest => if p.first = n + 1 then arrive (n + p.count) rest else none
  | .confirm _ :: rest => arrive n rest
  | .archiveEnd :: rest => arrive n rest
  | .ident _ :: _ => none
  | .current _ :: _ => none

/-- A download has come to `last`, counting the frames in flight; all the device has left to answer
are deletions. -/
structure Download (s : Link D) (last : ℕ) (rs : List Request) : Prop where
  id : s.world.controllerId = D.controllerId
  state : s.world.protocolState ≠ .waitInitialDeleteConfirm
  next : s.next = some (last + 1)
  arrives : arrive (counter D s.world) s.todo = some last
  le : last ≤ s.newest
  pending : Pending s rs
  deletes : ∀ r ∈ rs, ∃ n, r = .deleteData n

inductive Phase (s : Link D) : Prop
  | identifying (firmware : UInt32) (todo : s.todo = [.ident firmware]) (pending : Pending s [])
    (next : s.next = none)
  | deleting (id : s.world.controllerId = D.controllerId)
    (state : s.world.protocolState = .waitInitialDeleteConfirm) (next : s.next = none)
    (flight : (s.todo = [] ∧ ∃ n, Pending s [.deleteData n])
      ∨ ∃ n, s.todo = [.confirm n] ∧ Pending s [])
  | requested (id : s.world.controllerId = D.controllerId)
    (state : s.world.protocolState ≠ .waitInitialDeleteConfirm) (next : s.next = none)
    (todo : s.todo = []) (r : UInt32) (pending : Pending s [.dataRequest r])
    (goesOn : (if r = 0 then D.firstRecord else r.toNat) = counter D s.world + 1)
  | downloading (last : ℕ) (rs : List Request) (download : Download s last rs)

structure Progress (s : Link D) : Prop where
  resumed : Resumed E D s.world
  newest_lt : s.newest < 2 ^ 31
  counter_le : counter D s.world ≤ s.newest
  phase : Phase s

section Phases

variable {E} {s s' : Link D}

theorem Pending.answer_nil (h : Pending s []) : s.world.sent[s.answered]? = none := by
  obtain ⟨done, hs, hl⟩ := h
  rw [hs, List.append_nil, ← hl, List.getElem?_length]

theorem Pending.answer_cons {r : Request} {rs : List Request} (h : Pending s (r :: rs)) :
    s.world.sent[s.answered]? = some r := by
  obtain ⟨done, hs, hl⟩ := h
  rw [hs, ← hl, List.getElem?_append_right (Nat.le_refl _), Nat.sub_self, List.getElem?_cons_zero]

theorem Pending.answered {r : Request} {rs : List Request} (h : Pending s (r :: rs))
    (hw : s'.world = s.world) (ha : s'.answered = s.answered + 1) : Pending s' rs := by
  obtain ⟨done, hs, hl⟩ := h
  exact ⟨done ++ [r], by rw [hw, hs]; simp, by rw [ha, ← hl]; simp⟩

theorem Pending.send {rs : List Request} (h : Pending s rs) (new : List Request)
    (hs : s'.world.sent = s.world.sent ++ new) (ha : s'.answered = s.answered) :
    Pending s' (rs ++ new) := by
  obtain ⟨done, hd, hl⟩ := h
  exact ⟨done, by rw [hs, hd, List.append_assoc], by rw [ha, hl]⟩

theorem arrive_append : ∀ (xs ys : List (Frame D)) (n : ℕ),
    arrive n (xs ++ ys) = (arrive n xs).bind fun m => arrive m ys
  | [], _, _ => rfl
  | .archive p :: xs, ys, n => by
    simp only [List.cons_append, arrive]
    split_ifs
    · exact arrive_append xs ys _
    · rfl
  | .confirm _ :: xs, ys, n => arrive_append xs ys n
  | .archiveEnd :: xs, ys, n => arrive_append xs ys n
  | .ident _ :: _, _, _ => rfl
  | .current _ :: _, _, _ => rfl

theorem le_of_arrive : ∀ {xs : List (Frame D)} {n m : ℕ}, arrive n xs = some m → n ≤ m
  | [], n, m, h => Nat.le_of_eq (Option.some.inj h)
  | .archive p :: xs, n, m, h => by
    simp only [arrive] at h
    split_ifs at h
    exact (Nat.le_add_right _ _).trans (le_of_arrive h)
  | .confirm _ :: xs, n, m, h => le_of_arrive (show arrive n xs = some m from h)
  | .archiveEnd :: xs, n, m, h => le_of_arrive (show arrive n xs = some m from h)

theorem Phase.congr (h : Phase s) (hw : s'.world.toSession = s.world.toSession)
    (hc : counter D s'.world = counter D s.world) (ht : s'.todo = s.todo) (hn : s'.next = s.next)
    (ha : s'.answered = s.answered) (hN : s.newest ≤ s'.newest) : Phase s' := by
  have hp : ∀ {rs}, Pending s rs → Pending s' rs := by
    rintro rs ⟨done, hs, hl⟩
    exact ⟨done, by rw [hw, hs], by rw [ha, hl]⟩
  cases h with
  | identifying firmware todo pending next =>
    exact .identifying firmware (ht.trans todo) (hp pending) (hn.trans next)
  | deleting id state next flight =>
    refine .deleting (by rw [hw, id]) (by rw [hw, state]) (hn.trans next) ?_
    rw [ht]
    exact flight.imp (fun ⟨h, n, h'⟩ => ⟨h, n, hp h'⟩) fun ⟨n, h, h'⟩ => ⟨n, h, hp h'⟩
  | requested id state next todo r pending goesOn =>
    exact .requested (by rw [hw, id]) (by rw [hw]; exact state) (hn.trans next) (ht.trans todo) r
      (hp pending) (by rw [hc, goesOn])
  | downloading last rs d =>
    exact .downloading last rs ⟨by rw [hw, d.id], by rw [hw]; exact d.state, hn.trans d.next,
      by rw [hc, ht, d.arrives], d.le.trans hN, hp d.pending, d.deletes⟩

theorem Progress.answer (h : Progress E s) (hs : s.answer = some s') : Progress E s' := by
  obtain ⟨hres, hlt, hle, hph⟩ := h
  unfold Link.answer at hs
  cases hph with
  | identifying firmware todo pending next => simp [pending.answer_nil] at hs
  | deleting id state next flight =>
    rcases flight with ⟨todo, n, pending⟩ | ⟨n, todo, pending⟩
    · simp only [pending.answer_cons] at hs
      obtain rfl := Option.some.inj hs
      exact ⟨hres, hlt, hle, .deleting id state next
        (.inr ⟨n, by simp [Link.post, todo], pending.answered rfl rfl⟩)⟩
    · simp [pending.answer_nil] at hs
  | requested id state next todo r pending goesOn =>
    simp only [pending.answer_cons] at hs
    obtain rfl := Option.some.inj hs
    exact ⟨hres, hlt, hle, .downloading (counter D s.world) [] ⟨id, state, congrArg some goesOn,
      by simp [todo, arrive], hle, pending.answered rfl rfl, by simp⟩⟩
  | downloading last rs d =>
    rcases rs with _ | ⟨r, rs⟩
    · simp [d.pending.answer_nil] at hs
    obtain ⟨n, rfl⟩ := d.deletes r List.mem_cons_self
    simp only [d.pending.answer_cons] at hs
    obtain rfl := Option.some.inj hs
    refine ⟨hres, hlt, hle, .downloading last rs ⟨d.id, d.state, d.next, ?_, d.le,
      d.pending.answered rfl rfl, fun r hr => d.deletes r (List.mem_cons_of_mem _ hr)⟩⟩
    simp only [Link.post, arrive_append, d.arrives]
    rfl

theorem Progress.send (h : Progress E s) {q n : ℕ} {f : Frame D} {next : Option ℕ}
    (hq : s.next = some q) (hf : ∀ last, q = last + 1 → last ≤ s.newest →
      arrive last [f] = some n ∧ n ≤ s.newest ∧ next = some (n + 1)) :
    Progress E { s.post f with next := next } := by
  obtain ⟨hres, hlt, hle, hph⟩ := h
  cases hph with
  | identifying firmware todo pending hn => simp [hn] at hq
  | deleting id state hn flight => simp [hn] at hq
  | requested id state hn todo r pending goesOn => simp [hn] at hq
  | downloading last rs d =>
    obtain rfl : last + 1 = q := Option.some.inj (d.next.symm.trans hq)
    obtain ⟨hf, hle', hnext⟩ := hf last rfl d.le
    refine ⟨hres, hlt, hle,
      .downloading n rs ⟨d.id, d.state, hnext, ?_, hle', d.pending, d.deletes⟩⟩
    simp only [Link.post, arrive_append, d.arrives]
    exact hf

theorem resumed_congr {w w' : World} (hw : w'.toShared = w.toShared) (h : Resumed E D w) :
    Resumed E D w' := by
  simpa only [Resumed, mine, counter, World.getLastCounter, hw] using h

theorem counter_congr {w w' : World} (hw : w'.toShared = w.toShared) :
    counter D w' = counter D w := by
  simp only [counter, World.getLastCounter, hw]

/-- The server asks for the records from its counter on. -/
theorem sendRequest_goesOn {w : World} (hid : w.controllerId = D.controllerId)
    (hD : D.firstRecord = 1) (hlt : counter D w < 2 ^ 31) :
    ∃ r, w.sendRequest = { w with sent := w.sent ++ [.dataRequest r] }
      ∧ (if r = 0 then D.firstRecord else r.toNat) = counter D w + 1 := by
  refine ⟨_, rfl, ?_⟩
  rw [hid, hD]
  unfold counter at hlt ⊢
  by_cases h0 : w.getLastCounter D.controllerId = 0
  · simp [h0]
  · have hn : (w.getLastCounter D.controllerId + 1).toNat
        = (w.getLastCounter D.controllerId).toNat + 1 := by
      rw [UInt32.toNat_add, show (1 : UInt32).toNat = 1 from rfl]
      omega
    have hne : w.getLastCounter D.controllerId + 1 ≠ 0 := by
      intro h
      rw [h] at hn
      simp at hn
    rw [if_pos h0, if_neg hne, hn]

theorem Phase.identified {f : Frame D} {rest : List (Frame D)} (h : Phase s)
    (ht : s.todo = f :: rest) (hf : ∀ firmware, f ≠ .ident firmware) :
    s.world.controllerId = D.controllerId := by
  cases h with
  | identifying firmware todo => exact absurd (List.cons.inj (ht.symm.trans todo)).1 (hf firmware)
  | deleting id => exact id
  | requested id => exact id
  | downloading last rs d => exact d.id

/-- Whatever is no identification and no confirmation reaches the server in a download. -/
theorem Phase.download {f : Frame D} {rest : List (Frame D)} (h : Phase s)
    (ht : s.todo = f :: rest) (hi : ∀ firmware, f ≠ .ident firmware) (hc : ∀ n, f ≠ .confirm n) :
    ∃ last rs, Download s last rs := by
  cases h with
  | identifying firmware todo => exact absurd (List.cons.inj (ht.symm.trans todo)).1 (hi firmware)
  | deleting id state next flight =>
    rcases flight with ⟨todo, -⟩ | ⟨n, todo, -⟩
    · simp [ht] at todo
    · exact absurd (List.cons.inj (ht.symm.trans todo)).1 (hc n)
  | requested id state next todo => simp [ht] at todo
  | downloading last rs d => exact ⟨last, rs, d⟩

/-- The first frame of a session is answered by a request or by a deletion. -/
theorem Phase.start {firmware : UInt32} {rest : List (Frame D)} (h : Phase s)
    (ht : s.todo = .ident firmware :: rest) (hD : D.firstRecord = 1)
    (hlt : counter D s.world < 2 ^ 31) :
    Phase (s.handled (s.world.identify D.controllerId firmware).start (.ident firmware) rest) := by
  cases h with
  | identifying firmware' todo pending next =>
    obtain rfl : rest = [] := (List.cons.inj (ht.symm.trans todo)).2
    set w := s.world.identify D.controllerId firmware with hw
    have hid : w.controllerId = D.controllerId := rfl
    by_cases h0 : w.getLastCounter w.controllerId = 0
    · obtain ⟨r, hr, hgo⟩ := sendRequest_goesOn hid hD hlt
      rw [World.start, if_pos h0, hr]
      exact .requested hid (by simp [Link.handled, World.setProtocolState]) next rfl r
        (pending.send [.dataRequest r] rfl rfl) hgo
    · rw [World.start, if_neg h0, World.sendDelete_eq, World.deletion, if_neg h0]
      exact .deleting hid rfl next (.inl ⟨rfl, _, pending.send [.deleteData _] rfl rfl⟩)
  | deleting id state next flight =>
    rcases flight with ⟨todo, -⟩ | ⟨n, todo, -⟩ <;> simp [ht] at todo
  | requested id state next todo => simp [ht] at todo
  | downloading last rs d =>
    have := d.arrives
    simp [ht, arrive] at this

theorem Phase.confirmed {n : UInt32} {rest : List (Frame D)} (h : Phase s)
    (ht : s.todo = .confirm n :: rest) (hD : D.firstRecord = 1)
    (hlt : counter D s.world < 2 ^ 31) :
    Phase (s.handled (if s.world.protocolState = .waitInitialDeleteConfirm
      then s.world.sendRequest.setProtocolState .processArchive else s.world) (.confirm n)
      rest) := by
  cases h with
  | identifying firmware todo => simp [ht] at todo
  | deleting id state next flight =>
    rcases flight with ⟨todo, -⟩ | ⟨n', todo, pending⟩
    · simp [ht] at todo
    obtain rfl : rest = [] := (List.cons.inj (ht.symm.trans todo)).2
    obtain ⟨r, hr, hgo⟩ := sendRequest_goesOn id hD hlt
    rw [if_pos state, hr]
    exact .requested id (by simp [Link.handled, World.setProtocolState]) next rfl r
      (pending.send [.dataRequest r] rfl rfl) hgo
  | requested id state next todo => simp [ht] at todo
  | downloading last rs d =>
    have harr := d.arrives
    rw [ht] at harr
    rw [if_neg d.state]
    exact .downloading last rs ⟨d.id, d.state, d.next, harr, d.le, d.pending, d.deletes⟩

/-- The deletion of an empty archive frame changes nothing about the download. -/
theorem Phase.ended {rest : List (Frame D)} (h : Phase s) (ht : s.todo = .archiveEnd :: rest) :
    Phase (s.handled (s.world.sendDelete.setProtocolState .waitFinalDeleteConfirm) .archiveEnd
      rest) := by
  obtain ⟨last, rs, d⟩ := h.download ht (by simp) (by simp)
  have harr := d.arrives
  rw [ht] at harr
  rw [World.sendDelete_eq]
  refine .downloading last (rs ++ s.world.deletion) ⟨d.id, ?_, d.next, harr, d.le,
    d.pending.send _ rfl rfl, fun r hr => ?_⟩
  · simp [Link.handled, World.setProtocolState]
  · rcases List.mem_append.1 hr with hr | hr
    · exact d.deletes r hr
    · unfold World.deletion at hr
      split_ifs at hr
      · simp at hr
      · exact ⟨_, List.mem_singleton.1 hr⟩

/-- A package in front of the frames in flight goes on from the counter. -/
theorem Phase.arriving {p : Package D} {rest : List (Frame D)} (h : Phase s)
    (ht : s.todo = .archive p :: rest) : p.first = counter D s.world + 1 ∧ p.last ≤ s.newest := by
  obtain ⟨last, rs, d⟩ := h.download ht (by simp) (by simp)
  have harr := d.arrives
  rw [ht, arrive] at harr
  split_ifs at harr with hf
  have := (le_of_arrive harr).trans d.le
  refine ⟨hf, ?_⟩
  unfold Package.last
  omega

theorem Phase.accepted {p : Package D} {rest : List (Frame D)} (h : Phase s)
    (ht : s.todo = .archive p :: rest) :
    Phase (s.handled (accepted E s.world p TmCode.cArchiveData) (.archive p) rest) := by
  obtain ⟨hf, -⟩ := h.arriving ht
  obtain ⟨last, rs, d⟩ := h.download ht (by simp) (by simp)
  have harr := d.arrives
  rw [ht, arrive, if_pos hf] at harr
  refine .downloading last rs ⟨d.id, d.state, d.next, ?_, d.le, d.pending, d.deletes⟩
  have hlast : p.last = counter D s.world + p.count := by
    unfold Package.last
    omega
  rw [Link.handled, counter_accepted d.id TmCode.cArchiveData, hlast]
  exact harr

theorem Phase.ne_current {p : Package D} {rest : List (Frame D)} (h : Phase s) :
    s.todo ≠ .current p :: rest := by
  intro ht
  obtain ⟨last, rs, d⟩ := h.download ht (by simp) (by simp)
  have harr := d.arrives
  simp [ht, arrive] at harr

theorem Progress.deliver (h : Progress E s) (hone : OneEvent E D) (hD : D.firstRecord = 1)
    (hu : Undisturbed s .deliver) (hs : s.deliver E = some s') : Progress E s' := by
  obtain ⟨hres, hlt, hle, hph⟩ := h
  cases deliver_cases hs with
  | ident firmware rest todo =>
    have hw := World.start_shared (s.world.identify D.controllerId firmware)
    exact ⟨resumed_congr hw hres, hlt, (counter_congr hw).trans_le hle,
      hph.start todo hD (hle.trans_lt hlt)⟩
  | confirm n rest todo =>
    have hw : (if s.world.protocolState = .waitInitialDeleteConfirm
        then s.world.sendRequest.setProtocolState .processArchive else s.world).toShared
        = s.world.toShared := by
      split_ifs <;> rfl
    exact ⟨resumed_congr hw hres, hlt, (counter_congr hw).trans_le hle,
      hph.confirmed todo hD (hle.trans_lt hlt)⟩
  | archiveEnd rest todo =>
    have hw : (s.world.sendDelete.setProtocolState .waitFinalDeleteConfirm).toShared
        = s.world.toShared := by
      rw [World.sendDelete_eq]
      rfl
    exact ⟨resumed_congr hw hres, hlt, (counter_congr hw).trans_le hle, hph.ended todo⟩
  | accepted p f cmd rest todo carries takes =>
    cases carries with
    | current => exact absurd todo hph.ne_current
    | archive =>
      have hid := hph.identified todo (by simp)
      obtain ⟨hf, hp⟩ := hph.arriving todo
      exact ⟨hres.accepted hone hid hf (hp.trans_lt hlt) _, hlt,
        (counter_accepted hid _).trans_le hp, hph.accepted todo⟩
  | refused p f cmd rest msgs todo carries not_takes =>
    cases carries with
    | current => exact absurd todo hph.ne_current
    | archive =>
      obtain ⟨hf, hp⟩ := hph.arriving todo
      have hroom : HasRoom s.world (.archive p) := hu _ (by simp [todo])
      exact absurd (takes hone (by omega) (hp.trans_lt hlt) hroom _) not_takes

theorem Progress.step (h : Progress E s) (hone : OneEvent E D) (hD : D.firstRecord = 1)
    {e : LinkEvent D} (hu : Undisturbed s e) (hs : s.step E e = some s') : Progress E s' := by
  cases e with
  | connect firmware =>
    obtain rfl := Option.some.inj hs
    exact ⟨h.resumed, h.newest_lt, h.counter_le, .identifying firmware rfl ⟨[], rfl, rfl⟩ rfl⟩
  | record =>
    obtain rfl := Option.some.inj hs
    exact ⟨h.resumed, hu, h.counter_le.trans (Nat.le_succ _),
      h.phase.congr rfl rfl rfl rfl rfl (Nat.le_succ _)⟩
  | answer => exact h.answer hs
  | archive p =>
    simp only [Link.step] at hs
    split_ifs at hs with hc
    obtain rfl := Option.some.inj hs
    have hcount := p.count_pos
    have hlast : p.last = p.first + p.count - 1 := rfl
    refine h.send (n := p.last) hc.1 fun last hl _ => ⟨?_, hc.2, ?_⟩
    · rw [arrive, if_pos hl, arrive, Option.some.injEq]
      omega
    · rw [Option.some.injEq]
      omega
  | archiveEnd =>
    simp only [Link.step] at hs
    split_ifs at hs with hc
    obtain rfl := Option.some.inj hs
    obtain ⟨q, hq⟩ := Option.isSome_iff_exists.1 hc
    refine h.send (n := q - 1) hq fun last hl hle => ?_
    subst hl
    exact ⟨rfl, hle, hq⟩
  | current p => exact absurd hu id
  | deliver => exact h.deliver hone hD hu hs
  | drop =>
    obtain rfl := Option.some.inj hs
    exact ⟨h.resumed, h.newest_lt, h.counter_le, h.phase.congr rfl rfl rfl rfl rfl le_rfl⟩
  | others counterer messages new =>
    simp only [Link.step] at hs
    split_ifs at hs with hc
    obtain rfl := Option.some.inj hs
    have hcount : counter D { s.world with
        counterer := counterer
        backend := { s.world.backend with
          messages := messages
          accepted := s.world.backend.accepted ++ new } } = counter D s.world := by
      simp only [counter, World.getLastCounter, hc.1]
    have hnew : new.filter (·.controlId = D.controllerId) = [] :=
      List.filter_eq_nil_iff.2 fun m hm => by simpa using hc.2 m hm
    refine ⟨?_, h.newest_lt, hcount.trans_le h.counter_le,
      h.phase.congr rfl hcount rfl rfl rfl le_rfl⟩
    have hres := h.resumed
    simp only [Resumed, mine] at hres ⊢
    rw [hcount, List.filter_append, hnew, List.append_nil]
    exact hres

end Phases

theorem progress_start (shared : Shared) (hc : shared.counterer D.controllerId = none)
    (hm : ∀ m ∈ shared.backend.accepted, m.controlId ≠ D.controllerId) {newest : ℕ}
    (hN : newest < 2 ^ 31) (firmware : UInt32) :
    Progress E (Link.start (D := D) shared newest firmware) := by
  have h0 : counter D (Link.start (D := D) shared newest firmware).world = 0 := by
    simp [counter, World.getLastCounter, Link.start, hc]
  have hmine : mine D (Link.start (D := D) shared newest firmware).world = [] :=
    List.filter_eq_nil_iff.2 fun m h => by simpa using hm m h
  refine ⟨?_, hN, by rw [h0]; exact Nat.zero_le _, .identifying firmware rfl ⟨[], rfl, rfl⟩ rfl⟩
  rw [Resumed, h0, hmine]
  exact ⟨rfl, rfl⟩

/-- Over any number of sessions, cut anywhere, the records up to the counter are enqueued once
each and in order, with labels that count them. -/
theorem always_resumed (hone : OneEvent E D) (hD : D.firstRecord = 1) (shared : Shared)
    (hc : shared.counterer D.controllerId = none)
    (hm : ∀ m ∈ shared.backend.accepted, m.controlId ≠ D.controllerId) (newest : ℕ)
    (hN : newest < 2 ^ 31) (firmware : UInt32) (es : List (LinkEvent D))
    (hu : Lts.Along (Link.step E) Undisturbed (.start shared newest firmware) es) :
    Lts.Always (Link.step E) (fun s => Resumed E D s.world) (.start shared newest firmware) es :=
  (Lts.always_of_along (fun _ _ _ h hu hs => h.step hone hD hu hs)
    (progress_start E shared hc hm hN firmware) hu).imp fun _ => Progress.resumed

/-- A download cut after its first record, taken up by the next session and ended by it. -/
theorem always_resumed_two_sessions :
    Lts.Always (Link.step eventOnly) (fun s => Resumed eventOnly newDevice s.world)
      (Link.start (D := newDevice) ⟨fun _ => none, ⟨4096, [], []⟩⟩ 3 0)
      [.deliver, .answer, .archive ⟨1, 1, 0, 0, by decide, by decide, by decide⟩, .deliver,
        .connect 0, .deliver, .answer, .deliver, .answer,
        .archive ⟨2, 2, 0, 0, by decide, by decide, by decide⟩, .archiveEnd, .deliver, .deliver,
        .answer, .deliver] :=
  always_resumed eventOnly (D := newDevice) (fun _ => ⟨rfl, rfl⟩) rfl _ rfl (by simp) 3
    (by decide) 0 _ (by decide +kernel)

end Communicator
