import Communicator.Proofs.Exchange
import Communicator.Proofs.Redelivery

/-!
# Bytes in transit

A link moves whole frames; the connection moves bytes, in reads cut anywhere. They agree as long
as the server's buffer and the bytes not yet read make up the frames still to come (`InTransit`):
a call of `recive_impl` then is a run of the link (`InTransit.recive`), one handing over for each
frame that is whole in the buffer, and the frames dropped where the call returns.
-/

namespace Communicator

variable {D : Device} {E : Env}

/-- Frames one after the other. -/
def framesBytes (fs : List (Frame D)) : List UInt8 := fs.flatMap fun f => f.message.frame

theorem framesBytes_cons (f : Frame D) (fs : List (Frame D)) :
    framesBytes (f :: fs) = f.message.frame ++ framesBytes fs := by
  simp [framesBytes]

/-- A part of a frame that is not all of it is no frame yet. -/
theorem nextFrame_of_lt (m : TransportMessage) {buf more rest : List UInt8}
    (h : buf ++ more = m.frame ++ rest) (hlt : buf.length < m.frame.length) :
    nextFrame buf = .more := by
  rcases hn : nextFrame buf with _ | _ | ⟨g, b, r⟩
  · rfl
  · have := nextFrame_bad_append more hn
    simp [h, nextFrame_frame] at this
  · have hi := nextFrame_item_append more hn
    rw [h, nextFrame_frame] at hi
    have hb := (nextFrame_item hn).1
    simp only [Scan.Hit.item.injEq] at hi
    obtain ⟨rfl, rfl, -⟩ := hi
    rw [hb] at hlt
    simp at hlt

/-- A buffer in front of a stream of frames holds some of them whole and a part of the next. -/
theorem exists_whole : ∀ (fs : List (Frame D)) {buf more : List UInt8},
    buf ++ more = framesBytes fs → ∃ whole later tail, fs = whole ++ later
      ∧ buf = framesBytes whole ++ tail ∧ tail ++ more = framesBytes later
      ∧ nextFrame tail = .more
  | [], buf, more, h => by
    obtain ⟨rfl, rfl⟩ := List.append_eq_nil_iff.1 (h.trans rfl)
    exact ⟨[], [], [], rfl, rfl, rfl, rfl⟩
  | f :: fs, buf, more, h => by
    rw [framesBytes_cons] at h
    rcases Nat.lt_or_ge buf.length f.message.frame.length with hlt | hge
    · exact ⟨[], f :: fs, buf, rfl, rfl, h.trans (framesBytes_cons f fs).symm,
        nextFrame_of_lt _ h hlt⟩
    · obtain ⟨buf', rfl⟩ : ∃ buf', buf = f.message.frame ++ buf' := by
        rcases List.append_eq_append_iff.1 h with ⟨as, ha, hb⟩ | ⟨as, ha, hb⟩
        · obtain rfl : as = [] := by
            have := congrArg List.length ha
            rw [List.length_append] at this
            exact List.length_eq_zero_iff.1 (by omega)
          exact ⟨[], by simpa using ha.symm⟩
        · exact ⟨as, ha⟩
      rw [List.append_assoc] at h
      obtain ⟨whole, later, tail, rfl, rfl, h3, h4⟩ :=
        exists_whole fs (List.append_cancel_left h)
      exact ⟨f :: whole, later, tail, rfl, by simp [framesBytes_cons], h3, h4⟩

theorem next_framesBytes (f : Frame D) (fs : List (Frame D)) (tail : List UInt8) :
    framing.next (framesBytes (f :: fs) ++ tail)
      = .item [] f.message.frame (framesBytes fs ++ tail) := by
  rw [framesBytes_cons, List.append_assoc]
  exact nextFrame_frame f.message _

theorem scan_framesBytes {tail : List UInt8} (htail : framing.next tail = .more) :
    ∀ fs : List (Frame D), framing.leftover (framesBytes fs ++ tail) = tail
      ∧ (framing.scan (framesBytes fs ++ tail)).broken = false
  | [] => by simp [framesBytes, Scan.Scanner.leftover, framing.scan_more htail]
  | f :: fs => by
    have hn := next_framesBytes f fs tail
    rw [framing.leftover_item hn, framing.scan_item hn]
    exact scan_framesBytes htail fs

/-- The events of a call. -/
def Handing (es : List (LinkEvent D)) : Prop := ∀ e ∈ es, e = .deliver ∨ e = .drop

/-- Handing over whole frames is a run of the link that ends with nothing kept: by dropping the
frames, or by the exception that has them all handed over again. -/
theorem run_handOver {tail : List UInt8} (htail : nextFrame tail = .more)
    {later : List (Frame D)} : ∀ (whole : List (Frame D)) (s : Link D) (pre : List UInt8)
    (t : Outcome Unit × World × List Dispatch), s.todo = whole ++ later →
    handOver (transportProtocol E) (pre ++ (framesBytes whole ++ tail)) s.world
      ((framing.scan (framesBytes whole ++ tail)).items.map fun i => (pre.length + i.1, i.2)) = t →
    t.1 ≠ .undefined →
    ∃ es s', Handing es ∧ Lts.run (Link.step E) s es = some s' ∧ s'.past = [] ∧ s'.world = t.2.1
      ∧ (t.1 = .returned () ∧ s'.todo = later
        ∨ (∃ e, t.1 = .threw e) ∧ s'.todo = s.past ++ s.todo)
  | [], s, pre, t, ht, he, _ => by
    have hs : framing.scan (framesBytes (D := D) [] ++ tail) = ⟨[], 0, false⟩ :=
      framing.scan_more htail
    rw [hs] at he
    subst he
    exact ⟨[.drop], { s with past := [] }, by simp [Handing], rfl, rfl, rfl, .inl ⟨rfl, ht⟩⟩
  | f :: whole, s, pre, t, ht, he, hne => by
    have hb : pre ++ (framesBytes (f :: whole) ++ tail)
        = (pre ++ f.message.frame) ++ (framesBytes whole ++ tail) := by
      simp [framesBytes_cons]
    have hp : (transportProtocol E).processMessage s.world
        ((pre ++ (framesBytes (f :: whole) ++ tail)).drop pre.length)
        = processMessage E s.world f.message.frame := by
      change processMessage E s.world _ = _
      rw [List.drop_left, framesBytes_cons, List.append_assoc, processMessage_frame_append]
    have hf : ((fun i => (pre.length + i.1, i.2)) ∘ fun i => (f.message.frame.length + i.1, i.2))
        = fun i : ℕ × List UInt8 => ((pre ++ f.message.frame).length + i.1, i.2) := by
      funext i
      simp only [Function.comp_apply, List.length_append, Nat.add_assoc]
    rw [framing.scan_item (next_framesBytes f whole tail)] at he
    simp only [Scan.Result.andThen, List.length_nil, Nat.zero_add, List.map_cons,
      List.singleton_append, List.map_map, Nat.add_zero, handOver, hp] at he
    rcases hr : processMessage E s.world f.message.frame with ⟨_ | e | _, w⟩
    · have hd : s.deliver E = some (s.handled w f (whole ++ later)) :=
        deliver_returned (ht.trans rfl) hr
      rw [hr, hf, hb] at he
      subst he
      obtain ⟨es, s', h1, h2, h3, h4, h5⟩ := run_handOver htail whole
        (s.handled w f (whole ++ later)) (pre ++ f.message.frame) _ rfl rfl hne
      refine ⟨.deliver :: es, s', List.forall_mem_cons.2 ⟨.inl rfl, h1⟩, ?_, h3, h4, h5.imp id ?_⟩
      · rw [Lts.run, show s.step E .deliver = _ from hd]
        exact h2
      · rintro ⟨he, h6⟩
        refine ⟨he, h6.trans ?_⟩
        simp [Link.handled, ht]
    · rw [hr] at he
      subst he
      refine ⟨[.deliver],
        { s with world := w, past := [], todo := s.past ++ f :: (whole ++ later) },
        by simp [Handing], ?_, rfl, rfl, .inr ⟨⟨e, rfl⟩, by rw [ht]; rfl⟩⟩
      simp [Lts.run, Link.step, Link.deliver, ht, hr]
    · rw [hr] at he
      exact absurd (he ▸ rfl) hne

/-- The buffer and the bytes not read yet make up the frames to come. -/
structure InTransit (s : Link D) (r : Receiver) (unread : List UInt8) : Prop where
  past : s.past = []
  todo : r.storeData unread = ⟨.normal, framesBytes s.todo⟩

variable {s : Link D} {r : Receiver} {unread : List UInt8}

theorem InTransit.post (h : InTransit s r unread) (f : Frame D) :
    InTransit (s.post f) r (unread ++ f.message.wire) := by
  refine ⟨h.past, ?_⟩
  rw [Receiver.storeData_append, h.todo, storeData_wire]
  simp [Link.post, framesBytes]

/-- A read is a run of the link. -/
theorem InTransit.recive {data : List UInt8} (h : InTransit s r (data ++ unread))
    (hne : (reciveImpl (transportProtocol E) s.world r data).outcome ≠ .undefined) :
    ∃ es s', Handing es ∧ Lts.run (Link.step E) s es = some s'
      ∧ s'.world = (reciveImpl (transportProtocol E) s.world r data).state
      ∧ InTransit s' (reciveImpl (transportProtocol E) s.world r data).receiver unread := by
  obtain ⟨st, more, hst⟩ := Receiver.exists_storeData (r.storeData data).state unread
  have hall := h.todo
  rw [Receiver.storeData_append] at hall
  have hmore := (hst (r.storeData data).buffer).symm.trans hall
  simp only [Receiver.mk.injEq] at hmore
  obtain ⟨rfl, hbuf⟩ := hmore
  obtain ⟨whole, later, tail, h1, h2, h3, h4⟩ := exists_whole s.todo hbuf
  obtain ⟨hleft, hbr⟩ := scan_framesBytes h4 whole
  rw [← h2] at hleft hbr
  have himpl := reciveImpl_eq (transportProtocol E) s.world r data
  rw [hleft, hbr] at himpl
  rw [reciveImpl_outcome] at hne
  obtain ⟨es, s', he, hrun, hpast, hw, hend⟩ := run_handOver h4 whole s [] _ h1
    (by simp only [List.nil_append, List.length_nil, Nat.zero_add, ← h2, List.map_id']; rfl) hne
  rcases hend with ⟨ho, htodo⟩ | ⟨⟨e, ho⟩, htodo⟩
  · rw [received, ho] at himpl
    refine ⟨es, s', he, hrun, by rw [himpl, hw]; rfl, hpast, ?_⟩
    rw [himpl, htodo]
    exact (hst tail).trans (by rw [h3])
  · rw [received, ho] at himpl
    refine ⟨es, s', he, hrun, by rw [himpl, hw], hpast, ?_⟩
    rw [himpl, htodo, h.past]
    exact hall

end Communicator
