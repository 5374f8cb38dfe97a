import Communicator.Proofs.Reception
import Communicator.Proofs.Frames

/-!
# Frames handed over twice

A call of `recive_impl` that an exception ends leaves its buffer as it was, so the next call hands
over every frame of it again, those whose handlers returned included (`reciveImpl_again`). A call
that ends normally drops what it handed over, and later calls start behind it.
-/

namespace Communicator

variable {σ : Type} (H : Handlers σ)

theorem handOver_dispatched (buf : List UInt8) : ∀ (items : List (ℕ × List UInt8)) (s : σ),
    (handOver H buf s items).2.2.map (fun d => (d.offset, d.frame)) <+: items
  | [], s => by simp [handOver]
  | (offset, frame) :: rest, s => by
    rcases hp : H.processMessage s (buf.drop offset) with ⟨_ | e | _, s'⟩
    · simp only [handOver, hp, List.map_cons]
      exact (List.prefix_cons_inj _).2 (handOver_dispatched buf rest s')
    · simp [handOver, hp]
    · simp [handOver, hp]

theorem handOver_ne_nil (buf : List UInt8) (i : ℕ × List UInt8) (items : List (ℕ × List UInt8))
    (s : σ) : ∃ d ds, (handOver H buf s (i :: items)).2.2 = d :: ds ∧ d.offset = i.1
      ∧ d.outcome = (H.processMessage s (buf.drop i.1)).1 := by
  obtain ⟨offset, frame⟩ := i
  rcases hp : H.processMessage s (buf.drop offset) with ⟨_ | e | _, s'⟩ <;>
    simp [handOver, hp]

theorem handOver_fails (buf : List UInt8) {i : ℕ × List UInt8} {items : List (ℕ × List UInt8)}
    (s : σ) (h : (H.processMessage s (buf.drop i.1)).1 ≠ .returned ()) :
    (handOver H buf s (i :: items)).2.2
      = [⟨i.1, i.2, (H.processMessage s (buf.drop i.1)).1⟩] := by
  obtain ⟨offset, frame⟩ := i
  rcases hp : H.processMessage s (buf.drop offset) with ⟨_ | e | _, s'⟩
  · simp [hp] at h
  · simp [handOver, hp]
  · simp [handOver, hp]

theorem mem_dispatched {s : σ} {r : Receiver} {data : List UInt8} {d : Dispatch}
    (hd : d ∈ (reciveImpl H s r data).dispatched) :
    d.offset < (framing.scan (r.storeData data).buffer).used
      ∧ d.frame <+: (r.storeData data).buffer.drop d.offset := by
  rw [reciveImpl_dispatched] at hd
  have hi := (handOver_dispatched H _ _ s).subset (List.mem_map_of_mem hd)
  obtain ⟨h1, h2, h3⟩ := (framing.items_spec _).2 _ hi
  have := List.length_pos_iff.2 h1
  exact ⟨by omega, h3⟩

theorem reciveImpl_receiver_returned {s : σ} {r : Receiver} {data : List UInt8}
    (h : (reciveImpl H s r data).outcome = .returned ()) :
    (reciveImpl H s r data).receiver
      = ⟨(r.storeData data).state, framing.leftover (r.storeData data).buffer⟩ := by
  rw [reciveImpl_outcome] at h
  rw [reciveImpl_eq, received, h]

theorem reciveImpl_receiver_threw {s : σ} {r : Receiver} {data : List UInt8} {e : Fault}
    (h : (reciveImpl H s r data).outcome = .threw e) :
    (reciveImpl H s r data).receiver = r.storeData data := by
  rw [reciveImpl_outcome] at h
  rw [reciveImpl_eq, received, h]

/-- With a frame in the buffer already, a call hands that frame over first. -/
theorem reciveImpl_again (s : σ) (r : Receiver) (data : List UInt8) {i : ℕ × List UInt8}
    {items : List (ℕ × List UInt8)} (h : (framing.scan r.buffer).items = i :: items) :
    ∃ d ∈ (reciveImpl H s r data).dispatched, d.offset = i.1 := by
  obtain ⟨more, hm⟩ := Receiver.storeData_buffer_prefix r data
  have hsc := framing.scan_append r.buffer more
  obtain ⟨d, ds, hd, ho, -⟩ := handOver_ne_nil H (r.storeData data).buffer i
    (items ++ (framing.scan (framing.leftover r.buffer ++ more)).items.map
      fun j => ((framing.scan r.buffer).used + j.1, j.2)) s
  refine ⟨d, ?_, ho⟩
  rw [reciveImpl_dispatched, ← hm, hsc]
  simp only [Scan.Result.andThen, h, List.cons_append]
  rw [hm, hd]
  exact List.mem_cons_self

def shifted (base : ℕ) (log : List Dispatch) : List Dispatch :=
  log.map fun d => { d with offset := base + d.offset }

theorem reciveCalls_undefined {s : σ} {r : Receiver} {chunk : List UInt8}
    (h : (reciveImpl H s r chunk).outcome = .undefined) (base : ℕ) (chunks : List (List UInt8)) :
    reciveCalls H s r base (chunk :: chunks)
      = [shifted base (reciveImpl H s r chunk).dispatched] := by
  rw [reciveCalls]
  simp only [h]
  rfl

theorem reciveCalls_returned {s : σ} {r : Receiver} {chunk : List UInt8}
    (h : (reciveImpl H s r chunk).outcome = .returned ()) (base : ℕ) (chunks : List (List UInt8)) :
    reciveCalls H s r base (chunk :: chunks)
      = shifted base (reciveImpl H s r chunk).dispatched
        :: reciveCalls H (reciveImpl H s r chunk).state (reciveImpl H s r chunk).receiver
          (base + (framing.scan (r.storeData chunk).buffer).used) chunks := by
  have hr := reciveImpl_receiver_returned H h
  have hu := framing.used_le (r.storeData chunk).buffer
  have hb : (r.storeData chunk).buffer.length - (reciveImpl H s r chunk).receiver.buffer.length
      = (framing.scan (r.storeData chunk).buffer).used := by
    rw [hr, Scan.Scanner.leftover, List.length_drop]
    omega
  rw [reciveCalls]
  simp only [h, hb]
  rfl

theorem reciveCalls_threw {s : σ} {r : Receiver} {chunk : List UInt8} {e : Fault}
    (h : (reciveImpl H s r chunk).outcome = .threw e) (base : ℕ) (chunks : List (List UInt8)) :
    reciveCalls H s r base (chunk :: chunks)
      = shifted base (reciveImpl H s r chunk).dispatched
        :: reciveCalls H (reciveImpl H s r chunk).state (r.storeData chunk) base chunks := by
  rw [reciveCalls]
  simp only [h, reciveImpl_receiver_threw H h, Nat.sub_self, Nat.add_zero]
  rfl

theorem mem_reciveCalls (s : σ) (r : Receiver) (base : ℕ) (chunk : List UInt8)
    (chunks : List (List UInt8)) : shifted base (reciveImpl H s r chunk).dispatched
      ∈ reciveCalls H s r base (chunk :: chunks) := by
  rcases h : (reciveImpl H s r chunk).outcome with _ | e | _
  · rw [reciveCalls_returned H h]
    exact List.mem_cons_self
  · rw [reciveCalls_threw H h]
    exact List.mem_cons_self
  · rw [reciveCalls_undefined H h]
    exact List.mem_cons_self

theorem le_offset : ∀ (chunks : List (List UInt8)) (s : σ) (r : Receiver) (base : ℕ),
    ∀ call ∈ reciveCalls H s r base chunks, ∀ d ∈ call, base ≤ d.offset
  | [], s, r, base => by simp [reciveCalls]
  | chunk :: chunks, s, r, base => by
    have hlog : ∀ d ∈ shifted base (reciveImpl H s r chunk).dispatched, base ≤ d.offset := by
      intro d hd
      obtain ⟨d', -, rfl⟩ := List.mem_map.1 hd
      exact Nat.le_add_right _ _
    rcases h : (reciveImpl H s r chunk).outcome with _ | e | _
    · rw [reciveCalls_returned H h]
      refine List.forall_mem_cons.2 ⟨hlog, fun call hc d hd => ?_⟩
      exact (Nat.le_add_right _ _).trans (le_offset chunks _ _ _ call hc d hd)
    · rw [reciveCalls_threw H h]
      exact List.forall_mem_cons.2 ⟨hlog, le_offset chunks _ _ _⟩
    · rw [reciveCalls_undefined H h]
      simpa using hlog

/-- The place of a dispatched frame is where it starts in the un-stuffed stream. -/
theorem frame_at_offset : ∀ (chunks : List (List UInt8)) (s : σ) (r : Receiver) (past : List UInt8),
    ∀ call ∈ reciveCalls H s r past.length chunks, ∀ d ∈ call,
      d.frame <+: (past ++ (r.storeData chunks.flatten).buffer).drop d.offset
  | [], s, r, past => by simp [reciveCalls]
  | chunk :: chunks, s, r, past => by
    obtain ⟨st, more, hm⟩ := Receiver.exists_storeData (r.storeData chunk).state chunks.flatten
    have hall : (r.storeData (chunk :: chunks).flatten).buffer
        = (r.storeData chunk).buffer ++ more := by
      rw [List.flatten_cons, Receiver.storeData_append]
      exact congrArg Receiver.buffer (hm (r.storeData chunk).buffer)
    have hlog : ∀ d ∈ shifted past.length (reciveImpl H s r chunk).dispatched,
        d.frame <+: (past ++ (r.storeData (chunk :: chunks).flatten).buffer).drop d.offset := by
      intro d hd
      obtain ⟨d', hd', rfl⟩ := List.mem_map.1 hd
      obtain ⟨h1, h2⟩ := mem_dispatched H hd'
      have hu := framing.used_le (r.storeData chunk).buffer
      simp only []
      rw [← List.drop_drop, List.drop_left, hall, List.drop_append_of_le_length (by omega)]
      exact h2.trans (List.prefix_append _ _)
    rcases h : (reciveImpl H s r chunk).outcome with _ | e | _
    · rw [reciveCalls_returned H h]
      refine List.forall_mem_cons.2 ⟨hlog, fun call hc d hd => ?_⟩
      have hu := framing.used_le (r.storeData chunk).buffer
      have ih := frame_at_offset chunks _ _
        (past ++ (r.storeData chunk).buffer.take (framing.scan (r.storeData chunk).buffer).used)
        call (by simpa [Nat.min_eq_left hu] using hc) d hd
      rw [reciveImpl_receiver_returned H h, hm] at ih
      rw [hall]
      simp only [Scan.Scanner.leftover] at ih
      rwa [List.append_assoc, ← List.append_assoc (List.take _ _), List.take_append_drop] at ih
    · rw [reciveCalls_threw H h]
      refine List.forall_mem_cons.2 ⟨hlog, fun call hc d hd => ?_⟩
      have ih := frame_at_offset chunks _ _ past call hc d hd
      rwa [← Receiver.storeData_append, ← List.flatten_cons] at ih
    · rw [reciveCalls_undefined H h]
      simpa using hlog

/-- No frame whose handler returned is handed over again by a later call. -/
def AtMostOnce (calls : List (List Dispatch)) : Prop :=
  calls.Pairwise fun call later =>
    ∀ d ∈ call, d.outcome = .returned () → ∀ d' ∈ later, d'.offset ≠ d.offset

/-- If handing over a buffer ends with an exception, it is the first frame's. -/
def ThrowsFirst (s : σ) (buf : List UInt8) : Prop :=
  ∀ e, (handOver H buf s (framing.scan buf).items).1 = .threw e →
    ∀ i ∈ (framing.scan buf).items.head?, (H.processMessage s (buf.drop i.1)).1 ≠ .returned ()

/-- So it is in every call but the last. -/
def FailsFirst : σ → Receiver → List (List UInt8) → Prop
  | s, r, chunk :: next :: chunks =>
    ThrowsFirst H s (r.storeData chunk).buffer
      ∧ ((reciveImpl H s r chunk).outcome ≠ .undefined →
        FailsFirst (reciveImpl H s r chunk).state (reciveImpl H s r chunk).receiver
          (next :: chunks))
  | _, _, _ => True

theorem atMostOnce_returned {s : σ} {r : Receiver} {chunk : List UInt8}
    (h : (reciveImpl H s r chunk).outcome = .returned ()) (base : ℕ) (chunks : List (List UInt8)) :
    AtMostOnce (reciveCalls H s r base (chunk :: chunks))
      ↔ AtMostOnce (reciveCalls H (reciveImpl H s r chunk).state (reciveImpl H s r chunk).receiver
          (base + (framing.scan (r.storeData chunk).buffer).used) chunks) := by
  rw [reciveCalls_returned H h, AtMostOnce, List.pairwise_cons]
  refine and_iff_right fun later hl d hd _ d' hd' => ?_
  obtain ⟨d₀, hd₀, rfl⟩ := List.mem_map.1 hd
  have h1 := (mem_dispatched H hd₀).1
  have h2 := le_offset H chunks _ _ _ later hl d' hd'
  simp only []
  omega

/-- After an exception the first frame is handed over again, so it must be the one that threw. -/
theorem atMostOnce_threw {s : σ} {r : Receiver} {chunk : List UInt8} {e : Fault}
    (h : (reciveImpl H s r chunk).outcome = .threw e) (base : ℕ) (next : List UInt8)
    (chunks : List (List UInt8)) :
    AtMostOnce (reciveCalls H s r base (chunk :: next :: chunks))
      ↔ ThrowsFirst H s (r.storeData chunk).buffer
        ∧ AtMostOnce (reciveCalls H (reciveImpl H s r chunk).state (r.storeData chunk) base
          (next :: chunks)) := by
  rw [reciveCalls_threw H h, AtMostOnce, List.pairwise_cons]
  refine and_congr_left fun _ => ?_
  rw [reciveImpl_dispatched, reciveImpl_outcome] at *
  set buf := (r.storeData chunk).buffer with hbuf
  rcases hi : (framing.scan buf).items with _ | ⟨i, items⟩
  · simp [hi, handOver] at h
  obtain ⟨d, ds, hd, ho, hout⟩ := handOver_ne_nil H buf i items s
  constructor
  · intro hp e' _ j hj hret
    obtain rfl : i = j := by simpa [hi] using hj
    obtain ⟨d', hd', ho'⟩ := reciveImpl_again H (reciveImpl H s r chunk).state (r.storeData chunk)
      next hi
    refine hp _ (mem_reciveCalls H _ _ base next chunks) _
      (List.mem_map_of_mem (hd ▸ List.mem_cons_self)) (hout.trans hret) _
      (List.mem_map_of_mem hd') ?_
    simp only [ho, ho']
  · intro hf later hl d' hd' hret
    have hne := hf e h i (by simp [hi])
    rw [handOver_fails H buf s hne] at hd'
    simp only [shifted, List.map_cons, List.map_nil, List.mem_singleton] at hd'
    subst hd'
    exact absurd hret hne

theorem atMostOnce_iff_of : ∀ (chunks : List (List UInt8)) (s : σ) (r : Receiver) (base : ℕ),
    AtMostOnce (reciveCalls H s r base chunks) ↔ FailsFirst H s r chunks
  | [], s, r, base => by simp [AtMostOnce, reciveCalls, FailsFirst]
  | [chunk], s, r, base => by
    have hone : ∃ log, reciveCalls H s r base [chunk] = [log] := by
      rcases h : (reciveImpl H s r chunk).outcome with _ | e | _
      · exact ⟨_, reciveCalls_returned H h base []⟩
      · exact ⟨_, reciveCalls_threw H h base []⟩
      · exact ⟨_, reciveCalls_undefined H h base []⟩
    obtain ⟨log, hlog⟩ := hone
    simp [hlog, AtMostOnce, FailsFirst]
  | chunk :: next :: chunks, s, r, base => by
    have ih := atMostOnce_iff_of (next :: chunks) (reciveImpl H s r chunk).state
      (reciveImpl H s r chunk).receiver
    rw [FailsFirst]
    rcases h : (reciveImpl H s r chunk).outcome with _ | e | _
    · have ht : ThrowsFirst H s (r.storeData chunk).buffer := by
        intro e he
        rw [← reciveImpl_outcome, h] at he
        simp at he
      rw [atMostOnce_returned H h, ih]
      simp [ht]
    · rw [atMostOnce_threw H h, ← reciveImpl_receiver_threw H h, ih]
      simp
    · have ht : ThrowsFirst H s (r.storeData chunk).buffer := by
        intro e he
        rw [← reciveImpl_outcome, h] at he
        simp at he
      rw [reciveCalls_undefined H h]
      simp [AtMostOnce, ht]

/-- A connection hands over no frame twice exactly if no exception but one of the last call leaves
handled frames before it in the buffer. -/
theorem atMostOnce_iff (s : σ) (chunks : List (List UInt8)) :
    AtMostOnce (reciveCalls H s {} 0 chunks) ↔ FailsFirst H s {} chunks :=
  atMostOnce_iff_of H chunks s {} 0

/-- A frame that is processed, one of current data too short for its handler, and another read. -/
theorem not_atMostOnce_short_frame :
    ¬ AtMostOnce (reciveCalls (transportProtocol eventOnly)
        { counterer := fun _ => none, backend := ⟨10, [], []⟩ } {} 0
        [(⟨TmCode.cDeleteConfirm, [], by decide⟩ : TransportMessage).wire
          ++ (⟨TmCode.cCurrentData, [], by decide⟩ : TransportMessage).wire, [0]]) := by
  have h : reciveCalls (transportProtocol eventOnly)
      { counterer := fun _ => none, backend := ⟨10, [], []⟩ } {} 0
      [(⟨TmCode.cDeleteConfirm, [], by decide⟩ : TransportMessage).wire
        ++ (⟨TmCode.cCurrentData, [], by decide⟩ : TransportMessage).wire, [0]]
      = [[⟨0, [0xC0, 0x88, 0, 0, 0x5E, 0x67], .returned ()⟩,
          ⟨6, [0xC0, 0x95, 0, 0, 0x5F, 0x55], .threw .wrongMessageSize⟩],
        [⟨0, [0xC0, 0x88, 0, 0, 0x5E, 0x67], .returned ()⟩,
          ⟨6, [0xC0, 0x95, 0, 0, 0x5F, 0x55], .threw .wrongMessageSize⟩]] := by
    decide +kernel
  rw [h]
  simp [AtMostOnce]

end Communicator
