import Communicator.Proofs.Frames
import Communicator.Proofs.Framing

/-!
# What is received of a stream

While no handler throws, what a connection dispatches, keeps and reports is read off one scan of
everything it received (`reciveAll_returned`), so it does not depend on how the stream was cut. A
stream of encoded messages is un-stuffed to their frames, which the scan finds one by one. What
`send` makes ends with the checksum's bytes the other way round.
-/

namespace Communicator

open TransportHeader

variable {σ : Type} (H : Handlers σ)

def Reception.frames (a : Reception σ) : List (List UInt8) := a.dispatched.map (·.frame)

variable {H}

/-- Every handler called returned. -/
def Reception.AllReturned (a : Reception σ) : Prop :=
  ∀ d ∈ a.dispatched, d.outcome = .returned ()

instance (a : Reception σ) : Decidable a.AllReturned :=
  inferInstanceAs (Decidable (∀ d ∈ a.dispatched, d.outcome = .returned ()))

theorem handOver_returned (buf : List UInt8) : ∀ (items : List (ℕ × List UInt8)) (s : σ),
    (∀ d ∈ (handOver H buf s items).2.2, d.outcome = .returned ()) →
      (handOver H buf s items).1 = .returned ()
        ∧ (handOver H buf s items).2.2 = items.map fun i => ⟨i.1, i.2, .returned ()⟩
  | [], s, _ => ⟨rfl, rfl⟩
  | (offset, frame) :: rest, s, h => by
    rcases hp : H.processMessage s (buf.drop offset) with ⟨_ | e | _, s'⟩
    · simp only [handOver, hp, List.forall_mem_cons] at h
      obtain ⟨ih1, ih2⟩ := handOver_returned buf rest s' h.2
      simp only [handOver, hp, ih1, ih2, List.map_cons]
      exact ⟨trivial, trivial⟩
    · simp [handOver, hp] at h
    · simp [handOver, hp] at h

theorem reciveImpl_returned {s : σ} {r : Receiver} {data : List UInt8}
    (h : (reciveImpl H s r data).AllReturned) :
    (reciveImpl H s r data).frames
        = (framing.scan (r.storeData data).buffer).items.map (·.2)
      ∧ (reciveImpl H s r data).receiver
        = ⟨(r.storeData data).state, framing.leftover (r.storeData data).buffer⟩
      ∧ (reciveImpl H s r data).checksumError
        = (framing.scan (r.storeData data).buffer).broken := by
  have hall : ∀ d ∈ (handOver H (r.storeData data).buffer s
      (framing.scan (r.storeData data).buffer).items).2.2, d.outcome = .returned () := by
    rw [← reciveImpl_dispatched]
    exact h
  obtain ⟨h1, h2⟩ := handOver_returned (r.storeData data).buffer
    (framing.scan (r.storeData data).buffer).items s hall
  rw [reciveImpl_eq, received, h1]
  simp [Reception.frames, h2]

/-- Calls one after the other find what one scan of everything un-stuffed finds, if the buffer
they start from holds no frame and no handler fails. -/
theorem reciveAll_returned : ∀ (chunks : List (List UInt8)) (s : σ) (r : Receiver),
    (reciveAll H s r chunks).AllReturned →
    (framing.scan r.buffer).items = [] → (framing.scan r.buffer).used = 0 →
      (reciveAll H s r chunks).frames
          = (framing.scan (r.storeData chunks.flatten).buffer).items.map (·.2)
        ∧ (reciveAll H s r chunks).receiver = ⟨(r.storeData chunks.flatten).state,
            framing.leftover (r.storeData chunks.flatten).buffer⟩
        ∧ ((framing.scan r.buffer).broken || (reciveAll H s r chunks).checksumError)
          = (framing.scan (r.storeData chunks.flatten).buffer).broken
  | [], s, r, _, h1, h2 => by
    simp [reciveAll, Reception.frames, Receiver.storeData, Scan.Scanner.leftover, h1, h2]
  | chunk :: chunks, s, r, h, h1, h2 => by
    simp only [reciveAll, Reception.AllReturned, List.forall_mem_append] at h
    obtain ⟨a1, a2, a3⟩ := reciveImpl_returned h.1
    set a := reciveImpl H s r chunk with ha
    set buf := (r.storeData chunk).buffer
    have hleft := framing.scan_leftover buf
    obtain ⟨b1, b2, b3⟩ := reciveAll_returned chunks a.state a.receiver h.2
      (by simp [a2, hleft]) (by simp [a2, hleft])
    obtain ⟨st, more, e⟩ := Receiver.exists_storeData (r.storeData chunk).state chunks.flatten
    have e1 : r.storeData (chunk :: chunks).flatten = ⟨st, buf ++ more⟩ := by
      rw [List.flatten_cons, Receiver.storeData_append]
      exact e buf
    have e2 : a.receiver.storeData chunks.flatten = ⟨st, framing.leftover buf ++ more⟩ := by
      rw [a2, e]
    have hbuf : (framing.scan a.receiver.buffer).broken = (framing.scan buf).broken := by
      rw [a2, hleft]
    have hbr : (framing.scan r.buffer).broken = true → (framing.scan buf).broken = true := by
      intro hb
      obtain ⟨ext, hext⟩ := Receiver.storeData_buffer_prefix r chunk
      have := framing.scan_leftover_of_broken r.buffer ext hb
      rw [Scan.Scanner.leftover, h2, List.drop_zero, hext] at this
      rw [this]
    have hsc := framing.scan_append buf more
    rw [e2] at b1 b2 b3
    rw [hbuf] at b3
    rw [e1]
    simp only [hsc, Scan.Result.andThen]
    refine ⟨?_, ?_, ?_⟩
    · simp only [reciveAll, Reception.frames, List.map_append] at a1 b1 ⊢
      rw [← ha, a1, b1]
      simp [Function.comp_def]
    · simp only [reciveAll, ← ha, b2]
      rw [framing.leftover_append buf more]
    · simp only [reciveAll, ← ha, a3, ← b3]
      cases h : (framing.scan r.buffer).broken
      · simp
      · simp [hbr h]

/-- A connection that starts with nothing. -/
theorem reciveAll_eq {s : σ} {chunks : List (List UInt8)}
    (h : (reciveAll H s {} chunks).AllReturned) :
    (reciveAll H s {} chunks).frames
        = (framing.scan (({} : Receiver).storeData chunks.flatten).buffer).items.map (·.2)
      ∧ (reciveAll H s {} chunks).receiver = ⟨(({} : Receiver).storeData chunks.flatten).state,
          framing.leftover (({} : Receiver).storeData chunks.flatten).buffer⟩
      ∧ (reciveAll H s {} chunks).checksumError
        = (framing.scan (({} : Receiver).storeData chunks.flatten).buffer).broken := by
  have h := reciveAll_returned chunks s {} h
  simpa [scan_nil] using h

theorem reciveAll_append (more : List (List UInt8)) : ∀ (chunks : List (List UInt8)) (s : σ)
    (r : Receiver), (reciveAll H s r (chunks ++ more)).frames = (reciveAll H s r chunks).frames
      ++ (reciveAll H (reciveAll H s r chunks).state (reciveAll H s r chunks).receiver more).frames
  | [], _, _ => rfl
  | chunk :: chunks, s, r => by
    have ih := reciveAll_append more chunks (reciveImpl H s r chunk).state
      (reciveImpl H s r chunk).receiver
    simp only [Reception.frames] at ih
    simp only [List.cons_append, reciveAll, Reception.frames, List.map_append, ih,
      List.append_assoc]

/-- A buffer that begins with a frame whose checksum is wrong stays as it is, whatever comes. -/
theorem reciveAll_of_broken : ∀ (more : List (List UInt8)) (s : σ) (r : Receiver),
    (∀ ys, framing.scan (r.buffer ++ ys) = ⟨[], 0, true⟩) → (reciveAll H s r more).frames = []
  | [], _, _, _ => rfl
  | chunk :: more, s, r, h => by
    obtain ⟨ext, hext⟩ := Receiver.storeData_buffer_prefix r chunk
    have hscan : framing.scan (r.storeData chunk).buffer = ⟨[], 0, true⟩ := hext ▸ h ext
    have hnone : (reciveImpl H s r chunk).dispatched = [] := by
      rw [reciveImpl_dispatched, hscan]
      rfl
    have hkept : (reciveImpl H s r chunk).receiver.buffer = r.buffer ++ ext := by
      have hall : (reciveImpl H s r chunk).AllReturned := by rw [Reception.AllReturned, hnone]; simp
      obtain ⟨-, hreceiver, -⟩ := reciveImpl_returned hall
      rw [hreceiver, Scan.Scanner.leftover, hscan]
      exact hext.symm
    have ih := reciveAll_of_broken more (reciveImpl H s r chunk).state
      (reciveImpl H s r chunk).receiver fun ys => by
        rw [hkept, List.append_assoc]
        exact h _
    simp only [Reception.frames] at ih
    simp only [reciveAll, Reception.frames, hnone, List.nil_append, ih]

/-- While no handler throws, what a fresh connection receives does not depend on how the stream is
cut; and nothing is dispatched after a frame whose checksum is wrong. -/
theorem reciveAll_flatten (s : σ) (chunks more : List (List UInt8))
    (hcut : (reciveAll H s {} chunks).AllReturned)
    (hone : (reciveImpl H s {} chunks.flatten).AllReturned) :
    ((reciveAll H s {} chunks).frames = (reciveImpl H s {} chunks.flatten).frames
      ∧ (reciveAll H s {} chunks).receiver = (reciveImpl H s {} chunks.flatten).receiver
      ∧ (reciveAll H s {} chunks).checksumError
        = (reciveImpl H s {} chunks.flatten).checksumError)
    ∧ ((reciveAll H s {} chunks).checksumError = true →
      (reciveAll H s {} (chunks ++ more)).frames = (reciveAll H s {} chunks).frames) := by
  obtain ⟨a1, a2, a3⟩ := reciveAll_eq hcut
  obtain ⟨b1, b2, b3⟩ := reciveImpl_returned hone
  refine ⟨⟨by rw [a1, b1], by rw [a2, b2], by rw [a3, b3]⟩, fun h => ?_⟩
  rw [a3] at h
  rw [reciveAll_append, reciveAll_of_broken more, List.append_nil]
  intro ys
  rw [a2]
  exact framing.scan_leftover_of_broken _ ys h

/-- A server without controllers, and a connection just accepted. -/
def newWorld : World := { counterer := fun _ => none, backend := ⟨10, [], []⟩ }

/-- An identification and an archive frame with a delimiter in its data, the first cut in its length
and the second inside of the escape. -/
def cutInEscape : List (List UInt8) :=
  [[0xC0, 0x80, 0x08], [0x00, 0x07, 0x00, 0x00, 0x00, 0x01, 0x00, 0x00, 0x00, 0xA6, 0x42, 0xC0],
    [0x86, 0x0E, 0x00, 0xDB], [0xDC, 0x00, 0x00, 0x00, 0x00, 0x00, 0x00, 0x00, 0x00, 0x03, 0x00,
      0x0A, 0x01, 0x05, 0xB2, 0xD0]]

/-- With a frame behind them whose checksum is wrong. -/
def goodThenBad : List (List UInt8) := cutInEscape ++ [[0xC0, 0x88, 0x00, 0x00, 0x00, 0x00]]

theorem reciveAll_flatten_bad :
    ((reciveAll (transportProtocol eventOnly) newWorld {} goodThenBad).frames
        = (reciveImpl (transportProtocol eventOnly) newWorld {} goodThenBad.flatten).frames
      ∧ (reciveAll (transportProtocol eventOnly) newWorld {} goodThenBad).frames.length = 2)
    ∧ (reciveAll (transportProtocol eventOnly) newWorld {}
        (goodThenBad ++ [[0xC0, 0x88, 0x00, 0x00, 0x5E, 0x67]])).frames
      = (reciveAll (transportProtocol eventOnly) newWorld {} goodThenBad).frames := by
  obtain ⟨⟨hframes, -⟩, hfinal⟩ := reciveAll_flatten (H := transportProtocol eventOnly) newWorld
    goodThenBad [[0xC0, 0x88, 0x00, 0x00, 0x5E, 0x67]] (by decide +kernel) (by decide +kernel)
  exact ⟨⟨hframes, by decide +kernel⟩, hfinal (by decide +kernel)⟩

def silent : Handlers Unit := ⟨fun _ _ => (.returned (), ()), id⟩

theorem storeData_stuffed (buf xs : List UInt8) :
    (⟨.normal, buf⟩ : Receiver).storeData (0xC0 :: Stuffing.encode stuffCode xs)
      = ⟨.normal, buf ++ 0xC0 :: xs⟩ := by
  have h : (⟨.normal, buf⟩ : Receiver).storeByte 0xC0 = ⟨.normal, buf ++ [0xC0]⟩ := rfl
  rw [Receiver.storeData, List.foldl_cons, h]
  change (⟨.normal, buf ++ [0xC0]⟩ : Receiver).storeData _ = _
  rw [Receiver.storeData_eq]
  simp only [StuffState.pending, Stuffing.decode_encode, List.append_assoc, List.singleton_append]
  rfl

theorem storeData_wire (m : TransportMessage) (buf : List UInt8) :
    (⟨.normal, buf⟩ : Receiver).storeData m.wire = ⟨.normal, buf ++ m.frame⟩ := by
  rw [TransportMessage.wire, stuffBytes_eq, List.singleton_append, storeData_stuffed]
  rfl

theorem storeData_wires : ∀ (msgs : List TransportMessage) (buf : List UInt8),
    (⟨.normal, buf⟩ : Receiver).storeData (msgs.flatMap (·.wire))
      = ⟨.normal, buf ++ msgs.flatMap (·.frame)⟩
  | [], buf => by simp [Receiver.storeData]
  | m :: msgs, buf => by
    rw [List.flatMap_cons, Receiver.storeData_append, storeData_wire, storeData_wires msgs]
    simp

theorem nextFrame_bytes (m : TransportMessage) (h l : UInt8) (rest : List UInt8) :
    nextFrame (m.bytes ++ h :: l :: rest)
      = if [h, l] = m.trailer then .item [] m.frame rest else .bad := by
  have hf : fromStart (m.bytes ++ h :: l :: rest) = m.bytes ++ h :: l :: rest := by
    simp [bytes_append, fromStart]
  have hb : beforeStart (m.bytes ++ h :: l :: rest) = [] := by
    simp [bytes_append, beforeStart]
  have hs : m.bytes ++ h :: l :: rest = (m.bytes ++ [h, l]) ++ rest := by simp
  have hl : (m.bytes ++ [h, l]).length = 4 + m.data.length + 2 := by simp
  rw [nextFrame_eq (by rw [hf, getFullLength_bytes]; simp), hf, hb, getFullLength_bytes]
  by_cases ht : [h, l] = m.trailer
  · rw [(checkCrc_bytes m rest h l).2 ht, if_pos ht, hs, ← hl, List.take_left, List.drop_left, ht]
    rfl
  · rw [if_neg ht, if_pos]
    simpa using mt (checkCrc_bytes m rest h l).1 ht

theorem nextFrame_frame (m : TransportMessage) (rest : List UInt8) :
    nextFrame (m.frame ++ rest) = .item [] m.frame rest := by
  rw [frame_append]
  exact (nextFrame_bytes m _ _ rest).trans (if_pos rfl)

theorem scan_frames : ∀ msgs : List TransportMessage,
    (framing.scan (msgs.flatMap (·.frame))).items.map (·.2) = msgs.map (·.frame)
      ∧ framing.leftover (msgs.flatMap (·.frame)) = []
      ∧ (framing.scan (msgs.flatMap (·.frame))).broken = false
  | [] => by simp [scan_nil, Scan.Scanner.leftover]
  | m :: msgs => by
    obtain ⟨ih1, ih2, ih3⟩ := scan_frames msgs
    have h : framing.next ((m :: msgs).flatMap (·.frame))
        = .item [] m.frame (msgs.flatMap (·.frame)) := nextFrame_frame m _
    rw [framing.leftover_item h, framing.scan_item h]
    simp only [Scan.Result.andThen, List.map_append, List.map_map, List.map_cons, ← ih1]
    exact ⟨rfl, ih2, ih3⟩

/-- What was dispatched are the messages: the frames pass the checksum and have their fields. -/
def Reception.Decodes (a : Reception σ) (msgs : List TransportMessage) : Prop :=
  (∀ frame ∈ a.frames, checkCrc frame = true)
    ∧ a.frames.map (fun frame => (cmd frame, dataLen frame, getData frame))
      = msgs.map (fun m => (m.cmd, m.data.length, m.data))
    ∧ a.checksumError = false

theorem decodes_of_frames {a : Reception σ} {msgs : List TransportMessage}
    (h : a.frames = msgs.map (·.frame)) (hc : a.checksumError = false) : a.Decodes msgs := by
  refine ⟨?_, ?_, hc⟩
  · rw [h]
    simp only [List.forall_mem_map]
    intro m _
    simpa using checkCrc_frame m []
  · rw [h, List.map_map]
    refine List.map_congr_left fun m _ => ?_
    simp [TransportMessage.frame]

/-- While no handler throws, messages on the wire are received as they were encoded, however the
stream is cut. -/
theorem reciveAll_wire (s : σ) (msgs : List TransportMessage) (chunks : List (List UInt8))
    (h : chunks.flatten = msgs.flatMap (·.wire)) (hall : (reciveAll H s {} chunks).AllReturned) :
    (reciveAll H s {} chunks).Decodes msgs
      ∧ (reciveAll H s {} chunks).receiver = ⟨.normal, []⟩ := by
  obtain ⟨a1, a2, a3⟩ := reciveAll_eq hall
  obtain ⟨b1, b2, b3⟩ := scan_frames msgs
  have hd : ({} : Receiver).storeData chunks.flatten = ⟨.normal, msgs.flatMap (·.frame)⟩ := by
    rw [h]
    exact storeData_wires msgs []
  rw [hd] at a1 a2 a3
  refine ⟨decodes_of_frames (a1.trans b1) (a3.trans b3), ?_⟩
  rw [a2, b2]

theorem reciveAll_wire_two :
    (reciveAll (transportProtocol eventOnly) newWorld {} cutInEscape).Decodes
        [⟨0x80, [7, 0, 0, 0, 1, 0, 0, 0], by decide⟩,
          ⟨0x86, [0xC0, 0, 0, 0, 0, 0, 0, 0, 0, 3, 0, 0x0A, 1, 5], by decide⟩]
      ∧ (reciveAll (transportProtocol eventOnly) newWorld {} cutInEscape).receiver
        = ⟨.normal, []⟩ :=
  reciveAll_wire newWorld [⟨0x80, [7, 0, 0, 0, 1, 0, 0, 0], by decide⟩,
    ⟨0x86, [0xC0, 0, 0, 0, 0, 0, 0, 0, 0, 3, 0, 0x0A, 1, 5], by decide⟩] cutInEscape
    (by decide +kernel) (by decide +kernel)

theorem send_eq (m : TransportMessage) :
    send m.bytes = 0xC0 :: Stuffing.encode stuffCode (m.bytes.tail ++ m.trailer.reverse) := by
  have h : m.trailer.reverse
      = [(crc16 m.bytes.tail &&& 0xFF).toUInt8, (crc16 m.bytes.tail >>> 8).toUInt8] := by
    simp only [TransportMessage.trailer, List.reverse_cons, List.reverse_nil, List.nil_append,
      List.singleton_append, List.cons.injEq, and_true]
    refine UInt8.toNat_inj.1 ?_
    simp only [UInt16.toNat_toUInt8, UInt16.toNat_and]
    rw [show (0xFF : UInt16).toNat = 2 ^ 8 - 1 from rfl, Nat.and_two_pow_sub_one_eq_mod]
    exact (Nat.mod_mod _ _).symm
  rw [h, TransportMessage.bytes, List.cons_append, send_cons]
  rfl

theorem reciveImpl_one (H : Handlers σ) (s : σ) (data : List UInt8) (m : TransportMessage)
    (h : ({} : Receiver).storeData data = ⟨.normal, m.frame⟩) :
    (reciveImpl H s {} data).frames = [m.frame]
      ∧ (reciveImpl H s {} data).checksumError = false := by
  have hn : framing.next m.frame = .item [] m.frame [] := by
    have h := nextFrame_frame m []
    rwa [List.append_nil] at h
  rw [reciveImpl_eq, h, framing.scan_item hn, scan_nil]
  simp only [Scan.Result.andThen, List.length_nil, Nat.zero_add, List.map_nil, List.append_nil,
    handOver, List.drop_zero]
  rcases H.processMessage s m.frame with ⟨_ | _ | _, _⟩ <;> exact ⟨rfl, rfl⟩

theorem reciveImpl_bad (H : Handlers σ) (s : σ) (data buf : List UInt8)
    (h : ({} : Receiver).storeData data = ⟨.normal, buf⟩) (hn : nextFrame buf = .bad) :
    (reciveImpl H s {} data).frames = [] := by
  rw [reciveImpl_eq, h, framing.scan_bad hn]
  rfl

/-- What the server sends would be received as it was meant only if the two bytes of the checksum
are the same: they are sent low byte first and expected high byte first. -/
theorem reciveImpl_send_iff (H : Handlers σ) (s : σ) (m : TransportMessage) :
    (reciveImpl H s {} (send m.bytes)).Decodes [m]
      ↔ (crc16 m.bytes.tail >>> 8).toUInt8 = (crc16 m.bytes.tail).toUInt8 := by
  have hs : ({} : Receiver).storeData (send m.bytes) = ⟨.normal, m.bytes ++ m.trailer.reverse⟩ := by
    rw [send_eq]
    exact storeData_stuffed [] _
  constructor
  · intro h
    by_contra hne
    have hbad : nextFrame (m.bytes ++ m.trailer.reverse) = .bad := by
      refine (nextFrame_bytes m _ _ []).trans (if_neg ?_)
      simp only [TransportMessage.trailer, List.cons.injEq, and_true, not_and]
      exact fun e => absurd e.symm hne
    have := h.2.1
    rw [reciveImpl_bad H s _ _ hs hbad] at this
    simp at this
  · intro he
    have hr : m.trailer.reverse = m.trailer := by
      simp [TransportMessage.trailer, he]
    rw [hr] at hs
    obtain ⟨h1, h2⟩ := reciveImpl_one H s _ m hs
    exact decodes_of_frames h1 h2

theorem not_decodes_dataRequest :
    ¬ (reciveImpl silent () {} (send (Request.dataRequest 0).message.bytes)).Decodes
      [(Request.dataRequest 0).message] := by
  intro h
  have hd : (reciveImpl silent () {} (send (Request.dataRequest 0).message.bytes)).frames = [] := by
    decide +kernel
  have := h.2.1
  rw [hd] at this
  simp at this

end Communicator
