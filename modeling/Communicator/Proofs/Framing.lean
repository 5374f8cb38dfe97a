import Communicator.Receive
import Communicator.Lib.Stuffing
import Communicator.Lib.Scan

/-!
# The framing loop as a scan

The bytes of a connection are un-stuffed by an escape code (`storeData_eq`) and the loop of
`recive_impl` hands over the items a scan of the buffer finds, up to the first whose handler does
not return (`reciveImpl_eq`).
-/

namespace Communicator

open TransportHeader

def stuffCode : Stuffing.Code UInt8 where
  esc := 0xDB
  standIn b := if b = 0xC0 then some 0xDC else if b = 0xDB then some 0xDD else none
  original b := if b = 0xDC then some 0xC0 else if b = 0xDD then some 0xDB else none
  original_standIn := by
    intro a c h
    split_ifs at h with h1 h2 <;> simp only [Option.some.injEq] at h
    · subst h h1
      rfl
    · subst h h2
      rfl
  standIn_esc := by decide

theorem stuffByteToBuffer_eq (byte : UInt8) (buffer : List UInt8) :
    stuffByteToBuffer byte buffer = buffer ++ Stuffing.encodeOne stuffCode byte := by
  unfold stuffByteToBuffer Stuffing.encodeOne stuffCode
  split_ifs <;> simp_all

theorem stuffBytes_eq : ∀ data buffer : List UInt8,
    stuffBytes data buffer = buffer ++ Stuffing.encode stuffCode data
  | [], buffer => by simp [stuffBytes, Stuffing.encode]
  | byte :: data, buffer => by
    have ih := stuffBytes_eq data (stuffByteToBuffer byte buffer)
    simp only [stuffBytes, List.foldl_cons] at ih ⊢
    rw [ih, stuffByteToBuffer_eq]
    simp [Stuffing.encode]

theorem delimiter_not_mem_encode (data : List UInt8) : 0xC0 ∉ Stuffing.encode stuffCode data := by
  refine Stuffing.not_mem_encode stuffCode rfl (by simp [stuffCode]) (fun a => ?_) data
  simp only [stuffCode]
  split_ifs <;> simp

/-- `send` stuffs the message behind its first byte and the checksum, low byte first. -/
theorem send_cons (first : UInt8) (data : List UInt8) :
    send (first :: data) = first :: Stuffing.encode stuffCode
      (data ++ [(crc16 data &&& 0xFF).toUInt8, (crc16 data >>> 8).toUInt8]) := by
  rw [send]
  simp [stuffByteToBuffer_eq, stuffBytes_eq, Stuffing.encode]

/-- `state_` as the bit the decoder carries. -/
def StuffState.pending : StuffState → Bool
  | .normal => false
  | .possibleStuff => true

def StuffState.ofPending (b : Bool) : StuffState := if b then .possibleStuff else .normal

@[simp]
theorem StuffState.ofPending_pending (s : StuffState) : .ofPending s.pending = s := by
  cases s <;> rfl

@[simp]
theorem StuffState.pending_ofPending (b : Bool) : (StuffState.ofPending b).pending = b := by
  cases b <;> rfl

namespace Receiver

theorem storeByte_eq (r : Receiver) (byte : UInt8) :
    r.storeByte byte
      = ⟨.ofPending (Stuffing.decodeStep stuffCode r.state.pending byte).2,
          r.buffer ++ (Stuffing.decodeStep stuffCode r.state.pending byte).1⟩ := by
  rcases r with ⟨s, buf⟩
  cases s with
  | normal =>
    by_cases h : byte = 0xDB <;>
      simp [storeByte, Stuffing.decodeStep, StuffState.pending, StuffState.ofPending, stuffCode, h]
  | possibleStuff =>
    by_cases h : byte = 0xDC
    · simp [storeByte, Stuffing.decodeStep, StuffState.pending, StuffState.ofPending, stuffCode, h]
    by_cases h' : byte = 0xDD <;>
      simp [storeByte, Stuffing.decodeStep, StuffState.pending, StuffState.ofPending, stuffCode, h,
        h']

theorem storeData_eq : ∀ (data : List UInt8) (r : Receiver),
    r.storeData data
      = ⟨.ofPending (Stuffing.decode stuffCode r.state.pending data).2,
          r.buffer ++ (Stuffing.decode stuffCode r.state.pending data).1⟩
  | [], r => by simp [storeData]
  | byte :: data, r => by
    have ih := storeData_eq data (r.storeByte byte)
    simp only [storeData, List.foldl_cons] at ih ⊢
    rw [ih, storeByte_eq]
    simp [Stuffing.decode]

theorem exists_storeData (st : StuffState) (data : List UInt8) :
    ∃ st' more, ∀ buf, (⟨st, buf⟩ : Receiver).storeData data = ⟨st', buf ++ more⟩ :=
  ⟨.ofPending (Stuffing.decode stuffCode st.pending data).2,
    (Stuffing.decode stuffCode st.pending data).1, fun buf => storeData_eq data ⟨st, buf⟩⟩

theorem storeData_append (r : Receiver) (xs ys : List UInt8) :
    r.storeData (xs ++ ys) = (r.storeData xs).storeData ys := by
  simp [storeData, List.foldl_append]

theorem foldl_storeData : ∀ (chunks : List (List UInt8)) (r : Receiver),
    chunks.foldl storeData r = r.storeData chunks.flatten
  | [], _ => rfl
  | chunk :: chunks, r => by
    rw [List.foldl_cons, foldl_storeData chunks, List.flatten_cons, storeData_append]

theorem storeData_buffer_prefix (r : Receiver) (data : List UInt8) :
    r.buffer <+: (r.storeData data).buffer := by
  simp [storeData_eq]

end Receiver

/-- The bytes before the first `0xC0`, and those from it on. -/
def beforeStart (buf : List UInt8) : List UInt8 := buf.takeWhile (· != 0xC0)

def fromStart (buf : List UInt8) : List UInt8 := buf.dropWhile (· != 0xC0)

theorem fromStart_append {xs : List UInt8} (ys : List UInt8) (h : fromStart xs ≠ []) :
    beforeStart (xs ++ ys) = beforeStart xs ∧ fromStart (xs ++ ys) = fromStart xs ++ ys := by
  induction xs with
  | nil => exact absurd rfl h
  | cons x xs ih =>
    by_cases hx : x = 0xC0
    · simp [beforeStart, fromStart, hx]
    · have h' : fromStart xs ≠ [] := by simpa [fromStart, hx] using h
      obtain ⟨h1, h2⟩ := ih h'
      simp only [beforeStart, fromStart] at h1 h2 ⊢
      simp [hx, h1, h2]

def nextFrame (buf : List UInt8) : Scan.Hit UInt8 :=
  if (fromStart buf).length < TransportHeader.sizeof then .more
  else if (fromStart buf).length < getFullLength (fromStart buf) then .more
  else if !checkCrc (fromStart buf) then .bad
  else .item (beforeStart buf) ((fromStart buf).take (getFullLength (fromStart buf)))
    ((fromStart buf).drop (getFullLength (fromStart buf)))

theorem nextFrame_ne_more {buf : List UInt8} (h : nextFrame buf ≠ .more) :
    getFullLength (fromStart buf) ≤ (fromStart buf).length := by
  by_contra hn
  apply h
  unfold nextFrame
  split_ifs <;> first | rfl | omega

theorem nextFrame_append {buf : List UInt8} (ys : List UInt8)
    (h : getFullLength (fromStart buf) ≤ (fromStart buf).length) :
    nextFrame (buf ++ ys)
      = if !checkCrc (fromStart buf) then .bad
        else .item (beforeStart buf) ((fromStart buf).take (getFullLength (fromStart buf)))
          ((fromStart buf).drop (getFullLength (fromStart buf)) ++ ys) := by
  have h4 := (four_le_getFullLength (fromStart buf)).trans h
  have hne : fromStart buf ≠ [] := by
    rintro hn
    simp [hn, TransportHeader.sizeof] at h4
  obtain ⟨hb, hf⟩ := fromStart_append ys hne
  rw [nextFrame, hb, hf, getFullLength_append h4, checkCrc_append h, List.length_append,
    if_neg (by omega), if_neg (by omega), List.take_append_of_le_length h,
    List.drop_append_of_le_length h]

theorem nextFrame_eq {buf : List UInt8}
    (h : getFullLength (fromStart buf) ≤ (fromStart buf).length) :
    nextFrame buf
      = if !checkCrc (fromStart buf) then .bad
        else .item (beforeStart buf) ((fromStart buf).take (getFullLength (fromStart buf)))
          ((fromStart buf).drop (getFullLength (fromStart buf))) := by
  simpa using nextFrame_append [] h

/-- What the search finds is a frame whose checksum is right, at the first `0xC0`. -/
theorem nextFrame_found {buf g b r : List UInt8} (h : nextFrame buf = .item g b r) :
    getFullLength (fromStart buf) ≤ (fromStart buf).length ∧ checkCrc (fromStart buf) = true
      ∧ g = beforeStart buf ∧ b = (fromStart buf).take (getFullLength (fromStart buf))
      ∧ r = (fromStart buf).drop (getFullLength (fromStart buf)) := by
  have hlen : getFullLength (fromStart buf) ≤ (fromStart buf).length :=
    nextFrame_ne_more (by simp [h])
  rw [nextFrame_eq hlen] at h
  split_ifs at h with hcrc
  simp only [Scan.Hit.item.injEq] at h
  obtain ⟨rfl, rfl, rfl⟩ := h
  exact ⟨hlen, by simpa using hcrc, rfl, rfl, rfl⟩

theorem nextFrame_item {buf g b r : List UInt8} (h : nextFrame buf = .item g b r) :
    buf = g ++ b ++ r ∧ b ≠ [] := by
  obtain ⟨hlen, -, rfl, rfl, rfl⟩ := nextFrame_found h
  refine ⟨?_, fun hb => ?_⟩
  · rw [List.append_assoc, List.take_append_drop]
    exact List.takeWhile_append_dropWhile.symm
  · have := congrArg List.length hb
    have := four_le_getFullLength (fromStart buf)
    simp only [TransportHeader.sizeof, List.length_take, List.length_nil] at *
    omega

theorem nextFrame_item_append {buf g b r : List UInt8} (ys : List UInt8)
    (h : nextFrame buf = .item g b r) : nextFrame (buf ++ ys) = .item g b (r ++ ys) := by
  obtain ⟨hlen, hcrc, rfl, rfl, rfl⟩ := nextFrame_found h
  rw [nextFrame_append ys hlen, hcrc]
  rfl

theorem nextFrame_bad_append {buf : List UInt8} (ys : List UInt8) (h : nextFrame buf = .bad) :
    nextFrame (buf ++ ys) = .bad := by
  have hlen : getFullLength (fromStart buf) ≤ (fromStart buf).length :=
    nextFrame_ne_more (by simp [h])
  rw [nextFrame_eq hlen] at h
  rw [nextFrame_append ys hlen]
  split_ifs at h ⊢
  rfl

/-- The framing of `recive_impl`: what it finds does not change as more is received. -/
def framing : Scan.Scanner UInt8 where
  next := nextFrame
  next_item := nextFrame_item
  item_append := nextFrame_item_append
  bad_append := nextFrame_bad_append

theorem scan_nil : framing.scan [] = ⟨[], 0, false⟩ := framing.scan_more rfl

section Loop

variable {σ : Type} (H : Handlers σ)

/-- A turn of the loop does what the scanner finds. -/
theorem reciveLoop_succ (r : Receiver) (fuel : ℕ) (s : σ) (start fin : List UInt8)
    (log : List Dispatch) :
    reciveLoop H r (fuel + 1) s start fin log
      = match nextFrame start with
        | .more => ⟨.returned (), s, { r with buffer := fin }, log, false⟩
        | .bad => ⟨.returned (), H.stop s, { r with buffer := fin }, log, true⟩
        | .item _ frame next =>
          match (H.processMessage s (frame ++ next)).1 with
          | .returned u =>
            reciveLoop H r fuel (H.processMessage s (frame ++ next)).2 next next
              (log ++ [⟨r.buffer.length - (frame ++ next).length, frame, .returned u⟩])
          | o => ⟨o, (H.processMessage s (frame ++ next)).2, r,
              log ++ [⟨r.buffer.length - (frame ++ next).length, frame, o⟩], false⟩ := by
  rw [reciveLoop, nextFrame]
  simp only [show start.dropWhile (· != 0xC0) = fromStart start from rfl]
  by_cases h0 : (fromStart start).isEmpty
  · simp [List.isEmpty_iff.1 h0, TransportHeader.sizeof]
  rw [if_neg h0]
  by_cases h1 : (fromStart start).length < TransportHeader.sizeof
  · simp only [h1, if_true]
  by_cases h2 : (fromStart start).length < getFullLength (fromStart start)
  · simp only [h1, h2, if_true, if_false]
  by_cases h3 : checkCrc (fromStart start) = true
  · simp only [h1, h2, h3, Bool.not_true, Bool.false_eq_true, if_false, List.take_append_drop]
    rcases h : H.processMessage s (fromStart start) with ⟨o, s'⟩
    cases o <;> rfl
  · simp only [h1, h2, h3, Bool.not_false, if_true, if_false]

/-- Handing over frames of a buffer until a handler does not return. -/
def handOver (buf : List UInt8) : σ → List (ℕ × List UInt8) → Outcome Unit × σ × List Dispatch
  | s, [] => (.returned (), s, [])
  | s, (offset, frame) :: rest =>
    match H.processMessage s (buf.drop offset) with
    | (.returned u, s') =>
      ((handOver buf s' rest).1, (handOver buf s' rest).2.1,
        ⟨offset, frame, .returned u⟩ :: (handOver buf s' rest).2.2)
    | (o, s') => (o, s', [⟨offset, frame, o⟩])

/-- What `recive_impl` leaves, given the scan of its buffer and how the frames were handed over. -/
def received (r : Receiver) (log : List Dispatch) (leftover : List UInt8) (broken : Bool)
    (t : Outcome Unit × σ × List Dispatch) : Reception σ :=
  match t.1 with
  | .returned _ => ⟨.returned (), if broken then H.stop t.2.1 else t.2.1,
      { r with buffer := leftover }, log ++ t.2.2, broken⟩
  | o => ⟨o, t.2.1, r, log ++ t.2.2, false⟩

theorem reciveLoop_eq (r : Receiver) (start : List UInt8) :
    ∀ (pre : List UInt8) (fuel : ℕ) (s : σ) (log : List Dispatch), r.buffer = pre ++ start →
      start.length < fuel →
      reciveLoop H r fuel s start start log
        = received H r log (framing.leftover start) (framing.scan start).broken
            (handOver H r.buffer s
              ((framing.scan start).items.map fun i => (pre.length + i.1, i.2))) := by
  induction start using framing.scan_induction with
  | more start h =>
    rintro pre (_ | fuel) s log hr hf
    · omega
    rw [reciveLoop_succ, show nextFrame start = .more from h]
    simp [Scan.Scanner.leftover, framing.scan_more h, handOver, received]
  | bad start h =>
    rintro pre (_ | fuel) s log hr hf
    · omega
    rw [reciveLoop_succ, show nextFrame start = .bad from h]
    simp [Scan.Scanner.leftover, framing.scan_bad h, handOver, received]
  | item start g frame next h ih =>
    rintro pre (_ | fuel) s log hr hf
    · omega
    have hlen := framing.next_item_length h
    obtain ⟨hs, -⟩ := framing.next_item h
    have hpre : r.buffer = (pre ++ g ++ frame) ++ next := by
      rw [hr, hs]
      simp
    have hoff : r.buffer.length - (frame ++ next).length = pre.length + g.length := by
      rw [hpre]
      simp only [List.length_append]
      omega
    have hdrop : r.buffer.drop (pre.length + g.length) = frame ++ next := by
      rw [hpre, ← List.length_append, List.append_assoc, List.drop_left]
    rw [reciveLoop_succ, show nextFrame start = .item g frame next from h, framing.leftover_item h,
      framing.scan_item h]
    simp only [Scan.Result.andThen, List.singleton_append, List.map_cons, List.map_map, handOver,
      hdrop, hoff]
    rcases hp : H.processMessage s (frame ++ next) with ⟨_ | e | _, s'⟩
    · simp only []
      rw [ih (pre ++ g ++ frame) fuel s' _ hpre (by omega)]
      simp only [received, List.length_append, Function.comp_def, Nat.add_assoc]
      split <;> simp
    · simp [received]
    · simp [received]

/-- `recive_impl` un-stuffs the data and hands over the frames a scan of the buffer finds. -/
theorem reciveImpl_eq (s : σ) (r : Receiver) (data : List UInt8) :
    reciveImpl H s r data
      = received H (r.storeData data) [] (framing.leftover (r.storeData data).buffer)
          (framing.scan (r.storeData data).buffer).broken
          (handOver H (r.storeData data).buffer s
            (framing.scan (r.storeData data).buffer).items) := by
  rw [reciveImpl, reciveLoop_eq H _ _ [] _ s [] rfl (Nat.lt_succ_self _)]
  simp

theorem reciveImpl_dispatched (s : σ) (r : Receiver) (data : List UInt8) :
    (reciveImpl H s r data).dispatched = (handOver H (r.storeData data).buffer s
      (framing.scan (r.storeData data).buffer).items).2.2 := by
  rw [reciveImpl_eq, received]
  cases (handOver H (r.storeData data).buffer s
    (framing.scan (r.storeData data).buffer).items).1 <;> rfl

theorem reciveImpl_outcome (s : σ) (r : Receiver) (data : List UInt8) :
    (reciveImpl H s r data).outcome = (handOver H (r.storeData data).buffer s
      (framing.scan (r.storeData data).buffer).items).1 := by
  rw [reciveImpl_eq, received]
  split <;> simp_all

end Loop

end Communicator
