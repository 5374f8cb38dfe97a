import Communicator.Proofs.Redelivery

/-!
# Noise before a frame

The search for a delimiter runs over bytes that are un-stuffed already, where an escaped `0xC0`
looks like a raw one. So noise without a delimiter is passed over (`nextFrame_noise`) unless it
escapes one: then the frame is looked for from there, and the real one is not found where it is.
-/

namespace Communicator

open TransportHeader

theorem fromStart_noise {g : List UInt8} (xs : List UInt8) (h : 0xC0 ∉ g) :
    beforeStart (g ++ xs) = g ++ beforeStart xs ∧ fromStart (g ++ xs) = fromStart xs := by
  induction g with
  | nil => exact ⟨rfl, rfl⟩
  | cons x g ih =>
    simp only [List.mem_cons, not_or] at h
    obtain ⟨h1, h2⟩ := ih h.2
    simp only [beforeStart, fromStart] at h1 h2 ⊢
    simp [Ne.symm h.1, h1, h2]

/-- Bytes that are no delimiter are skipped. -/
theorem nextFrame_noise {g xs : List UInt8} (h : 0xC0 ∉ g) {g' b r : List UInt8}
    (hx : nextFrame xs = .item g' b r) : nextFrame (g ++ xs) = .item (g ++ g') b r := by
  obtain ⟨h1, h2⟩ := fromStart_noise xs h
  unfold nextFrame at hx ⊢
  rw [h1, h2]
  split_ifs at hx ⊢
  simp only [Scan.Hit.item.injEq] at hx ⊢
  obtain ⟨rfl, rfl, rfl⟩ := hx
  exact ⟨rfl, rfl, rfl⟩

theorem beforeStart_append_lt {g : List UInt8} (xs : List UInt8) (h : 0xC0 ∈ g) :
    (beforeStart (g ++ xs)).length < g.length := by
  induction g with
  | nil => simp at h
  | cons x g ih =>
    by_cases hx : x = 0xC0
    · simp [beforeStart, hx]
    · have := ih (List.mem_of_ne_of_mem (Ne.symm hx) h)
      simp only [beforeStart, List.cons_append] at this ⊢
      simpa [hx] using this

namespace Receiver

theorem storeByte_grows (r : Receiver) {byte : UInt8}
    (h : byte ≠ 0xDB ∨ r.state = .possibleStuff) :
    r.buffer.length < (r.storeByte byte).buffer.length := by
  rcases r with ⟨_ | _, buf⟩
  · simp [storeByte, h.resolve_right (by simp)]
  · unfold storeByte
    simp only []
    split_ifs <;> simp

/-- Bytes that leave no escape open have added to the buffer. -/
theorem storeData_grows (r : Receiver) {data : List UInt8} (hd : data ≠ [])
    (h : (r.storeData data).state = .normal) :
    r.buffer.length < (r.storeData data).buffer.length := by
  have later : ∀ (r : Receiver) (byte : UInt8) (data : List UInt8),
      byte ≠ 0xDB ∨ r.state = .possibleStuff →
        r.buffer.length < (r.storeData (byte :: data)).buffer.length := by
    intro r byte data hb
    have hle := List.IsPrefix.length_le <| storeData_buffer_prefix (r.storeByte byte) data
    exact (storeByte_grows r hb).trans_le hle
  rcases data with _ | ⟨byte, data⟩
  · exact absurd rfl hd
  by_cases hb : byte ≠ 0xDB ∨ r.state = .possibleStuff
  · exact later r byte data hb
  · obtain ⟨rfl, hs⟩ : byte = 0xDB ∧ r.state = .normal := by
      rcases r with ⟨_ | _, buf⟩ <;> simp_all
    -- the first byte opens an escape, which the next one closes
    have h1 : r.storeByte 0xDB = { r with state := .possibleStuff } := by
      simp [storeByte, hs]
    rcases data with _ | ⟨byte, data⟩
    · change (r.storeByte 0xDB).state = .normal at h
      simp [h1] at h
    · have hlater := later (r.storeByte 0xDB) byte data (.inr (by rw [h1]))
      have hcons : r.storeData (0xDB :: byte :: data)
          = (r.storeByte 0xDB).storeData (byte :: data) := rfl
      rw [hcons]
      rwa [h1] at hlater ⊢

end Receiver

section Calls

variable {σ : Type} (H : Handlers σ) {s : σ} {r : Receiver} {data : List UInt8}

theorem reciveImpl_of_more (h : nextFrame (r.storeData data).buffer = .more) :
    reciveImpl H s r data = ⟨.returned (), s, r.storeData data, [], false⟩ := by
  rw [reciveImpl_eq, Scan.Scanner.leftover, framing.scan_more h]
  rfl

theorem reciveImpl_of_bad (h : nextFrame (r.storeData data).buffer = .bad) :
    (reciveImpl H s r data).checksumError = true := by
  rw [reciveImpl_eq, framing.scan_bad h]
  rfl

theorem reciveImpl_of_item {g b rest : List UInt8}
    (h : nextFrame (r.storeData data).buffer = .item g b rest) :
    ∃ o ds, (reciveImpl H s r data).dispatched = ⟨g.length, b, o⟩ :: ds := by
  rw [reciveImpl_dispatched, framing.scan_item h]
  simp only [Scan.Result.andThen, List.singleton_append, handOver]
  rcases H.processMessage s ((r.storeData data).buffer.drop g.length) with ⟨_ | e | _, s'⟩
  · exact ⟨_, _, rfl⟩
  · exact ⟨_, _, rfl⟩
  · exact ⟨_, _, rfl⟩

/-- With nothing behind it the frame is all a call dispatches. -/
theorem reciveImpl_of_last {g b : List UInt8}
    (h : nextFrame (r.storeData data).buffer = .item g b []) :
    ∃ o, (reciveImpl H s r data).dispatched = [⟨g.length, b, o⟩]
      ∧ (reciveImpl H s r data).checksumError = false := by
  have hs : framing.scan (r.storeData data).buffer
      = ⟨[(g.length, b)], g.length + b.length, false⟩ := by
    rw [framing.scan_item h, scan_nil]
    rfl
  rw [reciveImpl_eq, hs]
  simp only [handOver]
  rcases H.processMessage s ((r.storeData data).buffer.drop g.length) with ⟨_ | e | _, s'⟩
  · exact ⟨_, rfl, rfl⟩
  · exact ⟨_, rfl, rfl⟩
  · exact ⟨_, rfl, rfl⟩

theorem reciveCalls_cons (base : ℕ) (chunk : List UInt8) (chunks : List (List UInt8)) :
    ∃ logs, reciveCalls H s r base (chunk :: chunks)
        = shifted base (reciveImpl H s r chunk).dispatched :: logs
      ∧ (chunks = [] → logs = []) := by
  rcases ho : (reciveImpl H s r chunk).outcome with _ | e | _
  · rw [reciveCalls_returned H ho]
    exact ⟨_, rfl, by rintro rfl; rfl⟩
  · rw [reciveCalls_threw H ho]
    exact ⟨_, rfl, by rintro rfl; rfl⟩
  · rw [reciveCalls_undefined H ho]
    exact ⟨[], rfl, fun _ => rfl⟩

/-- A call that finds nothing yet leaves all it received to the next. -/
theorem reciveCalls_of_more {chunk : List UInt8}
    (h : nextFrame (r.storeData chunk).buffer = .more) (base : ℕ) (chunks : List (List UInt8)) :
    (reciveCalls H s r base (chunk :: chunks)).flatten
        = (reciveCalls H s (r.storeData chunk) base chunks).flatten
      ∧ (reciveAll H s r (chunk :: chunks)).checksumError
        = (reciveAll H s (r.storeData chunk) chunks).checksumError := by
  have hc := reciveImpl_of_more H (s := s) h
  have hr : (reciveImpl H s r chunk).outcome = .returned () := by rw [hc]
  rw [reciveCalls_returned H hr, framing.scan_more h, reciveAll, hc]
  exact ⟨rfl, rfl⟩

/-- What is found in a part of the stream is found in the whole. -/
theorem nextFrame_part (chunk more : List UInt8) :
    (∀ {g b rest}, nextFrame (r.storeData chunk).buffer = .item g b rest →
        ∃ tail, (r.storeData (chunk ++ more)).buffer = (r.storeData chunk).buffer ++ tail
          ∧ nextFrame (r.storeData (chunk ++ more)).buffer = .item g b (rest ++ tail))
      ∧ (nextFrame (r.storeData chunk).buffer = .bad →
        nextFrame (r.storeData (chunk ++ more)).buffer = .bad) := by
  obtain ⟨tail, ht⟩ := Receiver.storeData_buffer_prefix (r.storeData chunk) more
  rw [Receiver.storeData_append, ← ht]
  exact ⟨fun h => ⟨tail, rfl, nextFrame_item_append tail h⟩, nextFrame_bad_append tail⟩

theorem calls_more (base : ℕ) : ∀ (chunks : List (List UInt8)) (r : Receiver),
    nextFrame (r.storeData chunks.flatten).buffer = .more →
      (reciveCalls H s r base chunks).flatten = []
  | [], _, _ => rfl
  | chunk :: chunks, r, h => by
    rw [List.flatten_cons] at h
    obtain ⟨hitem, hbad⟩ := nextFrame_part (r := r) chunk chunks.flatten
    rcases hn : nextFrame (r.storeData chunk).buffer with _ | _ | ⟨g, b, rest⟩
    · rw [(reciveCalls_of_more H hn base chunks).1]
      rw [Receiver.storeData_append] at h
      exact calls_more base chunks _ h
    · simp [hbad hn] at h
    · obtain ⟨tail, -, ht⟩ := hitem hn
      simp [ht] at h

theorem calls_bad : ∀ (chunks : List (List UInt8)) (r : Receiver),
    nextFrame (r.storeData chunks.flatten).buffer = .bad → nextFrame r.buffer = .more →
      (reciveAll H s r chunks).checksumError = true
  | [], r, h, h0 => by
    rw [List.flatten_nil, show r.storeData [] = r from rfl, h0] at h
    simp at h
  | chunk :: chunks, r, h, h0 => by
    rw [List.flatten_cons] at h
    obtain ⟨hitem, -⟩ := nextFrame_part (r := r) chunk chunks.flatten
    rcases hn : nextFrame (r.storeData chunk).buffer with _ | _ | ⟨g, b, rest⟩
    · rw [(reciveCalls_of_more H hn 0 chunks).2]
      rw [Receiver.storeData_append] at h
      exact calls_bad chunks _ h hn
    · rw [reciveAll, reciveImpl_of_bad H hn, Bool.true_or]
    · obtain ⟨tail, -, ht⟩ := hitem hn
      simp [ht] at h

/-- The first frame of the stream is what is dispatched first. -/
theorem calls_item (base : ℕ) {g b rest : List UInt8} :
    ∀ (chunks : List (List UInt8)) (r : Receiver),
      nextFrame (r.storeData chunks.flatten).buffer = .item g b rest → nextFrame r.buffer = .more →
        ∃ o ds, (reciveCalls H s r base chunks).flatten = ⟨base + g.length, b, o⟩ :: ds
  | [], r, h, h0 => by
    rw [List.flatten_nil, show r.storeData [] = r from rfl, h0] at h
    simp at h
  | chunk :: chunks, r, h, h0 => by
    rw [List.flatten_cons] at h
    obtain ⟨hitem, hbad⟩ := nextFrame_part (r := r) chunk chunks.flatten
    rcases hn : nextFrame (r.storeData chunk).buffer with _ | _ | ⟨g', b', rest'⟩
    · rw [(reciveCalls_of_more H hn base chunks).1]
      rw [Receiver.storeData_append] at h
      exact calls_item base chunks _ h hn
    · simp [hbad hn] at h
    · obtain ⟨tail, -, ht⟩ := hitem hn
      rw [h, Scan.Hit.item.injEq] at ht
      obtain ⟨rfl, rfl, -⟩ := ht
      obtain ⟨o, ds, hd⟩ := reciveImpl_of_item H (s := s) hn
      obtain ⟨logs, hl, -⟩ := reciveCalls_cons H (s := s) (r := r) base chunk chunks
      refine ⟨o, shifted base ds ++ logs.flatten, ?_⟩
      rw [hl, hd]
      rfl

/-- If it is all there is, it is dispatched once. -/
theorem calls_last (base : ℕ) {g b : List UInt8} :
    ∀ (chunks : List (List UInt8)) (r : Receiver), (∀ c ∈ chunks, c ≠ []) →
      nextFrame (r.storeData chunks.flatten).buffer = .item g b [] → nextFrame r.buffer = .more →
      (r.storeData chunks.flatten).state = .normal →
        (∃ o, (reciveCalls H s r base chunks).flatten = [⟨base + g.length, b, o⟩])
          ∧ (reciveAll H s r chunks).checksumError = false
  | [], r, _, h, h0, _ => by
    rw [List.flatten_nil, show r.storeData [] = r from rfl, h0] at h
    simp at h
  | chunk :: chunks, r, hc, h, h0, hst => by
    rw [List.flatten_cons] at h hst
    obtain ⟨hitem, hbad⟩ := nextFrame_part (r := r) chunk chunks.flatten
    rcases hn : nextFrame (r.storeData chunk).buffer with _ | _ | ⟨g', b', rest'⟩
    · obtain ⟨h1, h2⟩ := reciveCalls_of_more H (s := s) hn base chunks
      rw [Receiver.storeData_append] at h hst
      rw [h1, h2]
      exact calls_last base chunks _ (fun c hm => hc c (List.mem_cons_of_mem _ hm)) h hn hst
    · simp [hbad hn] at h
    · obtain ⟨tail, hb, ht⟩ := hitem hn
      rw [h, Scan.Hit.item.injEq] at ht
      obtain ⟨rfl, rfl, ht⟩ := ht
      obtain ⟨rfl, rfl⟩ := List.append_eq_nil_iff.1 ht.symm
      rw [Receiver.storeData_append] at hb hst
      -- no byte was left to read, or the buffer would have grown
      have hflat : chunks.flatten = [] := by
        by_contra hne
        have := Receiver.storeData_grows (r.storeData chunk) hne hst
        simp [hb] at this
      have hnil : chunks = [] := by
        rcases chunks with _ | ⟨c, cs⟩
        · rfl
        · exact absurd (List.flatten_eq_nil_iff.1 hflat c (by simp)) (hc c (by simp))
      subst hnil
      obtain ⟨o, hd, he⟩ := reciveImpl_of_last H (s := s) hn
      obtain ⟨logs, hl, hlogs⟩ := reciveCalls_cons H (s := s) (r := r) base chunk []
      refine ⟨⟨o, ?_⟩, ?_⟩
      · rw [hl, hlogs rfl, hd]
        rfl
      · rw [reciveAll, he]
        rfl

end Calls

/-! ## Noise -/

/-- Whether un-stuffing turns an escape of these bytes into a delimiter. -/
def escapesDelimiter : List UInt8 → Bool
  | a :: b :: rest =>
    if a = 0xDB then b == 0xDC || escapesDelimiter rest else escapesDelimiter (b :: rest)
  | _ => false

/-- Bytes without a delimiter before a raw one add a delimiter only by an escape; an escape they
leave open does not take the raw one in. -/
theorem storeData_noise : ∀ (noise buf : List UInt8), 0xC0 ∉ noise →
    ∃ g, (⟨.normal, buf⟩ : Receiver).storeData (noise ++ [0xC0]) = ⟨.normal, buf ++ g ++ [0xC0]⟩
      ∧ (0xC0 ∈ g ↔ escapesDelimiter noise = true)
  | [], buf, _ => ⟨[], by simp [Receiver.storeData, Receiver.storeByte], by simp [escapesDelimiter]⟩
  | [a], buf, h => by
    have ha : a ≠ 0xC0 := by simpa [eq_comm] using h
    refine ⟨[a], ?_, by simpa [escapesDelimiter] using ha.symm⟩
    by_cases hdb : a = 0xDB
    · simp [Receiver.storeData, Receiver.storeByte, hdb]
    · simp [Receiver.storeData, Receiver.storeByte, hdb]
  | a :: b :: rest, buf, h => by
    simp only [List.mem_cons, not_or] at h
    obtain ⟨ha, hb, hrest⟩ := h
    by_cases hdb : a = 0xDB
    · have htwo : ∃ two, ((⟨.normal, buf⟩ : Receiver).storeByte a).storeByte b
          = ⟨.normal, buf ++ two⟩ ∧ (0xC0 ∈ two ↔ b = 0xDC) := by
        by_cases h1 : b = 0xDC
        · exact ⟨[0xC0], by simp [Receiver.storeByte, hdb, h1], by simp [h1]⟩
        by_cases h2 : b = 0xDD
        · exact ⟨[0xDB], by simp [Receiver.storeByte, hdb, h2], by simp [h2]⟩
        · exact ⟨[0xDB, b], by simp [Receiver.storeByte, hdb, h1, h2], by simp [h1, hb]⟩
      obtain ⟨two, ht, hmem⟩ := htwo
      obtain ⟨g, hg, hiff⟩ := storeData_noise rest (buf ++ two) hrest
      refine ⟨two ++ g, ?_, ?_⟩
      · change (((⟨.normal, buf⟩ : Receiver).storeByte a).storeByte b).storeData
          (rest ++ [0xC0]) = _
        rw [ht, hg, List.append_assoc buf]
      · simp [escapesDelimiter, hdb, hmem, hiff]
    · obtain ⟨g, hg, hiff⟩ := storeData_noise (b :: rest) (buf ++ [a]) (by simp [hb, hrest])
      have hstep : (⟨.normal, buf⟩ : Receiver).storeByte a = ⟨.normal, buf ++ [a]⟩ := by
        simp [Receiver.storeByte, hdb]
      refine ⟨a :: g, ?_, ?_⟩
      · change ((⟨.normal, buf⟩ : Receiver).storeByte a).storeData (b :: rest ++ [0xC0]) = _
        rw [hstep, hg]
        simp
      · simp [escapesDelimiter, hdb, ha, hiff]

theorem storeData_noise_wire (m : TransportMessage) {noise : List UInt8} (h : 0xC0 ∉ noise) :
    ∃ g, ({} : Receiver).storeData (noise ++ m.wire) = ⟨.normal, g ++ m.frame⟩
      ∧ (0xC0 ∈ g ↔ escapesDelimiter noise = true) := by
  obtain ⟨g, hg, hiff⟩ := storeData_noise noise [] h
  have hsplit : noise ++ m.wire = noise ++ [0xC0] ++ Stuffing.encode stuffCode m.frame.tail := by
    unfold TransportMessage.wire
    rw [stuffBytes_eq, List.append_assoc]
  refine ⟨g, ?_, hiff⟩
  rw [hsplit, Receiver.storeData_append, show ({} : Receiver) = ⟨.normal, []⟩ from rfl, hg,
    Receiver.storeData_eq]
  simp only [StuffState.pending, Stuffing.decode_encode, List.nil_append, List.append_assoc]
  rfl

section Found

variable {σ : Type} (H : Handlers σ)

/-- Of everything received, the frame at the end is dispatched, once, and nothing else is; no
checksum error is reported. -/
def Found (s : σ) (m : TransportMessage) (chunks : List (List UInt8)) : Prop :=
  (reciveCalls H s {} 0 chunks).flatten.map (fun d => (d.offset, d.frame))
      = [((({} : Receiver).storeData chunks.flatten).buffer.length - m.frame.length, m.frame)]
    ∧ (reciveAll H s {} chunks).checksumError = false

/-- A frame behind noise without a delimiter is received as it is exactly if no escape of the
noise stands for a delimiter. -/
theorem found_iff (s : σ) (m : TransportMessage) {noise : List UInt8} (h : 0xC0 ∉ noise)
    {chunks : List (List UInt8)} (hc : ∀ c ∈ chunks, c ≠ [])
    (hs : chunks.flatten = noise ++ m.wire) :
    Found H s m chunks ↔ escapesDelimiter noise = false := by
  obtain ⟨g, hg, hiff⟩ := storeData_noise_wire m h
  have hbuf : (({} : Receiver).storeData chunks.flatten).buffer = g ++ m.frame := by rw [hs, hg]
  have hlen : (g ++ m.frame).length - m.frame.length = g.length := by simp
  rw [← Bool.not_eq_true, ← hiff]
  unfold Found
  rw [hbuf, hlen]
  constructor
  · intro ⟨hd, hsum⟩ hmem
    rcases hn : nextFrame (g ++ m.frame) with _ | _ | ⟨g', b, rest⟩
    · rw [calls_more H 0 chunks {} (by rw [hbuf, hn])] at hd
      simp at hd
    · rw [calls_bad H chunks {} (by rw [hbuf, hn]) rfl] at hsum
      simp at hsum
    · -- what is found first starts at a delimiter of the noise
      obtain ⟨o, ds, hi⟩ := calls_item H (s := s) 0 chunks {} (by rw [hbuf, hn]) rfl
      have hlt := beforeStart_append_lt m.frame hmem
      rw [← (nextFrame_found hn).2.2.1] at hlt
      rw [hi] at hd
      simp only [List.map_cons, List.cons.injEq, Prod.mk.injEq] at hd
      omega
  · intro hmem
    have hn : nextFrame (g ++ m.frame) = .item g m.frame [] := by
      have hframe := nextFrame_frame m []
      rw [List.append_nil] at hframe
      simpa using nextFrame_noise hmem hframe
    obtain ⟨⟨o, hi⟩, hsum⟩ := calls_last H (s := s) 0 chunks {} hc (by rw [hbuf, hn]) rfl
      (by rw [hs, hg])
    exact ⟨by simp [hi], hsum⟩

end Found

/-- An escape in front of a delete confirmation that is followed by no stand-in. -/
theorem found_iff_open_escape :
    Found silent () ⟨TmCode.cDeleteConfirm, [], by decide⟩
        [[0xDB], [0x01, 0xC0, 0x88, 0, 0, 0x5E, 0x67]]
      ↔ escapesDelimiter [0xDB, 0x01] = false :=
  found_iff silent () ⟨TmCode.cDeleteConfirm, [], by decide⟩ (by decide) (by decide)
    (by decide +kernel)

/-- Behind an escaped delimiter the real one of the confirmation is read as a command, and more
bytes than it has are waited for. -/
theorem not_found_escaped :
    0xC0 ∉ ([0xDB, 0xDC] : List UInt8)
      ∧ ¬ Found silent () ⟨TmCode.cDeleteConfirm, [], by decide⟩
        [[0xDB, 0xDC] ++ (⟨TmCode.cDeleteConfirm, [], by decide⟩ : TransportMessage).wire] := by
  have hd : (reciveCalls silent () {} 0
      [[0xDB, 0xDC] ++ (⟨TmCode.cDeleteConfirm, [], by decide⟩ : TransportMessage).wire]).flatten
        = [] := by
    decide +kernel
  refine ⟨by decide, fun h => ?_⟩
  have := h.1
  rw [hd] at this
  simp at this

end Communicator
