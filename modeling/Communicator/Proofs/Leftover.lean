import Communicator.Proofs.Noise
import Mathlib.Data.List.TakeWhile

/-!
# What is left in the buffer

A call erases what lies before the end of the last frame it handed over. Bytes behind that end
which start no frame stay with it, although the log says they are dropped: so the buffer holds no
more than one frame's beginning exactly if no such bytes come after the last frame
(`atMostOneFrame_iff`), and without a frame it only grows (`buffer_of_noise`).
-/

namespace Communicator

open TransportHeader

/-- The beginning of a frame, whatever its checksum, and not all of it. -/
def IsBeginning (xs : List UInt8) : Prop :=
  ∃ (m : TransportMessage) (h l : UInt8), xs <+: m.bytes ++ [h, l] ∧ xs ≠ m.bytes ++ [h, l]

/-- Frames, each behind bytes without a delimiter, and at most the beginning of one after them. -/
inductive Aligned : List UInt8 → Prop
  | beginning {xs} (h : IsBeginning xs) : Aligned xs
  | frame {g xs} (m : TransportMessage) (hg : 0xC0 ∉ g) (h : Aligned xs) :
    Aligned (g ++ m.frame ++ xs)

/-- The buffer is empty, or holds bytes of one frame of which its header announces more. -/
def AtMostOneFrame (buf : List UInt8) : Prop :=
  (buf = [] ∨ buf.head? = some 0xC0 ∧ (buf.length < sizeof ∨ buf.length < getFullLength buf))
    ∧ buf.length ≤ 65540

theorem dataLen_lt (hdr : List UInt8) : dataLen hdr < 65536 := by
  unfold dataLen Member.read
  rcases h : bytesAt hdr 2 2 with _ | bs
  · simp
  · obtain ⟨hl, rfl⟩ := bytesAt_eq_some.1 h
    have hlt := le_lt ((hdr.drop 2).take 2)
    rw [show ((hdr.drop 2).take 2).length = 2 by
      rw [List.length_take, List.length_drop]
      omega] at hlt
    simpa using hlt

theorem getFullLength_le (hdr : List UInt8) : getFullLength hdr ≤ 65541 := by
  have h := dataLen_lt hdr
  simp only [getFullLength, TransportHeader.sizeof]
  omega

/-- Bytes that start with a delimiter and are as many as their header announces are a message and
two bytes of checksum. -/
theorem exists_bytes {xs : List UInt8} (h0 : xs.head? = some 0xC0)
    (h : getFullLength xs ≤ xs.length) :
    ∃ (m : TransportMessage) (h l : UInt8) (rest : List UInt8), xs = m.bytes ++ h :: l :: rest := by
  have h6 : 6 ≤ xs.length := by
    simp only [getFullLength, TransportHeader.sizeof] at h
    omega
  obtain ⟨ys, rfl⟩ : ∃ ys, xs = 0xC0 :: ys := List.head?_eq_some_iff.1 h0
  obtain _ | ⟨c, _ | ⟨a, _ | ⟨b, ys⟩⟩⟩ := ys <;> try simp at h6
  have hlen : dataLen (0xC0 :: c :: a :: b :: ys) = le [a, b] := rfl
  rw [getFullLength, hlen, TransportHeader.sizeof] at h
  simp only [List.length_cons] at h
  have hl : (ys.take (le [a, b])).length = le [a, b] := by
    rw [List.length_take]
    omega
  obtain ⟨p, q, rest, hr⟩ : ∃ p q rest, ys.drop (le [a, b]) = p :: q :: rest := by
    have hd : 2 ≤ (ys.drop (le [a, b])).length := by
      rw [List.length_drop]
      omega
    rcases hy : ys.drop (le [a, b]) with _ | ⟨p, _ | ⟨q, rest⟩⟩
    · simp [hy] at hd
    · simp [hy] at hd
    · exact ⟨p, q, rest, rfl⟩
  have hlt : le [a, b] < 65536 := by simpa using le_lt [a, b]
  refine ⟨⟨c, ys.take (le [a, b]), by rwa [hl]⟩, p, q, rest, ?_⟩
  rw [bytes_append]
  simp only [hl]
  rw [show toLe 2 (le [a, b]) = [a, b] from toLe_le [a, b], ← hr, List.take_append_drop]
  rfl

theorem isBeginning_iff {xs : List UInt8} :
    IsBeginning xs ↔ xs = []
      ∨ xs.head? = some 0xC0 ∧ (xs.length < sizeof ∨ xs.length < getFullLength xs) := by
  constructor
  · rintro ⟨m, h, l, ⟨more, hm⟩, hne⟩
    rcases xs with _ | ⟨x, xs⟩
    · exact .inl rfl
    refine .inr ⟨?_, ?_⟩
    · have hx := congrArg List.head? hm
      simpa [bytes_append] using hx
    · by_cases h4 : (x :: xs).length < TransportHeader.sizeof
      · exact .inl h4
      · have hfull := getFullLength_append (Nat.not_lt.1 h4) more
        rw [hm, getFullLength_bytes] at hfull
        have hlen := congrArg List.length hm
        have hmore : more ≠ [] := by
          rintro rfl
          exact hne (by simpa using hm)
        have := List.length_pos_iff.2 hmore
        simp only [List.length_append, bytes_length, List.length_cons, List.length_nil] at hlen ⊢
        omega
  · rintro (rfl | ⟨h0, hlen⟩)
    · exact ⟨⟨0, [], by decide⟩, 0, 0, List.nil_prefix, by simp [bytes_append]⟩
    · -- with enough bytes appended there is a whole frame, and it ends behind `xs`
      obtain ⟨pad, hpad⟩ : ∃ pad : List UInt8, pad.length = 65541 :=
        ⟨List.replicate 65541 0, List.length_replicate⟩
      have hfull := getFullLength_le (xs ++ pad)
      have hhead : (xs ++ pad).head? = some 0xC0 := by simp [h0]
      obtain ⟨m, h, l, rest, hm⟩ := exists_bytes hhead (by
        rw [List.length_append]
        omega)
      have hshort : xs.length < (m.bytes ++ [h, l]).length := by
        have hb : (m.bytes ++ [h, l]).length = getFullLength (xs ++ pad) := by
          rw [hm, getFullLength_bytes]
          simp
        rw [hb]
        by_cases h4 : xs.length < TransportHeader.sizeof
        · exact h4.trans_le (four_le_getFullLength _)
        · rw [getFullLength_append (Nat.not_lt.1 h4)]
          exact hlen.resolve_left h4
      refine ⟨m, h, l, ?_, ?_⟩
      · refine List.prefix_of_prefix_length_le (List.prefix_append xs pad) ?_ hshort.le
        rw [hm]
        exact ⟨rest, by simp⟩
      · rintro rfl
        exact absurd hshort (Nat.lt_irrefl _)

theorem atMostOneFrame_iff_isBeginning {buf : List UInt8} :
    AtMostOneFrame buf ↔ IsBeginning buf := by
  unfold AtMostOneFrame
  rw [isBeginning_iff]
  refine and_iff_left_of_imp ?_
  have hfull := getFullLength_le buf
  have hsize : TransportHeader.sizeof = 4 := rfl
  rintro (rfl | ⟨-, h | h⟩)
  · exact Nat.zero_le _
  · omega
  · omega

theorem nextFrame_beginning {xs : List UInt8} (h : IsBeginning xs) : nextFrame xs = .more := by
  rcases isBeginning_iff.1 h with rfl | ⟨h0, hlen⟩
  · rfl
  · obtain ⟨ys, rfl⟩ := List.head?_eq_some_iff.1 h0
    have hf : fromStart (0xC0 :: ys) = 0xC0 :: ys := rfl
    unfold nextFrame
    rw [hf]
    split_ifs with h1 h2
    · rfl
    · rfl
    · exact absurd hlen (not_or.2 ⟨h1, h2⟩)
    · exact absurd hlen (not_or.2 ⟨h1, h2⟩)

theorem frame_injective : Function.Injective TransportMessage.frame := by
  intro m m' h
  have hfields : ∀ m : TransportMessage,
      (TransportHeader.cmd m.frame, TransportHeader.getData m.frame) = (m.cmd, m.data) := by
    intro m
    simp [TransportMessage.frame]
  have heq := (hfields m).symm.trans (h ▸ hfields m')
  obtain ⟨cmd, data, hlt⟩ := m
  obtain ⟨cmd', data', hlt'⟩ := m'
  obtain ⟨rfl, rfl⟩ := Prod.mk.inj heq
  rfl

/-- What is skipped holds no delimiter, and what is found is a message's frame. -/
theorem nextFrame_is_frame {xs g b r : List UInt8} (h : nextFrame xs = .item g b r) :
    0xC0 ∉ g ∧ ∃ m : TransportMessage, b = m.frame := by
  obtain ⟨hlen, hcrc, rfl, rfl, -⟩ := nextFrame_found h
  refine ⟨fun hmem => by simpa using List.mem_takeWhile_imp hmem, ?_⟩
  have h0 : (fromStart xs).head? = some 0xC0 := by
    rcases hf : fromStart xs with _ | ⟨x, ys⟩
    · simp [hf, getFullLength, TransportHeader.sizeof] at hlen
    · have hx := List.head?_dropWhile_not (· != 0xC0) xs
      rw [show xs.dropWhile (· != 0xC0) = x :: ys from hf] at hx
      simpa using hx
  obtain ⟨m, p, q, rest, hm⟩ := exists_bytes h0 hlen
  rw [hm] at hcrc ⊢
  have ht : [p, q] = m.trailer := (checkCrc_bytes m rest p q).1 hcrc
  have hs : m.bytes ++ p :: q :: rest = (m.bytes ++ [p, q]) ++ rest := by simp
  have hl : (m.bytes ++ [p, q]).length = 4 + m.data.length + 2 := by simp
  refine ⟨m, ?_⟩
  rw [getFullLength_bytes, TransportMessage.frame, ← ht, hs, ← hl, List.take_left]

theorem nextFrame_frame_behind {g : List UInt8} (hg : 0xC0 ∉ g) (m : TransportMessage)
    (xs : List UInt8) : nextFrame (g ++ m.frame ++ xs) = .item g m.frame xs := by
  rw [List.append_assoc]
  simpa using nextFrame_noise hg (nextFrame_frame m xs)

theorem leftover_of_more {xs : List UInt8} (h : nextFrame xs = .more) :
    framing.leftover xs = xs := by
  unfold Scan.Scanner.leftover
  rw [framing.scan_more h, List.drop_zero]

/-- What a scan leaves is the beginning of one frame exactly if the bytes are aligned. -/
theorem isBeginning_leftover_iff {xs : List UInt8} (h : (framing.scan xs).broken = false) :
    IsBeginning (framing.leftover xs) ↔ Aligned xs := by
  constructor
  · intro hl
    induction xs using framing.scan_induction with
    | more xs hn =>
      rw [leftover_of_more hn] at hl
      exact .beginning hl
    | bad xs hn => simp [framing.scan_bad hn] at h
    | item xs g b r hn ih =>
      obtain ⟨rfl, -⟩ := framing.next_item hn
      obtain ⟨hg, m, rfl⟩ := nextFrame_is_frame hn
      rw [framing.leftover_item hn] at hl
      rw [framing.scan_item hn] at h
      exact .frame m hg (ih h hl)
  · intro ha
    clear h
    induction ha with
    | beginning h => rwa [leftover_of_more (nextFrame_beginning h)]
    | frame m hg _ ih => rwa [framing.leftover_item (nextFrame_frame_behind hg m _)]

section Runs

variable {σ : Type} {H : Handlers σ} {s : σ} {chunks : List (List UInt8)}

theorem reciveAll_kept (hr : (reciveAll H s {} chunks).AllReturned) :
    (reciveAll H s {} chunks).receiver.buffer
        = framing.leftover (({} : Receiver).storeData chunks.flatten).buffer
      ∧ (reciveAll H s {} chunks).checksumError
        = (framing.scan (({} : Receiver).storeData chunks.flatten).buffer).broken := by
  obtain ⟨-, h2, h3⟩ := reciveAll_returned chunks s {} hr (by simp [scan_nil]) (by simp [scan_nil])
  refine ⟨by rw [h2], ?_⟩
  simpa [scan_nil] using h3

/-- While no handler fails and no checksum is wrong, the buffer holds at most the beginning of one
frame after a call exactly if what was received so far is aligned. -/
theorem atMostOneFrame_iff (hr : (reciveAll H s {} chunks).AllReturned)
    (hc : (reciveAll H s {} chunks).checksumError = false) :
    AtMostOneFrame (reciveAll H s {} chunks).receiver.buffer
      ↔ Aligned (({} : Receiver).storeData chunks.flatten).buffer := by
  obtain ⟨h1, h2⟩ := reciveAll_kept hr
  rw [h1, atMostOneFrame_iff_isBeginning, isBeginning_leftover_iff (h2 ▸ hc)]

end Runs

/-- Noise, a delete confirmation and the first byte of a frame. -/
theorem atMostOneFrame_iff_next :
    AtMostOneFrame (reciveAll silent () {}
        [[0x01, 0xC0, 0x88, 0x00], [0x00, 0x5E, 0x67, 0xC0]]).receiver.buffer
      ↔ Aligned (({} : Receiver).storeData
        [[0x01, 0xC0, 0x88, 0x00], [0x00, 0x5E, 0x67, 0xC0]].flatten).buffer :=
  atMostOneFrame_iff (by decide +kernel) (by decide +kernel)

theorem nextFrame_of_noise {xs : List UInt8} (h : 0xC0 ∉ xs) : nextFrame xs = .more := by
  have hf : fromStart xs = [] := by
    rw [fromStart, List.dropWhile_eq_nil_iff]
    intro x hx
    simpa using ne_of_mem_of_not_mem hx h
  unfold nextFrame
  rw [hf]
  rfl

theorem storeData_plain : ∀ (data buf : List UInt8), 0xDB ∉ data →
    (⟨.normal, buf⟩ : Receiver).storeData data = ⟨.normal, buf ++ data⟩
  | [], buf, _ => by simp [Receiver.storeData]
  | byte :: data, buf, h => by
    simp only [List.mem_cons, not_or] at h
    have hstep : (⟨.normal, buf⟩ : Receiver).storeByte byte = ⟨.normal, buf ++ [byte]⟩ := by
      simp [Receiver.storeByte, Ne.symm h.1]
    change ((⟨.normal, buf⟩ : Receiver).storeByte byte).storeData data = _
    rw [hstep, storeData_plain data _ h.2, List.append_assoc]
    rfl

/-- Bytes that are neither delimiters nor escapes are never erased, however many there are. -/
theorem buffer_of_noise {σ : Type} (H : Handlers σ) : ∀ (chunks : List (List UInt8)) (s : σ)
    (buf : List UInt8), 0xC0 ∉ buf → 0xC0 ∉ chunks.flatten → 0xDB ∉ chunks.flatten →
      (reciveAll H s ⟨.normal, buf⟩ chunks).receiver = ⟨.normal, buf ++ chunks.flatten⟩
  | [], s, buf, _, _, _ => by simp [reciveAll]
  | chunk :: chunks, s, buf, hb, h0, hdb => by
    simp only [List.flatten_cons, List.mem_append, not_or] at h0 hdb ⊢
    have hstore := storeData_plain chunk buf hdb.1
    have hbuf : 0xC0 ∉ buf ++ chunk := by simp [hb, h0.1]
    have hmore : nextFrame ((⟨.normal, buf⟩ : Receiver).storeData chunk).buffer = .more := by
      rw [hstore, nextFrame_of_noise hbuf]
    have hcall := reciveImpl_of_more H (s := s) hmore
    simp only [reciveAll, hcall, hstore]
    rw [buffer_of_noise H chunks s _ hbuf h0.2 hdb.2, List.append_assoc]

/-- A byte that starts no frame stays. -/
theorem not_atMostOneFrame_noise :
    (reciveAll silent () {} [[0x01]]).AllReturned
      ∧ (reciveAll silent () {} [[0x01]]).checksumError = false
      ∧ ¬ AtMostOneFrame (reciveAll silent () {} [[0x01]]).receiver.buffer := by
  have hb : (reciveAll silent () {} [[0x01]]).receiver = ⟨.normal, [0x01]⟩ :=
    buffer_of_noise silent [[0x01]] () [] (by decide) (by decide) (by decide)
  refine ⟨by decide +kernel, by decide +kernel, ?_⟩
  rw [hb]
  simp [AtMostOneFrame]

end Communicator
