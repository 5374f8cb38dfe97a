import Communicator.Client

/-!
# What a client passes on

A read that does not fill the buffer is passed on whole and leaves the next one started. One that
fills it is refused, which stops the connection.
-/

namespace Communicator

namespace Client

variable {σ : Type} (recive : σ → List UInt8 → Reply σ)

/-- The calls of `recive` on these reads, one after the other, neither throw nor stop. -/
def Quiet : σ → List (List UInt8) → Prop
  | _, [] => True
  | s, data :: rest => (recive s data).outcome = .returned () ∧ (recive s data).stopped = false
    ∧ Quiet (recive s data).impl rest

/-- Whatever the protocol does, what was read is passed on and the next read is under way. -/
theorem handleRead_of_lt (c : Client σ) {data : List UInt8} (h0 : data ≠ [])
    (h : data.length < asyncBufferSize) :
    (c.handleRead recive (.success data)).delivered = c.delivered ++ [data]
      ∧ (c.handleRead recive (.success data)).reading = true
      ∧ (c.handleRead recive (.success data)).impl = (recive c.impl data).impl := by
  have hl : data.length ≠ 0 := fun h => h0 (List.length_eq_zero_iff.1 h)
  have he : data.isEmpty = false := by simpa using h0
  simp only [handleRead, hl, h, he, passOn, ne_eq, not_false_eq_true, and_self, if_true,
    Bool.false_eq_true, if_false]
  split <;> simp [stop]

theorem handleRead_isOpen (c : Client σ) {data : List UInt8} (h0 : data ≠ [])
    (h : data.length < asyncBufferSize) (ho : (recive c.impl data).outcome = .returned ())
    (hs : (recive c.impl data).stopped = false) :
    (c.handleRead recive (.success data)).isOpen = c.isOpen := by
  have hl : data.length ≠ 0 := fun h => h0 (List.length_eq_zero_iff.1 h)
  have he : data.isEmpty = false := by simpa using h0
  simp only [handleRead, hl, h, he, passOn, ho, hs, ne_eq, not_false_eq_true, and_self, if_true,
    Bool.false_eq_true, if_false, Bool.not_false, Bool.and_true]

theorem handleRead_of_eq (c : Client σ) {data : List UInt8} (h : data.length = asyncBufferSize) :
    (c.handleRead recive (.success data)).delivered = c.delivered
      ∧ (c.handleRead recive (.success data)).isOpen = false
      ∧ (c.handleRead recive (.success data)).reading = false := by
  simp [handleRead, h, stop]

theorem handleReads_of_lt : ∀ (reads : List (List UInt8)) (c : Client σ), c.reading = true →
    (∀ data ∈ reads, data ≠ [] ∧ data.length < asyncBufferSize) →
      (c.handleReads recive reads).delivered = c.delivered ++ reads
        ∧ (Quiet recive c.impl reads → (c.handleReads recive reads).isOpen = c.isOpen)
  | [], c, _, _ => by simp [handleReads]
  | data :: rest, c, hr, h => by
    obtain ⟨h0, hlt⟩ := h data List.mem_cons_self
    obtain ⟨h1, h2, h3⟩ := handleRead_of_lt recive c h0 hlt
    obtain ⟨ih1, ih2⟩ := handleReads_of_lt rest (c.handleRead recive (.success data)) h2
      fun d hd => h d (List.mem_cons_of_mem _ hd)
    rw [handleReads, if_pos hr, ih1, h1]
    refine ⟨by simp, ?_⟩
    rintro ⟨ho, hs, hq⟩
    rw [ih2 (h3 ▸ hq), handleRead_isOpen recive c h0 hlt ho hs]

/-- A read that fills the buffer is passed on to nobody, and is the last. -/
theorem handleReads_of_mem : ∀ (reads : List (List UInt8)) (c : Client σ),
    c.reading = true → (∀ data ∈ reads, data ≠ [] ∧ data.length ≤ asyncBufferSize) →
      (∃ data ∈ reads, data.length = asyncBufferSize) →
      (c.handleReads recive reads).delivered.flatten.length
          < (c.delivered ++ reads).flatten.length
        ∧ (c.handleReads recive reads).isOpen = false
  | [], _, _, _, h => by simp at h
  | data :: rest, c, hr, h, hm => by
    obtain ⟨h0, hle⟩ := h data List.mem_cons_self
    rw [handleReads, if_pos hr]
    rcases Nat.lt_or_eq_of_le hle with hlt | heq
    · obtain ⟨h1, h2, -⟩ := handleRead_of_lt recive c h0 hlt
      have hrest : ∃ data ∈ rest, data.length = asyncBufferSize := by
        obtain ⟨d, hd, hde⟩ := hm
        rcases List.mem_cons.1 hd with rfl | hd
        · omega
        · exact ⟨d, hd, hde⟩
      have ih := handleReads_of_mem rest _ h2 (fun d hd => h d (List.mem_cons_of_mem _ hd)) hrest
      rw [h1, List.append_assoc, List.singleton_append] at ih
      exact ih
    · obtain ⟨h1, h2, h3⟩ := handleRead_of_eq recive c heq
      have hlast : (c.handleRead recive (.success data)).handleReads recive rest
          = c.handleRead recive (.success data) := by
        cases rest with
        | nil => rfl
        | cons d ds => rw [handleReads, h3, if_neg (by simp)]
      have hpos : 0 < data.length := List.length_pos_iff.2 h0
      rw [hlast, h1]
      refine ⟨?_, h2⟩
      simp only [List.flatten_append, List.flatten_cons, List.length_append]
      omega

/-- The stream is delivered unchanged exactly if no read fills the buffer, whatever the protocol
does; and as long as that neither throws nor stops, the connection stays open exactly then. -/
theorem delivered_iff (impl : σ) (reads : List (List UInt8))
    (h : ∀ data ∈ reads, data ≠ [] ∧ data.length ≤ asyncBufferSize) :
    ((handleReads recive { impl } reads).delivered.flatten = reads.flatten
        ↔ ∀ data ∈ reads, data.length < asyncBufferSize)
      ∧ (Quiet recive impl reads → ((handleReads recive { impl } reads).isOpen = true
        ↔ ∀ data ∈ reads, data.length < asyncBufferSize)) := by
  have hshort : (∀ data ∈ reads, data.length < asyncBufferSize) →
      (handleReads recive { impl } reads).delivered.flatten = reads.flatten
        ∧ (Quiet recive impl reads → (handleReads recive { impl } reads).isOpen = true) := by
    intro hlt
    obtain ⟨h1, h2⟩ := handleReads_of_lt recive reads { impl } rfl
      fun data hd => ⟨(h data hd).1, hlt data hd⟩
    exact ⟨by simp [h1], h2⟩
  have hlong : ∀ data ∈ reads, ¬ data.length < asyncBufferSize →
      (handleReads recive { impl } reads).delivered.flatten ≠ reads.flatten
        ∧ (handleReads recive { impl } reads).isOpen = false := by
    intro data hd hno
    have heq := Nat.le_antisymm (h data hd).2 (Nat.not_lt.1 hno)
    obtain ⟨hless, hclosed⟩ := handleReads_of_mem recive reads { impl } rfl h
      ⟨data, hd, heq⟩
    refine ⟨fun hsame => ?_, hclosed⟩
    rw [hsame] at hless
    exact absurd hless (Nat.lt_irrefl _)
  refine ⟨⟨fun hsame data hd => ?_, fun hlt => (hshort hlt).1⟩, fun hq =>
    ⟨fun hopen data hd => ?_, fun hlt => (hshort hlt).2 hq⟩⟩
  · by_contra hno
    exact (hlong data hd hno).1 hsame
  · by_contra hno
    simp [(hlong data hd hno).2] at hopen

theorem delivered_short_reads :
    (handleReads (fun s data => ⟨.returned (), false, s ++ data⟩) { impl := [] }
        [[1, 2], [3]]).delivered.flatten = [[1, 2], [3]].flatten
      ∧ (handleReads (fun s data => ⟨.returned (), false, s ++ data⟩) { impl := [] }
        [[1, 2], [3]]).isOpen = true := by
  obtain ⟨hdelivered, hopen⟩ := delivered_iff
    (fun s data => ⟨.returned (), false, s ++ data⟩) [] [[1, 2], [3]] (by decide)
  exact ⟨hdelivered.2 (by decide), (hopen (by simp [Quiet])).2 (by decide)⟩

/-- One read of 8192 bytes, delivered to nobody. -/
theorem not_delivered_full_read :
    ¬ ((handleReads (fun s _ => ⟨.returned (), false, s⟩) { impl := () }
          [List.replicate 8192 0]).delivered.flatten = [List.replicate 8192 0].flatten
        ∧ (handleReads (fun s _ => ⟨.returned (), false, s⟩) { impl := () }
          [List.replicate 8192 0]).isOpen = true) := by
  rintro ⟨-, ho⟩
  have h : (handleRead (fun s _ => ⟨.returned (), false, s⟩) { impl := () }
      (.success (List.replicate 8192 0))).isOpen = false :=
    (handleRead_of_eq _ _ List.length_replicate).2.1
  simp only [handleReads, if_true] at ho
  rw [h] at ho
  simp at ho

end Client

end Communicator
