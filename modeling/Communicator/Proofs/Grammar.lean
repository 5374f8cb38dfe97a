import Communicator.Proofs.Frames

/-!
# The grammar of packages

`parse_info_package` returns on exactly the concatenations of length-prefixed blocks and throws on
everything else (`parseInfoPackage_grammar`). A second byte of a length that is missing is read
from behind the package, but a block with that length does not fit either way.
-/

namespace Communicator

variable (E : Env)

def chainOf (blocks : List (List UInt8)) : List UInt8 :=
  blocks.flatMap fun b => toLe 2 b.length ++ b

/-- The messages of a block: one for each event, in order. -/
def renderedEvents (block : List UInt8) : List Text :=
  (E.parseFromArray block).2.mid.map fun id =>
    (extract E.formats id (E.parseFromArray block).2 []).output

theorem blockHeader_lawful (xs : List UInt8) (h : xs.length = blockHeader.width) :
    blockHeader.size xs < blockHeader.bound ∧ blockHeader.write (blockHeader.size xs) = xs := by
  have h2 : xs.length = 2 := h
  have hlt := le_lt xs
  have hle := toLe_le xs
  rw [h2] at hlt hle
  exact ⟨hlt, hle⟩

variable {m : TransportMessage} {blocks : List (List UInt8)}

theorem length_lt_of_chainOf (h : m.imData = chainOf blocks) :
    ∀ b ∈ blocks, b.length < 65536 := by
  intro b hb
  have hsub : b.Sublist m.imData := by
    rw [h]
    exact (List.sublist_append_right _ _).trans
      (List.sublist_flatten_of_mem (List.mem_map_of_mem hb))
  have hlen := hsub.length_le
  have hlt := m.length_lt
  rw [imData_length] at hlen
  omega

/-- What the loop finds in a package is what the package is the chain of. -/
theorem split_imData_iff :
    Chain.split blockHeader m.imData = some blocks ↔ m.imData = chainOf blocks := by
  constructor
  · intro h
    exact (Chain.join_of_split blockHeader blockHeader_lawful _ h).1
  · intro h
    have hs := Chain.split_join blockHeader blocks (length_lt_of_chainOf h)
    rwa [show Chain.join blockHeader blocks = m.imData from h.symm] at hs

theorem infoMessages_chainOf (h : m.imData = chainOf blocks) :
    infoMessages E m.imData = .returned (blocks.flatMap (renderedEvents E)) := by
  simp only [infoMessages, split_imData_iff.2 h]
  rfl

theorem infoMessages_not_chain (h : ¬ ∃ blocks, m.imData = chainOf blocks) :
    infoMessages E m.imData = .threw .unexpectedEnd := by
  rcases hs : Chain.split blockHeader m.imData with _ | blocks
  · simp only [infoMessages, hs]
  · exact absurd ⟨blocks, split_imData_iff.1 hs⟩ h

/-- A package is accepted exactly if it is a chain of blocks, and its messages are the events of
the blocks; else the end of the data is found too early. What follows the package is not looked
at. -/
theorem parseInfoPackage_grammar (E : Env) (m : TransportMessage) (h9 : 9 ≤ m.data.length)
    (h l : UInt8) (rest : List UInt8) :
    ((∃ texts, parseInfoPackage E (m.bytes ++ h :: l :: rest) = .returned texts)
        ↔ ∃ blocks, m.imData = chainOf blocks)
      ∧ (∀ blocks, m.imData = chainOf blocks →
        parseInfoPackage E (m.bytes ++ h :: l :: rest)
          = .returned (blocks.flatMap (renderedEvents E)))
      ∧ ((¬ ∃ blocks, m.imData = chainOf blocks) →
        parseInfoPackage E (m.bytes ++ h :: l :: rest) = .threw .unexpectedEnd)
      ∧ ∀ (h' l' : UInt8) (rest' : List UInt8),
        parseInfoPackage E (m.bytes ++ h' :: l' :: rest')
          = parseInfoPackage E (m.bytes ++ h :: l :: rest) := by
  have hp : ∀ (h l : UInt8) (rest : List UInt8),
      parseInfoPackage E (m.bytes ++ h :: l :: rest) = infoMessages E m.imData :=
    fun h l rest => parseInfoPackage_bytes E m h9 (by simp)
  simp only [hp]
  refine ⟨⟨?_, ?_⟩, fun blocks => infoMessages_chainOf E, infoMessages_not_chain E, by simp⟩
  · rintro ⟨texts, ht⟩
    by_contra hn
    rw [infoMessages_not_chain E hn] at ht
    simp at ht
  · rintro ⟨blocks, hb⟩
    exact ⟨_, infoMessages_chainOf E hb⟩

theorem parseInfoPackage_two_blocks :
    parseInfoPackage eventOnly
        ((⟨TmCode.cArchiveData, [5, 0, 0, 0, 0, 0, 0, 0, 0, 3, 0, 0x0A, 1, 5, 0, 0], by decide⟩ :
          TransportMessage).bytes ++ 0 :: 0 :: [0xC0])
      = .returned ([[0x0A, 1, 5], []].flatMap (renderedEvents eventOnly)) :=
  (parseInfoPackage_grammar eventOnly _ (by decide) 0 0 [0xC0]).2.1 _ rfl

end Communicator
