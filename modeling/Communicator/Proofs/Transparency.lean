import Communicator.Proofs.Framing

/-!
# Stuffing in both directions

What is sent starts with the only delimiter in it, and the receiver reads a stuffed string back as
it was, however the stream cuts it.
-/

namespace Communicator

theorem delimiter_iff (data : List UInt8) (i : ℕ) :
    (send (0xC0 :: data))[i]? = some 0xC0 ↔ i = 0 := by
  rw [send_cons]
  cases i with
  | zero => simp
  | succ i =>
    refine iff_of_false (fun h => ?_) (Nat.succ_ne_zero i)
    exact delimiter_not_mem_encode _ (List.mem_of_getElem? h)

theorem storeData_stuffBytes (buffer data : List UInt8) :
    (⟨.normal, buffer⟩ : Receiver).storeData (stuffBytes data []) = ⟨.normal, buffer ++ data⟩ := by
  have hdecode : Stuffing.decode stuffCode (StuffState.pending .normal)
      (Stuffing.encode stuffCode data) = (data, false) := Stuffing.decode_encode stuffCode data
  rw [stuffBytes_eq, List.nil_append, Receiver.storeData_eq, hdecode]
  rfl

/-- A message that starts with the delimiter is sent with no other, and a string that was stuffed
is appended to the buffer as it was. -/
theorem stuffing_transparent (data : List UInt8) :
    (∀ i : ℕ, (send (0xC0 :: data))[i]? = some 0xC0 ↔ i = 0)
      ∧ ∀ (buffer : List UInt8) (chunks : List (List UInt8)),
        chunks.flatten = stuffBytes data [] →
          chunks.foldl Receiver.storeData ⟨.normal, buffer⟩ = ⟨.normal, buffer ++ data⟩ := by
  refine ⟨delimiter_iff data, fun buffer chunks hchunks => ?_⟩
  rw [Receiver.foldl_storeData, hchunks, storeData_stuffBytes]

theorem stuffing_transparent_escapes :
    [[0xDB], [0xDC, 0x01, 0xDB], [0xDD]].foldl Receiver.storeData ⟨.normal, [0x05]⟩
      = ⟨.normal, [0x05, 0xC0, 0x01, 0xDB]⟩ :=
  (stuffing_transparent [0xC0, 0x01, 0xDB]).2 [0x05] _ rfl

end Communicator
