import Communicator.Proofs.Kinds

/-!
# The numbers of the messages

The first message of a package is labelled `last_mes_number - len`, as an `int`, and each next one
with the next number. So the labels of a frame end one before the number of its last message.
-/

namespace Communicator

variable (E : Env) (w : World) (f : Incoming)

/-- Message `i` of the package a frame enqueued has the number it has on the device, where the last
one has `last_mes_number`. -/
def Numbered (texts : List Text) (i : ℕ) : Prop :=
  ∃ x, (processMessage E w f.bytes).2.backend.accepted[w.backend.accepted.length + i]? = some x
    ∧ x.mesNumber = ((f.message.lastMesNumber - UInt32.ofNat texts.length + 1
      + UInt32.ofNat i).toNat : ℤ)

theorem toInt32_emod (u : UInt32) : u.toInt32.toInt % 4294967296 = u.toNat := by
  have hlt := u.toNat_lt
  rw [Int32.toInt, UInt32.toBitVec_toInt32, BitVec.toInt_eq_toNat_bmod, UInt32.toNat_toBitVec]
  have h : (Int.bmod u.toNat 4294967296) % 4294967296 = (u.toNat : ℤ) % 4294967296 := Int.bmod_emod
  rw [show (2 : ℕ) ^ 32 = 4294967296 by norm_num, h]
  omega

/-- The labels go on from `u`, so none is the one after it, wherever the numbers wrap. -/
theorem label_ne (u : UInt32) (i : ℕ) :
    u.toInt32.toInt + i ≠ ((u + 1 + UInt32.ofNat i).toNat : ℤ) := by
  have hu := toInt32_emod u
  have hlt := u.toNat_lt
  rw [UInt32.toNat_add, UInt32.toNat_add, UInt32.toNat_one, UInt32.toNat_ofNat']
  omega

theorem labelled_getElem? (c fw : UInt32) (first : ℤ) (texts : List Text) {i : ℕ} {x : InfoMessage}
    (h : (labelled c fw first texts)[i]? = some x) : x.mesNumber = first + i := by
  have hm := congrArg (·[i]?) (map_mesNumber_labelled c fw first texts)
  have hi : i < texts.length := by
    have := (List.getElem?_eq_some_iff.1 h).1
    rwa [length_labelled] at this
  simp only [List.getElem?_map, h, Option.map_some, List.getElem?_range hi] at hm
  exact Option.some.inj hm

variable {E w f}

/-- A data frame whose handler returned was taken as a whole. -/
theorem taken_of_returned {texts : List Text} (hd : f.IsData) (h0 : f.message.data ≠ [])
    (hret : (processMessage E w f.bytes).1 = .returned ())
    (hp : parseInfoPackage E f.bytes = .returned texts) :
    processMessage E w f.bytes = (.returned (), w.taken f.message texts) := by
  rw [processMessage_kind, Incoming.kind_of_isData hd] at hret ⊢
  rcases f.dataKind_cases (E := E) with ⟨-, -, h⟩ | ⟨texts', hk, h9, hi⟩ | ⟨e, hk⟩ | hk
  · exact absurd h h0
  · rw [Incoming.bytes_eq, parseInfoPackage_bytes E f.message h9 f.trailer_ne_nil, hi] at hp
    obtain rfl := Outcome.returned.inj hp
    rw [hk] at hret ⊢
    have hc := handle_package_cases w f.message texts'
    generalize w.handle (.package f.message texts') = r at hret hc
    cases hc with
    | taken => rfl
    | full => simp at hret
    | overflow => simp at hret
  · rw [hk] at hret
    simp [World.handle] at hret
  · rw [hk] at hret
    simp [World.handle] at hret

/-- No message of any accepted frame has the number it has on the device. -/
theorem not_numbered {texts : List Text} (hd : f.IsData) (h0 : f.message.data ≠ [])
    (hret : (processMessage E w f.bytes).1 = .returned ())
    (hp : parseInfoPackage E f.bytes = .returned texts) (i : ℕ) : ¬ Numbered E w f texts i := by
  rintro ⟨x, hx, hn⟩
  rw [taken_of_returned hd h0 hret hp, World.taken_shared, BaseImpl.append_accepted,
    List.getElem?_append_right (by omega), Nat.add_sub_cancel_left] at hx
  rw [labelled_getElem? _ _ _ _ hx] at hn
  exact label_ne _ _ hn

theorem not_numbered_oneEvent : ¬ Numbered eventOnly (downloading 1)
    (.alone (oneEvent TmCode.cCurrentData 6)) (blockMessages eventOnly [0x0A, 1, 5]) 0 :=
  not_numbered (.inl rfl) (by decide) (by decide +kernel) (by decide +kernel) 0

/-- Of the records 1 and 2 the second gets the number 1. -/
theorem twoEvents_numbered_one :
    (processMessage eventOnly (downloading 2) (Incoming.alone twoEvents).bytes).1 = .returned ()
      ∧ ¬ Numbered eventOnly (downloading 2) (.alone twoEvents)
        ([[0x0A, 1, 5], [0x0A, 1, 6]].flatMap (blockMessages eventOnly)) 1 := by
  refine ⟨by decide +kernel, ?_⟩
  have hl : ((processMessage eventOnly (downloading 2) (Incoming.alone twoEvents).bytes).2
      |>.backend.accepted[1]?).map (·.mesNumber) = some 1 := by
    decide +kernel
  rintro ⟨x, hx, hn⟩
  have hx' : (processMessage eventOnly (downloading 2) (Incoming.alone twoEvents).bytes).2
      |>.backend.accepted[1]? = some x := hx
  rw [hx', Option.map_some, Option.some.injEq, hn] at hl
  exact absurd hl (by decide +kernel)

end Communicator
