import Communicator.Threads
import Communicator.Proofs.FrameSteps
import Communicator.Proofs.Leftover
import Communicator.Proofs.Redelivery

/-!
# Turns

What one turn of the network thread does (`Threads.turn_cases`): a frame that is not a package is
handled in one, the messages of a package go into the queue one a turn. So whatever the two threads
do in whichever order is a run of the storage (`threads_database`).
-/

namespace Communicator

open Lts

section Handlers

variable {E : Env} {w : World} {hdr : List UInt8}

/-- How the loop over the messages ends and what is done behind it. -/
def finishMessages (hdr : List UInt8) : Outcome Unit × World → Outcome Unit × World
  | (.returned _, w) =>
    match endMessages w hdr with
    | none => (.undefined, w)
    | some w => (.returned (), w)
  | (.threw e, w) => (.threw e, w.stop)
  | (.undefined, w) => (.undefined, w)

/-- The two handlers that get to the loop, in one. -/
theorem processMessage_carries (h : carriesMessages hdr = true) : processMessage E w hdr =
    if !checkLength DataResponse.sizeof hdr then (.threw .wrongMessageSize, w.stop)
    else stopOnThrow (if TransportHeader.cmd hdr = TmCode.cCurrentData then
      match acceptData E w hdr with
      | (.returned _, w') => (.returned (), w'.sendDelete.setProtocolState .waitFinalDeleteConfirm)
      | r => r
      else acceptData E w hdr) := by
  unfold carriesMessages at h
  rw [Bool.or_eq_true, Bool.and_eq_true, beq_iff_eq, beq_iff_eq, bne_iff_ne] at h
  rw [processMessage_eq]
  unfold dispatch processCurrentData processArchiveData
  rcases h with h | ⟨h, h0⟩
  · rw [h, if_neg (by decide), if_pos rfl, if_pos rfl]
    split <;> rfl
  · have hne : ¬ TmCode.cArchiveData = TmCode.cCurrentData := by decide
    rw [h, if_neg (by decide), if_neg hne, if_neg hne, if_pos rfl, if_neg h0]
    split <;> rfl

/-- What such a handler does, by how far it gets before the loop over the messages. -/
theorem processMessage_messages (h : carriesMessages hdr = true) :
    match beginMessages E hdr with
    | .returned (mesNumber, messages) =>
      processMessage E w hdr = finishMessages hdr (w.enqueue mesNumber 0 messages)
    | .threw e => processMessage E w hdr = (.threw e, w.stop)
    | .undefined => (processMessage E w hdr).1 = .undefined := by
  rw [processMessage_carries h]
  unfold beginMessages
  by_cases hc : (!checkLength DataResponse.sizeof hdr) = true
  · rw [if_pos hc, if_pos hc]
  · rw [if_neg hc, if_neg hc]
    unfold acceptData processInfoMessages
    rcases parseInfoPackage E hdr with messages | e | _
    · rcases hl : DataResponse.lastMesNumber.read hdr with _ | last
      · dsimp only
        split <;> rfl
      · dsimp only
        rcases w.enqueue (firstLabel (UInt32.ofNat last) messages.length) 0 messages
          with ⟨_ | e | _, w'⟩
        · unfold finishMessages endMessages
          rw [hl]
          dsimp only
          split <;> rfl
        · split <;> rfl
        · split <;> rfl
    · dsimp only
      split <;> rfl
    · dsimp only
      split <;> rfl

theorem processMessage_refused (h : carriesMessages hdr = true) {e : Fault}
    (hb : beginMessages E hdr = .threw e) : processMessage E w hdr = (.threw e, w.stop) := by
  have hm := processMessage_messages (E := E) (w := w) h
  rw [hb] at hm
  exact hm

theorem processMessage_misread (h : carriesMessages hdr = true)
    (hb : beginMessages E hdr = .undefined) : (processMessage E w hdr).1 = .undefined := by
  have hm := processMessage_messages (E := E) (w := w) h
  rw [hb] at hm
  exact hm

theorem processMessage_begins (h : carriesMessages hdr = true) {mesNumber : ℤ}
    {messages : List Text} (hb : beginMessages E hdr = .returned (mesNumber, messages)) :
    processMessage E w hdr = finishMessages hdr (w.enqueue mesNumber 0 messages) := by
  have hm := processMessage_messages (E := E) (w := w) h
  rw [hb] at hm
  exact hm

end Handlers

section Frame

open TransportHeader

variable {E : Env} {f : Incoming}

theorem carriesMessages_iff : carriesMessages f.bytes = true ↔ f.message.cmd = TmCode.cCurrentData
    ∨ f.message.cmd = TmCode.cArchiveData ∧ f.message.data.length ≠ 0 := by
  rw [Incoming.bytes_eq, carriesMessages, cmd_bytes, dataLen_bytes, Bool.or_eq_true,
    Bool.and_eq_true, beq_iff_eq, beq_iff_eq, bne_iff_ne]

theorem isData_of_carries (h : carriesMessages f.bytes = true) : f.IsData :=
  (carriesMessages_iff.1 h).imp id And.left

theorem kind_of_carries (h : carriesMessages f.bytes = true) : f.kind E
    = if f.message.data.length < 7 then .refused .wrongMessageSize
      else if f.message.data.length < 9 then .misjudged
      else f.packageKind E := by
  have h0 : ¬ (f.message.cmd = TmCode.cArchiveData ∧ f.message.data.length = 0) := by
    rintro ⟨hc, h0⟩
    rcases carriesMessages_iff.1 h with hc' | ⟨-, hne⟩
    · simp [hc, TmCode.cArchiveData, TmCode.cCurrentData] at hc'
    · exact hne h0
  rw [Incoming.kind_of_isData (isData_of_carries h), Incoming.dataKind, if_neg h0]

/-- Of a package of seven or eight bytes the loop over the blocks does not find the end. -/
theorem parseInfoPackage_misjudged (hl : f.message.data.length = 7 ∨ f.message.data.length = 8) :
    parseInfoPackage E f.bytes = .undefined := by
  have hlen : 2 ^ 64 - 2 ≤ DataResponse.getImLength f.bytes := by
    rw [Incoming.bytes_eq, DataResponse.getImLength, getFullLength_bytes]
    rcases hl with hl | hl <;> simp [hl, DataResponse.sizeof, sizeSub]
  have hshort : f.bytes.length < 2 ^ 63 := f.length_lt
  exact parseLoop_undefined E _ (by omega) _ 0 [] (Nat.zero_le _)

/-- What a data handler is left with at the loop over the messages. -/
inductive Beginning (E : Env) (f : Incoming) : Outcome (ℤ × List Text) → Prop
  | package (texts : List Text) (kind : f.kind E = .package f.message texts) :
    Beginning E f (.returned (firstLabel f.message.lastMesNumber texts.length, texts))
  | refused (e : Fault) (kind : f.kind E = .refused e) : Beginning E f (.threw e)
  | misjudged (kind : f.kind E = .misjudged) : Beginning E f .undefined

theorem beginMessages_cases (h : carriesMessages f.bytes = true) :
    Beginning E f (beginMessages E f.bytes) := by
  have hkind := kind_of_carries (E := E) h
  have hcheck : checkLength DataResponse.sizeof f.bytes = true ↔ 7 ≤ f.message.data.length := by
    rw [Incoming.bytes_eq, checkLength_bytes, DataResponse.sizeof]
    omega
  unfold beginMessages
  rcases Nat.lt_or_ge f.message.data.length 7 with h7 | h7
  · rw [if_pos h7] at hkind
    have hno : (!checkLength DataResponse.sizeof f.bytes) = true := by
      rw [Bool.not_eq_true', Bool.eq_false_iff, Ne, hcheck]
      omega
    rw [if_pos hno]
    exact .refused _ hkind
  rw [if_neg (Nat.not_lt.2 h7)] at hkind
  rw [hcheck.2 h7, Bool.not_true, if_neg Bool.false_ne_true]
  rcases Nat.lt_or_ge f.message.data.length 9 with h9 | h9
  · rw [if_pos h9] at hkind
    rw [parseInfoPackage_misjudged (by omega)]
    exact .misjudged hkind
  rw [if_neg (Nat.not_lt.2 h9), Incoming.packageKind] at hkind
  have hparse : parseInfoPackage E f.bytes = infoMessages E f.message.imData := by
    rw [Incoming.bytes_eq]
    exact parseInfoPackage_bytes E f.message h9 f.trailer_ne_nil
  have hlast : DataResponse.lastMesNumber.read f.bytes = some (le (f.message.data.take 4)) := by
    rw [Incoming.bytes_eq]
    exact Member.read_bytes f.message _ (f := DataResponse.lastMesNumber) (by decide)
      (by simp [DataResponse.lastMesNumber]; omega)
  rw [hparse, hlast]
  rcases hi : infoMessages E f.message.imData with texts | e | _ <;> rw [hi] at hkind
  · exact .package texts hkind
  · exact .refused e hkind
  · exact absurd hi (infoMessages_ne_undefined E _)

theorem drop_getFullLength (f : Incoming) : f.bytes.drop (getFullLength f.bytes) = f.rest := by
  have hlen : getFullLength f.bytes = f.message.frame.length := by
    rw [Incoming.bytes_eq, getFullLength_bytes, frame_length]
  rw [hlen]
  exact List.drop_left

end Frame

/-! ## One turn -/

section Turn

variable {κ : Type} [DecidableEq κ] {E : Env} {s s' : Threads κ} {k : κ} {start : List UInt8}

theorem System.put_world (s : System κ) (w : World) (r : Receiver) : (s.put k w r).world k = w := by
  rw [System.world, System.put_peers]
  rfl

theorem System.put_put (s : System κ) (w w' : World) (r r' : Receiver) :
    (s.put k w r).put k w' r' = s.put k w' r' := by
  unfold System.put
  rw [Function.update_idem]

/-- The first messages of a package as they go into the queue. -/
def World.entered (w : World) (m : TransportMessage) (texts done : List Text) : List InfoMessage :=
  labelled w.controllerId w.firmwareVersion (firstLabel m.lastMesNumber texts.length) done

/-- The loop over the messages of a frame, behind those of `done`. -/
def Incoming.addingTask (f : Incoming) (done rest : List Text) : Task :=
  .adding f.bytes (firstLabel f.message.lastMesNumber (done ++ rest).length) done.length rest

/-- What the network thread is at, and what it has added to the queue of a frame it is not done
with. -/
inductive Underway (E : Env) (s : Threads κ) : List InfoMessage → Prop
  | idle (task : s.task = none) : Underway E s []
  | scanning (k : κ) (start : List UInt8) (task : s.task = some (k, .scanning start))
    (short : start.length < 2 ^ 63) : Underway E s []
  | adding (k : κ) (f : Incoming) (done rest : List Text)
    (task : s.task = some (k, f.addingTask done rest))
    (kind : f.kind E = .package f.message (done ++ rest))
    (fits : done ≠ [] → firstLabel f.message.lastMesNumber (done ++ rest).length + done.length
      ≤ World.intMax + 1) :
    Underway E s ((s.system.world k).entered f.message (done ++ rest) done)

/-- What a turn on connection `k` does: to what was added so far of a frame, to the threads, and
which frame it is done with. -/
inductive Turning (E : Env) (s : Threads κ) (k : κ) :
    List InfoMessage → Threads κ → List InfoMessage → List Incoming → Prop
  | waits (start : List UInt8) (task : s.task = some (k, .scanning start))
    (more : nextFrame start = .more) :
    Turning E s k []
      (s.leave k (s.system.world k) ⟨(s.system.peers k).receiver.state, start⟩) [] []
  | damaged (start : List UInt8) (task : s.task = some (k, .scanning start))
    (bad : nextFrame start = .bad) :
    Turning E s k []
      (s.leave k (s.system.world k).stop ⟨(s.system.peers k).receiver.state, start⟩) [] []
  | begins (start g : List UInt8) (f : Incoming) (task : s.task = some (k, .scanning start))
    (found : nextFrame start = .item g f.message.frame f.rest) (texts : List Text)
    (kind : f.kind E = .package f.message texts) :
    Turning E s k [] (s.goOn k (s.system.world k) (f.addingTask [] texts)) [] []
  | handled (start g : List UInt8) (f : Incoming) (task : s.task = some (k, .scanning start))
    (found : nextFrame start = .item g f.message.frame f.rest) (w : World)
    (other : ∀ m texts, f.kind E ≠ .package m texts)
    (returned : (s.system.world k).handle (f.kind E) = (.returned (), w)) :
    Turning E s k [] (s.goOn k w (.scanning f.rest)) [] [f]
  | refused (start g : List UInt8) (f : Incoming) (task : s.task = some (k, .scanning start))
    (found : nextFrame start = .item g f.message.frame f.rest) (e : Fault)
    (kind : f.kind E = .refused e) :
    Turning E s k [] (s.leave k (s.system.world k).stop (s.system.peers k).receiver) [] [f]
  | added (f : Incoming) (done : List Text) (body : Text) (rest : List Text) (x : InfoMessage)
    (task : s.task = some (k, f.addingTask done (body :: rest)))
    (entered : (s.system.world k).entered f.message (done ++ body :: rest) (done ++ [body])
      = (s.system.world k).entered f.message (done ++ body :: rest) done ++ [x])
    (room : s.system.database.worker.queue.messages.length
      < s.system.database.worker.queue.maxMessages) :
    Turning E s k ((s.system.world k).entered f.message (done ++ body :: rest) done)
      (s.goOn k ((s.system.world k).push [x]) (f.addingTask (done ++ [body]) rest))
      ((s.system.world k).entered f.message (done ++ body :: rest) (done ++ [body])) []
  | full (f : Incoming) (done : List Text) (body : Text) (rest : List Text)
    (task : s.task = some (k, f.addingTask done (body :: rest)))
    (kind : f.kind E = .package f.message (done ++ body :: rest))
    (fits : firstLabel f.message.lastMesNumber (done ++ body :: rest).length + done.length
      ≤ World.intMax) :
    Turning E s k ((s.system.world k).entered f.message (done ++ body :: rest) done)
      (s.leave k (s.system.world k).stop (s.system.peers k).receiver) [] [f]
  | ended (f : Incoming) (texts : List Text) (task : s.task = some (k, f.addingTask texts []))
    (kind : f.kind E = .package f.message texts)
    (fits : texts ≠ [] → firstLabel f.message.lastMesNumber texts.length + texts.length
      ≤ World.intMax + 1) :
    Turning E s k ((s.system.world k).entered f.message texts texts)
      (s.goOn k (((s.system.world k).setLastCounter (s.system.world k).controllerId
        f.message.lastMesNumber).settle f.message.cmd) (.scanning f.rest)) [] [f]

theorem labelled_concat (c firmware : UInt32) : ∀ (first : ℤ) (texts : List Text) (body : Text),
    labelled c firmware first (texts ++ [body])
      = labelled c firmware first texts ++ [⟨c, firmware, first + texts.length, body⟩]
  | first, [], body => by simp [labelled]
  | first, text :: texts, body => by
    rw [List.cons_append, labelled, labelled_concat c firmware (first + 1) texts body, labelled,
      List.cons_append, List.length_cons]
    push_cast
    rw [show first + 1 + (texts.length : ℤ) = first + (texts.length + 1) by ring]

theorem endMessages_bytes (w : World) {f : Incoming} {m : TransportMessage} {texts : List Text}
    (kind : f.kind E = .package m texts) : endMessages w f.bytes
      = some ((w.setLastCounter w.controllerId f.message.lastMesNumber).settle f.message.cmd) := by
  have hcases := f.kind_cases E
  rw [kind] at hcases
  cases hcases with
  | package _ hd h9 =>
    have hlast : DataResponse.lastMesNumber.read f.bytes
        = some (le (f.message.data.take 4)) := by
      rw [Incoming.bytes_eq]
      exact Member.read_bytes f.message _ (f := DataResponse.lastMesNumber) (by decide)
        (by simp [DataResponse.lastMesNumber]; omega)
    have hcmd : TransportHeader.cmd f.bytes = f.message.cmd := by
      rw [Incoming.bytes_eq, cmd_bytes]
    rw [endMessages, hlast, hcmd, World.settle]
    dsimp only
    split <;> rfl

theorem Threads.scan_eq (start : List UInt8) : s.scan E k start
    = match nextFrame start with
      | .more => some (s.leave k (s.system.world k)
          ⟨(s.system.peers k).receiver.state, start⟩)
      | .bad => some (s.leave k (s.system.world k).stop
          ⟨(s.system.peers k).receiver.state, start⟩)
      | .item _ frame next => s.dispatch E k (frame ++ next) := by
  rw [Threads.scan, nextFrame]
  simp only [show start.dropWhile (· != 0xC0) = fromStart start from rfl]
  by_cases h0 : (fromStart start).isEmpty
  · simp [List.isEmpty_iff.1 h0, TransportHeader.sizeof]
  rw [if_neg h0]
  by_cases h1 : (fromStart start).length < TransportHeader.sizeof
  · simp only [h1, if_true]
  by_cases h2 : (fromStart start).length < TransportHeader.getFullLength (fromStart start)
  · simp only [h1, h2, if_true, if_false]
  by_cases h3 : TransportHeader.checkCrc (fromStart start) = true
  · simp only [h1, h2, h3, Bool.not_true, Bool.false_eq_true, if_false, List.take_append_drop]
  · simp only [h1, h2, h3, Bool.not_false, if_true, if_false]

theorem handle_threw {w : World} {kind : Kind} (other : ∀ m texts, kind ≠ .package m texts)
    {e : Fault} {w' : World} (h : w.handle kind = (.threw e, w')) :
    kind = .refused e ∧ w' = w.stop := by
  cases kind with
  | package m texts => exact absurd rfl (other m texts)
  | refused e' =>
    obtain ⟨he, hw⟩ := Prod.mk.inj h
    exact ⟨congrArg Kind.refused (Outcome.threw.inj he), hw.symm⟩
  | _ => cases h

theorem not_package_of_carries {f : Incoming} (h : ¬ carriesMessages f.bytes = true)
    (m : TransportMessage) (texts : List Text) : f.kind E ≠ .package m texts := by
  intro hk
  have hcases := f.kind_cases E
  rw [hk] at hcases
  cases hcases with
  | package _ hd h9 _ =>
    refine h (carriesMessages_iff.2 (hd.imp id fun hc => ⟨hc, ?_⟩))
    omega

theorem turning_dispatch {g : List UInt8} {f : Incoming}
    (task : s.task = some (k, .scanning start))
    (found : nextFrame start = .item g f.message.frame f.rest)
    (h : s.dispatch E k f.bytes = some s') :
    ∃ fs, Turning E s k [] s' [] fs ∧ Underway E s' [] := by
  have hrest : f.rest.length < 2 ^ 63 := by
    have hlen := f.length_lt
    rw [List.length_append] at hlen
    omega
  unfold Threads.dispatch at h
  split at h
  · rename_i hcarries
    have hb := beginMessages_cases (E := E) hcarries
    generalize beginMessages E f.bytes = r at hb h
    cases hb with
    | package texts kind =>
      obtain rfl := Option.some.inj h
      exact ⟨[], .begins start g f task found texts kind,
        .adding k f [] texts rfl kind fun h => absurd rfl h⟩
    | refused e kind =>
      obtain rfl := Option.some.inj h
      exact ⟨[f], .refused start g f task found e kind, .idle rfl⟩
    | misjudged kind => cases h
  · rename_i hcarries
    have hother := not_package_of_carries (E := E) hcarries
    dsimp only at h
    rw [processMessage_kind] at h
    rcases hr : (s.system.world k).handle (f.kind E) with ⟨_ | e | _, w⟩ <;> rw [hr] at h
    · obtain rfl := Option.some.inj h
      rw [drop_getFullLength]
      exact ⟨[f], .handled start g f task found w hother hr, .scanning k f.rest rfl hrest⟩
    · obtain ⟨hk, rfl⟩ := handle_threw hother hr
      obtain rfl := Option.some.inj h
      exact ⟨[f], .refused start g f task found e hk, .idle rfl⟩
    · cases h

/-- The loop over the messages behind one more of them. -/
theorem underway_added {f : Incoming} {done rest : List Text} {body : Text} (x : InfoMessage)
    (kind : f.kind E = .package f.message (done ++ body :: rest))
    (fits : firstLabel f.message.lastMesNumber (done ++ body :: rest).length + done.length
      ≤ World.intMax) :
    Underway E (s.goOn k ((s.system.world k).push [x]) (f.addingTask (done ++ [body]) rest))
      ((s.system.world k).entered f.message (done ++ body :: rest) (done ++ [body])) := by
  have happend : done ++ [body] ++ rest = done ++ body :: rest := by simp
  have hp : Underway E (s.goOn k ((s.system.world k).push [x]) (f.addingTask (done ++ [body]) rest))
      _ := .adding k f (done ++ [body]) rest rfl (happend ▸ kind) fun _ => by
    have hlen : (done ++ [body]).length = done.length + 1 := by simp
    rw [happend, hlen]
    push_cast
    omega
  rw [happend, Threads.goOn, System.put_world] at hp
  exact hp

theorem turning_add {f : Incoming} {done rest : List Text}
    (task : s.task = some (k, f.addingTask done rest))
    (kind : f.kind E = .package f.message (done ++ rest))
    (fits : done ≠ [] → firstLabel f.message.lastMesNumber (done ++ rest).length + done.length
      ≤ World.intMax + 1)
    (h : s.add k f.bytes (firstLabel f.message.lastMesNumber (done ++ rest).length) done.length
      rest = some s') :
    ∃ after fs, Turning E s k ((s.system.world k).entered f.message (done ++ rest) done) s' after fs
      ∧ Underway E s' after := by
  have hrest : f.rest.length < 2 ^ 63 := by
    have hlen := f.length_lt
    rw [List.length_append] at hlen
    omega
  cases rest with
  | nil =>
    rw [List.append_nil] at kind fits h ⊢
    rw [Threads.add, endMessages_bytes _ kind, Option.map_some, drop_getFullLength] at h
    obtain rfl := Option.some.inj h
    exact ⟨[], [f], .ended f done task kind fits, .scanning k f.rest rfl hrest⟩
  | cons body rest =>
    rw [Threads.add] at h
    unfold World.label at h
    by_cases hl : firstLabel f.message.lastMesNumber (done ++ body :: rest).length
        + (done.length : ℤ) ≤ World.intMax
    · rw [if_pos hl] at h
      dsimp only at h
      rcases Nat.lt_or_ge s.system.database.worker.queue.messages.length
        s.system.database.worker.queue.maxMessages with room | full
      · have hentered := labelled_concat (s.system.world k).controllerId
          (s.system.world k).firmwareVersion
          (firstLabel f.message.lastMesNumber (done ++ body :: rest).length) done body
        rw [BaseImpl.addMessage_room (b := (s.system.world k).backend) room] at h
        obtain rfl := Option.some.inj h
        have htask : f.addingTask (done ++ [body]) rest = .adding f.bytes
            (firstLabel f.message.lastMesNumber (done ++ body :: rest).length) (done.length + 1)
            rest := by
          simp [Incoming.addingTask]
        rw [← htask]
        exact ⟨_, [], .added f done body rest _ task hentered room, underway_added _ kind hl⟩
      · rw [BaseImpl.addMessage_full (b := (s.system.world k).backend) full] at h
        obtain rfl := Option.some.inj h
        exact ⟨[], [f], .full f done body rest task kind hl, .idle rfl⟩
    · rw [if_neg hl] at h
      cases h

/-- A turn is one of the cases. -/
theorem Threads.turn_cases {before : List InfoMessage} (hp : Underway E s before)
    (h : s.turn E = some s') :
    ∃ k after fs, Turning E s k before s' after fs ∧ Underway E s' after := by
  unfold Threads.turn at h
  cases hp with
  | idle task =>
    rw [task] at h
    cases h
  | scanning k start task short =>
    rw [task] at h
    dsimp only at h
    rw [Threads.scan_eq] at h
    split at h
    · rename_i more
      obtain rfl := Option.some.inj h
      exact ⟨k, [], [], .waits start task more, .idle rfl⟩
    · rename_i bad
      obtain rfl := Option.some.inj h
      exact ⟨k, [], [], .damaged start task bad, .idle rfl⟩
    · rename_i g frame next found
      obtain ⟨-, m, rfl⟩ := nextFrame_is_frame found
      obtain ⟨hstart, -⟩ := nextFrame_item found
      have hlen : (m.frame ++ next).length < 2 ^ 63 := by
        rw [hstart, List.append_assoc, List.length_append] at short
        omega
      obtain ⟨fs, hturn, hp'⟩ := turning_dispatch (f := ⟨m, next, hlen⟩) task found h
      exact ⟨k, [], fs, hturn, hp'⟩
  | adding k f done rest task kind fits =>
    rw [task] at h
    obtain ⟨after, fs, hturn⟩ := turning_add task kind fits h
    exact ⟨k, after, fs, hturn⟩

end Turn

section Others

variable {κ : Type} [DecidableEq κ] {E : Env} {s s' : Threads κ} {k : κ}

/-- How a read begins: it is refused, or the thread is at the head of the loop of `recive_impl`. -/
inductive Reads (s : Threads κ) (k : κ) (data : List UInt8) : Threads κ → Prop
  | refused (bad : ¬ (data.length ≠ 0 ∧ data.length < asyncBufferSize)) :
    Reads s k data (s.leave k (s.system.world k).stop (s.system.peers k).receiver)
  | begun (good : data.length ≠ 0 ∧ data.length < asyncBufferSize)
    (short : ((s.system.peers k).receiver.storeData data).buffer.length < 2 ^ 63) :
    Reads s k data ⟨s.system.put k (s.system.world k) ((s.system.peers k).receiver.storeData data),
      some (k, .scanning ((s.system.peers k).receiver.storeData data).buffer)⟩

theorem Threads.read_cases {data : List UInt8} (h : s.read k data = some s') :
    s.task = none ∧ Reads s k data s' := by
  unfold Threads.read at h
  split at h
  · cases h
  · rename_i task
    refine ⟨task, ?_⟩
    dsimp only at h
    split at h
    · rename_i good
      split at h
      · rename_i hmax
        obtain rfl := Option.some.inj h
        refine .begun good ?_
        rw [maxSize] at hmax
        omega
      · cases h
    · rename_i bad
      obtain rfl := Option.some.inj h
      exact .refused bad

/-- Everything but a read and a turn is a step of the storage. -/
theorem Threads.store_cases {e : SystemEvent κ} (he : ∀ k data, e ≠ .read k data)
    (h : s.step E (.system e) = some s') :
    ∃ d d', s.system.database.step InfoMessage.text d = some d' ∧ (∀ msg, d ≠ .addMessage msg)
      ∧ s' = { s with system := { s.system with database := d' } } := by
  have hstore : ∀ d, (∀ msg, d ≠ .addMessage msg) →
      (s.system.store d).map (fun system => { s with system }) = some s' →
      ∃ d d', s.system.database.step InfoMessage.text d = some d' ∧ (∀ msg, d ≠ .addMessage msg)
        ∧ s' = { s with system := { s.system with database := d' } } := by
    intro d hd h
    obtain ⟨system, hsystem, rfl⟩ := Option.map_eq_some_iff.1 h
    obtain ⟨d', hd', rfl⟩ := Option.map_eq_some_iff.1 hsystem
    exact ⟨d, d', hd', hd, rfl⟩
  cases e with
  | read k data => exact absurd rfl (he k data)
  | work a => exact hstore (.work a) (by simp) h
  | interrupt => exact hstore .interrupt (by simp) h
  | lose => exact hstore .lose (by simp) h

omit [DecidableEq κ] in
/-- What the storage does leaves the network thread where it is. -/
theorem Underway.store {before : List InfoMessage} (hp : Underway E s before)
    (d : Database InfoMessage) :
    Underway E { s with system := { s.system with database := d } } before := by
  cases hp with
  | idle task => exact .idle task
  | scanning k start task short => exact .scanning k start task short
  | adding k f done rest task kind fits => exact .adding k f done rest task kind fits

theorem Underway.step {before : List InfoMessage} (hp : Underway E s before) {e : ThreadsEvent κ}
    (h : s.step E e = some s') : ∃ after, Underway E s' after := by
  cases e with
  | turn =>
    obtain ⟨k, after, fs, -, hp'⟩ := Threads.turn_cases hp h
    exact ⟨after, hp'⟩
  | system e =>
    by_cases he : ∃ k data, e = .read k data
    · obtain ⟨k, data, rfl⟩ := he
      obtain ⟨-, hr⟩ := Threads.read_cases h
      cases hr with
      | refused bad => exact ⟨[], .idle rfl⟩
      | begun good short => exact ⟨[], .scanning k _ rfl short⟩
    · obtain ⟨d, d', -, -, rfl⟩ := Threads.store_cases (fun k data hr => he ⟨k, data, hr⟩) h
      exact ⟨before, hp.store d'⟩

end Others

/-! ## The storage -/

section Storage

variable {κ : Type} [DecidableEq κ] {E : Env} {s s' : Threads κ} {k : κ}

/-- Only the loop over the messages uses the queue. -/
theorem handle_backend {w : World} {kind : Kind} (other : ∀ m texts, kind ≠ .package m texts) :
    (w.handle kind).2.backend = w.backend := by
  cases kind with
  | ident id firmware => exact congrArg Shared.backend (World.start_shared _)
  | confirm => exact congrArg Shared.backend (World.confirmed_shared _)
  | archiveEnd => exact congrArg Shared.backend (World.archiveEnded_shared _)
  | package m texts => exact absurd rfl (other m texts)
  | refused e => rfl
  | misjudged => rfl
  | ignored => rfl

/-- A turn adds one message to the queue, or leaves the storage alone. -/
theorem Turning.database {before after : List InfoMessage} {fs : List Incoming}
    (h : Turning E s k before s' after fs) : s'.system.database = s.system.database
      ∨ ∃ x, s.system.database.step InfoMessage.text (.addMessage x) = some s'.system.database
        ∧ s'.system.database.worker.queue = s.system.database.worker.queue.append [x] := by
  have hput : ∀ (w : World) (r : Receiver), w.backend = s.system.database.worker.queue →
      (s.system.put k w r).database = s.system.database := by
    intro w r hw
    rw [System.put, hw]
  cases h with
  | waits => exact .inl (hput _ _ rfl)
  | damaged => exact .inl (hput _ _ rfl)
  | begins => exact .inl (hput _ _ rfl)
  | handled start g f task found w other returned =>
    have hback := handle_backend (w := s.system.world k) other
    rw [returned] at hback
    exact .inl (hput _ _ hback)
  | refused => exact .inl (hput _ _ rfl)
  | added f done body rest x task entered room =>
    refine .inr ⟨x, ?_, rfl⟩
    rw [Database.step, Worker.step, BaseImpl.addMessage_room room]
    rfl
  | full => exact .inl (hput _ _ rfl)
  | ended f texts =>
    exact .inl (hput _ _ (congrArg Shared.backend (World.settle_shared _ f.message.cmd)))

/-- Whatever the two threads do in whichever order is, for the storage, a run of the worker with its
database. -/
theorem threads_database : Simulates (Threads.step (κ := κ) E) (Database.step InfoMessage.text)
    fun s d => s.system.database = d ∧ ∃ before, Underway E s before := by
  rintro s d e s' ⟨rfl, before, hp⟩ hs
  have hone : ∀ e, s.system.database.step InfoMessage.text e = some s'.system.database →
      ∃ ds d', run (Database.step InfoMessage.text) s.system.database ds = some d'
        ∧ s'.system.database = d' ∧ ∃ before, Underway E s' before := by
    intro e h
    refine ⟨[e], _, ?_, rfl, hp.step hs⟩
    rw [run, h]
    rfl
  have hnone : s'.system.database = s.system.database →
      ∃ ds d', run (Database.step InfoMessage.text) s.system.database ds = some d'
        ∧ s'.system.database = d' ∧ ∃ before, Underway E s' before :=
    fun h => ⟨[], _, rfl, h, hp.step hs⟩
  cases e with
  | turn =>
    obtain ⟨k, after, fs, hturn, -⟩ := Threads.turn_cases hp hs
    rcases hturn.database with h | ⟨x, h, -⟩
    · exact hnone h
    · exact hone _ h
  | system e =>
    by_cases he : ∃ k data, e = .read k data
    · obtain ⟨k, data, rfl⟩ := he
      obtain ⟨-, hr⟩ := Threads.read_cases hs
      cases hr with
      | refused bad => exact hnone rfl
      | begun good short => exact hnone rfl
    · obtain ⟨d, d', hd, -, rfl⟩ := Threads.store_cases (fun k data hr => he ⟨k, data, hr⟩) hs
      exact hone d hd

end Storage

end Communicator
