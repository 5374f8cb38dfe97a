import Communicator.Proofs.Turns

/-!
# Reads

Left alone, the network thread does in its turns what `handle_read` does at once, so every run with
whole reads is one of the two threads (`reads_alone`). Whatever the worker does in between, a read
is over after so many turns, unless one of them is undefined (`reads_end`).
-/

namespace Communicator

open Lts

section Alone

variable {κ : Type} [DecidableEq κ] {E : Env} {k : κ}

/-- Some number of turns with nothing in between. -/
def Turns (E : Env) (s t : Threads κ) : Prop :=
  ∃ n, run (Threads.step E) s (List.replicate n .turn) = some t

theorem Turns.head {s t u : Threads κ} (h : s.turn E = some u) (hu : Turns E u t) :
    Turns E s t := by
  obtain ⟨n, hn⟩ := hu
  refine ⟨n + 1, ?_⟩
  rw [List.replicate_succ, run, Threads.step, h]
  exact hn

theorem Turns.one {s t : Threads κ} (h : s.turn E = some t) : Turns E s t := .head h ⟨0, rfl⟩

theorem Turns.trans {s t u : Threads κ} (h : Turns E s t) (hu : Turns E t u) : Turns E s u := by
  obtain ⟨n, hn⟩ := h
  obtain ⟨m, hm⟩ := hu
  refine ⟨n + m, ?_⟩
  rw [List.replicate_add]
  exact run_trans hn hm

/-- The thread behind a call of `process_message` that ended like this. -/
def Threads.behind (s : Threads κ) (k : κ) (hdr : List UInt8) : Outcome Unit × World →
    Option (Threads κ)
  | (.returned _, w) => some (s.goOn k w (.scanning (hdr.drop (TransportHeader.getFullLength hdr))))
  | (.threw _, w) => some (s.leave k w.stop (s.system.peers k).receiver)
  | (.undefined, _) => none

theorem Threads.goOn_behind (s : Threads κ) (w : World) (task : Task) (hdr : List UInt8)
    (r : Outcome Unit × World) : (s.goOn k w task).behind k hdr r = s.behind k hdr r := by
  rcases r with ⟨_ | e | _, w'⟩
  · simp only [behind, goOn, System.put_put, System.put_peers]
  · simp only [behind, goOn, leave, System.put_put, System.put_peers]
  · rfl

/-- The turns of the loop over the messages, and the one behind it. -/
theorem turns_add {hdr : List UInt8} {mesNumber : ℤ} : ∀ {rest : List Text} {i : ℕ}
    {s u : Threads κ}, s.task = some (k, .adding hdr mesNumber i rest) →
    s.behind k hdr (finishMessages hdr ((s.system.world k).enqueue mesNumber i rest)) = some u →
    Turns E s u
  | [], i, s, u, task, h => by
    have hturn : s.turn E = s.add k hdr mesNumber i [] := by
      rw [Threads.turn, task]
    refine .one (hturn.trans (Eq.trans ?_ h))
    rw [World.enqueue, finishMessages, Threads.add]
    cases endMessages (s.system.world k) hdr <;> rfl
  | body :: rest, i, s, u, task, h => by
    have hturn : s.turn E = s.add k hdr mesNumber i (body :: rest) := by
      rw [Threads.turn, task]
    rw [Threads.add] at hturn
    rw [World.enqueue] at h
    rcases hl : World.label mesNumber i with _ | n <;> rw [hl] at h hturn
    · cases h
    dsimp only at h hturn
    rcases ha : (s.system.world k).backend.addMessage ⟨(s.system.world k).controllerId,
      (s.system.world k).firmwareVersion, n, body⟩ with e | b <;> rw [ha] at h hturn
    · exact .one (hturn.trans h)
    · refine .head hturn (turns_add rfl ?_)
      rw [Threads.goOn_behind, Threads.goOn, System.put_world]
      exact h

theorem turns_dispatch {hdr : List UInt8} {s u : Threads κ}
    (hturn : s.turn E = s.dispatch E k hdr)
    (h : s.behind k hdr (processMessage E (s.system.world k) hdr) = some u) : Turns E s u := by
  unfold Threads.dispatch at hturn
  dsimp only at hturn
  by_cases hcarries : carriesMessages hdr = true
  · rw [if_pos hcarries] at hturn
    rcases hb : beginMessages E hdr with ⟨mesNumber, messages⟩ | e | _ <;> rw [hb] at hturn
    · rw [processMessage_begins hcarries hb] at h
      refine .head hturn (turns_add rfl ?_)
      rw [Threads.goOn_behind, Threads.goOn, System.put_world]
      exact h
    · rw [processMessage_refused hcarries hb] at h
      exact .one (hturn.trans h)
    · have hmisread := processMessage_misread (w := s.system.world k) hcarries hb
      generalize processMessage E (s.system.world k) hdr = r at h hmisread
      obtain ⟨o, w⟩ := r
      obtain rfl : o = .undefined := hmisread
      cases h
  · rw [if_neg hcarries] at hturn
    refine .one (hturn.trans (Eq.trans ?_ h))
    rcases processMessage E (s.system.world k) hdr with ⟨_ | e | _, w⟩ <;> rfl

/-- What `handle_read` leaves behind a call of `recive`. -/
def Threads.settled (s : Threads κ) (k : κ) (a : Reception World) : Option (Threads κ) :=
  match a.outcome with
  | .returned _ => some (s.leave k a.state a.receiver)
  | .threw _ => some (s.leave k a.state.stop a.receiver)
  | .undefined => none

theorem Threads.goOn_settled (s : Threads κ) (w : World) (task : Task) (a : Reception World) :
    (s.goOn k w task).settled k a = s.settled k a := by
  unfold settled leave goOn
  simp only [System.put_put]

/-- The turns of the loop of `recive_impl`, to its end. -/
theorem turns_scan (start : List UInt8) : ∀ (fuel : ℕ) (log : List Dispatch) (s u : Threads κ),
    s.task = some (k, .scanning start) → start.length < fuel →
    s.settled k (reciveLoop (transportProtocol E) (s.system.peers k).receiver fuel
      (s.system.world k) start start log) = some u → Turns E s u := by
  have hturn : ∀ (start : List UInt8) (s : Threads κ), s.task = some (k, .scanning start) →
      s.turn E = s.scan E k start := by
    intro start s task
    rw [Threads.turn, task]
  induction start using framing.scan_induction with
  | more start found =>
    rintro (_ | fuel) log s u task hfuel h
    · omega
    rw [reciveLoop_succ, show nextFrame start = .more from found] at h
    have hscan := hturn start s task
    rw [Threads.scan_eq, show nextFrame start = .more from found] at hscan
    exact .one (hscan.trans h)
  | bad start found =>
    rintro (_ | fuel) log s u task hfuel h
    · omega
    rw [reciveLoop_succ, show nextFrame start = .bad from found] at h
    have hscan := hturn start s task
    rw [Threads.scan_eq, show nextFrame start = .bad from found] at hscan
    exact .one (hscan.trans h)
  | item start g frame next found ih =>
    rintro (_ | fuel) log s u task hfuel h
    · omega
    have hlen := framing.next_item_length found
    rw [reciveLoop_succ, show nextFrame start = .item g frame next from found] at h
    have hscan := hturn start s task
    rw [Threads.scan_eq, show nextFrame start = .item g frame next from found] at hscan
    dsimp only at hscan
    have hdrop : (frame ++ next).drop (TransportHeader.getFullLength (frame ++ next)) = next := by
      obtain ⟨-, -, -, rfl, rfl⟩ := nextFrame_found found
      rw [List.take_append_drop]
    have hdispatch := fun u => turns_dispatch (u := u) hscan
    simp only [transportProtocol] at h
    rcases hr : processMessage E (s.system.world k) (frame ++ next) with ⟨_ | e | _, w⟩ <;>
      rw [hr] at h hdispatch
    · have hgo : Turns E s (s.goOn k w (.scanning next)) := by
        refine hdispatch _ ?_
        rw [Threads.behind, hdrop]
      refine hgo.trans (ih fuel (log ++
        [⟨(s.system.peers k).receiver.buffer.length - (frame ++ next).length, frame,
          .returned ()⟩]) _ u rfl (by omega) ?_)
      rw [Threads.goOn_settled, Threads.goOn, System.put_peers, System.put_world]
      exact h
    · exact hdispatch _ h
    · cases h

/-- With nothing in between, the turns of a read are what `handle_read` does at once. -/
theorem turns_read {s s' : System κ} {data : List UInt8} (h : s.handleRead E k data = some s') :
    ∃ n, run (Threads.step E) ⟨s, none⟩ (.system (.read k data) :: List.replicate n .turn)
      = some ⟨s', none⟩ := by
  have hread : ∀ u, (Threads.read ⟨s, none⟩ k data = some u) → Turns E u ⟨s', none⟩ →
      ∃ n, run (Threads.step E) ⟨s, none⟩ (.system (.read k data) :: List.replicate n .turn)
        = some ⟨s', none⟩ := by
    rintro u hu ⟨n, hn⟩
    refine ⟨n, ?_⟩
    rw [run, Threads.step, hu]
    exact hn
  unfold System.handleRead at h
  by_cases hgood : data.length ≠ 0 ∧ data.length < asyncBufferSize
  · rw [if_pos hgood] at h
    by_cases hmax : ((s.peers k).receiver.storeData data).buffer.length ≤ maxSize
    · rw [if_pos hmax] at h
      refine hread ⟨s.put k (s.world k) ((s.peers k).receiver.storeData data),
        some (k, .scanning ((s.peers k).receiver.storeData data).buffer)⟩ ?_ ?_
      · rw [Threads.read]
        dsimp only
        rw [if_pos hgood, if_pos hmax]
      · refine turns_scan _ _ [] _ _ rfl (Nat.lt_succ_self _) ?_
        unfold Threads.settled Threads.leave
        simp only [System.put_peers, System.put_world, System.put_put]
        unfold reciveImpl at h
        dsimp only at h
        generalize reciveLoop (transportProtocol E) _ _ _ _ _ _ = a at h ⊢
        obtain ⟨_ | e | _, w, r, log, broken⟩ := a
        · rw [← Option.some.inj h]
        · rw [← Option.some.inj h]
        · cases h
    · rw [if_neg hmax] at h
      cases h
  · rw [if_neg hgood] at h
    obtain rfl := Option.some.inj h
    refine hread _ ?_ ⟨0, rfl⟩
    rw [Threads.read]
    dsimp only
    rw [if_neg hgood]
    rfl

/-- So is every step of the server with nothing in between. -/
theorem turns_step {s s' : System κ} {e : SystemEvent κ} (h : s.step E e = some s') :
    ∃ n, run (Threads.step E) ⟨s, none⟩ (.system e :: List.replicate n .turn)
      = some ⟨s', none⟩ := by
  have hother : (s.step E e).map (fun s => (⟨s, none⟩ : Threads κ))
        = Threads.step E ⟨s, none⟩ (.system e) →
      ∃ n, run (Threads.step E) ⟨s, none⟩ (.system e :: List.replicate n .turn)
        = some ⟨s', none⟩ := by
    intro hstep
    rw [h] at hstep
    refine ⟨0, ?_⟩
    rw [run, ← hstep]
    rfl
  cases e with
  | read k data => exact turns_read h
  | work a => exact hother rfl
  | interrupt => exact hother rfl
  | lose => exact hother rfl

/-- Every run in which each read is done at once is one of the two threads. -/
theorem reads_alone (E : Env) (loaded : Counterer) (maxMessages : ℕ) (oracle : Oracle)
    (es : List (SystemEvent κ)) (s : System κ)
    (hs : run (System.step E) (.start loaded maxMessages oracle) es = some s) :
    ∃ ts, ThreadsEvent.given ts = es
      ∧ run (Threads.step E) (.start loaded maxMessages oracle) ts = some ⟨s, none⟩ := by
  refine run_induction (P := fun es s => ∃ ts, ThreadsEvent.given ts = es
    ∧ run (Threads.step E) (.start loaded maxMessages oracle) ts = some ⟨s, none⟩) ?_ ?_ hs
  · exact ⟨[], rfl, rfl⟩
  rintro es s e s' - ⟨ts, hts, hrun⟩ hs
  obtain ⟨n, hn⟩ := turns_step hs
  have hturns : ThreadsEvent.given (List.replicate n (.turn : ThreadsEvent κ)) = [] := by
    refine List.filterMap_eq_nil_iff.2 fun e he => ?_
    rw [List.eq_of_mem_replicate he]
  refine ⟨ts ++ .system e :: List.replicate n .turn, ?_, run_trans hrun hn⟩
  rw [ThreadsEvent.given, List.filterMap_append, ← ThreadsEvent.given, hts]
  exact congrArg (fun more => es ++ e :: more) hturns

end Alone

/-- The worker wakes up, a connection reads a frame with one record, and the worker goes on. -/
def wholeReads : List (SystemEvent Unit) :=
  [.work {}, .read () (oneEvent TmCode.cArchiveData 3).wire, .work {}]

theorem reads_alone_one : ∃ s ts, ThreadsEvent.given ts = wholeReads
    ∧ run (Threads.step eventOnly) (.start (fun _ => none) 4096 (Oracle.create true {}).2) ts
      = some ⟨s, none⟩ := by
  have hrun : (run (System.step eventOnly) (.start (fun _ => none) 4096 (Oracle.create true {}).2)
      wholeReads).isSome = true := by
    decide +kernel
  obtain ⟨s, hs⟩ := Option.isSome_iff_exists.1 hrun
  exact ⟨s, reads_alone eventOnly (fun _ => none) 4096 (Oracle.create true {}).2 wholeReads s hs⟩

/-! ## A read comes to an end -/

section End

variable {κ : Type} [DecidableEq κ] {E : Env}

/-- How many turns a frame takes behind the one that finds it, if its handler gets to the loop over
the messages. -/
def frameTurns (E : Env) (hdr : List UInt8) : ℕ :=
  match beginMessages E hdr with
  | .returned (_, messages) => messages.length + 1
  | _ => 0

def scanTurns (E : Env) (start : List UInt8) : ℕ :=
  ((framing.scan start).items.map fun i => frameTurns E (start.drop i.1) + 1).sum + 1

/-- How many turns are left at most. -/
def Task.turns (E : Env) : Task → ℕ
  | .scanning start => scanTurns E start
  | .adding hdr _ _ rest =>
    rest.length + 1 + scanTurns E (hdr.drop (TransportHeader.getFullLength hdr))

def turnsIn (es : List (ThreadsEvent κ)) : ℕ :=
  es.countP fun
    | .turn => true
    | .system _ => false

theorem scanTurns_item {start g frame next : List UInt8}
    (found : nextFrame start = .item g frame next) :
    scanTurns E start = frameTurns E (frame ++ next) + 1 + scanTurns E next := by
  obtain ⟨hstart, -⟩ := nextFrame_item found
  have hframe : start.drop g.length = frame ++ next := by
    rw [hstart, List.append_assoc, List.drop_left]
  have hnext : ∀ i, start.drop (g.length + frame.length + i) = next.drop i := by
    intro i
    rw [hstart, ← List.drop_drop, ← List.length_append, List.drop_left]
  unfold scanTurns
  rw [framing.scan_item found]
  simp only [Scan.Result.andThen, List.singleton_append, List.map_cons, List.map_map,
    Function.comp_def, List.sum_cons, hframe, hnext]
  omega

/-- A turn after which the thread is not done leaves fewer of them. -/
theorem turn_decreases {s s' : Threads κ} {k j : κ} {task task' : Task}
    (h : s.task = some (k, task)) (hs : s.turn E = some s') (h' : s'.task = some (j, task')) :
    task'.turns E < task.turns E := by
  unfold Threads.turn at hs
  rw [h] at hs
  cases task with
  | scanning start =>
    dsimp only at hs
    rw [Threads.scan_eq] at hs
    split at hs
    · obtain rfl := Option.some.inj hs
      cases h'
    · obtain rfl := Option.some.inj hs
      cases h'
    · rename_i g frame next found
      have hdrop : (frame ++ next).drop (TransportHeader.getFullLength (frame ++ next))
          = next := by
        obtain ⟨-, -, -, rfl, rfl⟩ := nextFrame_found found
        rw [List.take_append_drop]
      have hturns : (Task.scanning start).turns E
          = frameTurns E (frame ++ next) + 1 + scanTurns E next := scanTurns_item found
      rw [hturns]
      unfold Threads.dispatch at hs
      split at hs
      · split at hs
        · rename_i mesNumber messages hb
          obtain rfl := Option.some.inj hs
          obtain ⟨-, rfl⟩ := Prod.mk.inj (Option.some.inj h')
          rw [Task.turns, hdrop, frameTurns, hb]
          dsimp only
          omega
        · obtain rfl := Option.some.inj hs
          cases h'
        · cases hs
      · dsimp only at hs
        split at hs
        · obtain rfl := Option.some.inj hs
          obtain ⟨-, rfl⟩ := Prod.mk.inj (Option.some.inj h')
          rw [Task.turns, hdrop]
          omega
        · obtain rfl := Option.some.inj hs
          cases h'
        · cases hs
  | adding hdr mesNumber i rest =>
    cases rest with
    | nil =>
      obtain ⟨w, -, rfl⟩ := Option.map_eq_some_iff.1 hs
      obtain ⟨-, rfl⟩ := Prod.mk.inj (Option.some.inj h')
      rw [Task.turns, Task.turns]
      omega
    | cons body rest =>
      simp only [Threads.add] at hs
      split at hs
      · cases hs
      · split at hs
        · obtain rfl := Option.some.inj hs
          cases h'
        · obtain rfl := Option.some.inj hs
          obtain ⟨-, rfl⟩ := Prod.mk.inj (Option.some.inj h')
          rw [Task.turns, Task.turns, List.length_cons]
          omega

theorem turns_pos (task : Task) : 0 < task.turns E := by
  cases task with
  | scanning start =>
    rw [Task.turns, scanTurns]
    omega
  | adding hdr mesNumber i rest =>
    rw [Task.turns]
    omega

theorem other_task {s s' : Threads κ} {k : κ} {task : Task} {e : SystemEvent κ}
    (h : s.task = some (k, task)) (hs : s.step E (.system e) = some s') :
    s'.task = some (k, task) := by
  by_cases he : ∃ k data, e = .read k data
  · obtain ⟨j, data, rfl⟩ := he
    rw [(Threads.read_cases hs).1] at h
    cases h
  · obtain ⟨d, d', -, -, rfl⟩ := Threads.store_cases (fun k data hr => he ⟨k, data, hr⟩) hs
    exact h

/-- Whatever the worker and the database do in between, a read is over after that many turns. -/
theorem turns_end (es : List (ThreadsEvent κ)) (s s' : Threads κ) (k : κ) (task : Task)
    (h : s.task = some (k, task)) (hs : run (Threads.step E) s es = some s')
    (hn : task.turns E ≤ turnsIn es) :
    ∃ pre post t, es = pre ++ post ∧ run (Threads.step E) s pre = some t ∧ t.task = none := by
  induction es generalizing s k task with
  | nil => exact absurd hn (Nat.not_le.2 (turns_pos task))
  | cons e es ih =>
    obtain ⟨u, hu, hs⟩ := Option.bind_eq_some_iff.1 hs
    have hcons : ∀ j task', u.task = some (j, task') → task'.turns E ≤ turnsIn es →
        ∃ pre post t, e :: es = pre ++ post ∧ run (Threads.step E) s pre = some t
          ∧ t.task = none := by
      intro j task' ht hn'
      obtain ⟨pre, post, t, rfl, hpre, hnone⟩ := ih u j task' ht hs hn'
      refine ⟨e :: pre, post, t, rfl, ?_, hnone⟩
      rw [run, hu]
      exact hpre
    cases e with
    | turn =>
      have hcount : turnsIn (.turn :: es) = turnsIn es + 1 := List.countP_cons_of_pos rfl
      rcases ht : u.task with _ | ⟨j, task'⟩
      · refine ⟨[.turn], es, u, rfl, ?_, ht⟩
        rw [run, hu]
        rfl
      · have hless := turn_decreases h hu ht
        exact hcons j task' ht (by omega)
    | system e =>
      have hcount : turnsIn (.system e :: es) = turnsIn es := List.countP_cons_of_neg (by simp)
      exact hcons k task (other_task h hu) (hcount ▸ hn)

/-- The next turn has no defined behaviour: the handler of the frame that is found misjudges its
length, or the number of the next message is beyond the largest `int`. -/
def Task.Undefined : Task → Prop
  | .scanning start => ∃ g, ∃ f : Incoming, nextFrame start = .item g f.message.frame f.rest
    ∧ f.IsData ∧ (f.message.data.length = 7 ∨ f.message.data.length = 8)
  | .adding _ mesNumber i rest => rest ≠ [] ∧ World.intMax < mesNumber + i

theorem misjudged_iff {f : Incoming} : f.kind E = .misjudged
    ↔ f.IsData ∧ (f.message.data.length = 7 ∨ f.message.data.length = 8) := by
  by_cases hd : f.IsData
  · rw [Incoming.kind_of_isData hd, Incoming.dataKind, Incoming.packageKind]
    split_ifs with h0 h7 h9
    · simp [h0.2]
    · simp only [false_iff]
      omega
    · simp only [hd, true_and, true_iff]
      omega
    · rcases hi : infoMessages E f.message.imData with texts | e | _
      · simp only [reduceCtorEq, false_iff]
        omega
      · simp only [reduceCtorEq, false_iff]
        omega
      · exact absurd hi (infoMessages_ne_undefined E _)
  · refine iff_of_false (fun h => ?_) fun h => hd h.1
    rw [Incoming.kind, if_neg hd] at h
    split_ifs at h

theorem handle_defined {w : World} {kind : Kind} (other : ∀ m texts, kind ≠ .package m texts)
    (hne : kind ≠ .misjudged) : (w.handle kind).1 ≠ .undefined := by
  cases kind with
  | package m texts => exact absurd rfl (other m texts)
  | misjudged => exact absurd rfl hne
  | _ => simp [World.handle]

section Defined

variable {s s' : Threads κ} {k : κ}

/-- The frame that is found is dealt with, unless its handler misjudges it. -/
theorem dispatch_iff (f : Incoming) : (∃ s', s.dispatch E k f.bytes = some s')
    ↔ ¬ (f.IsData ∧ (f.message.data.length = 7 ∨ f.message.data.length = 8)) := by
  rw [← misjudged_iff (E := E)]
  unfold Threads.dispatch
  by_cases hcarries : carriesMessages f.bytes = true
  · rw [if_pos hcarries]
    have hb := beginMessages_cases (E := E) hcarries
    generalize beginMessages E f.bytes = r at hb
    cases hb with
    | package texts kind => exact iff_of_true ⟨_, rfl⟩ (by simp [kind])
    | refused e kind => exact iff_of_true ⟨_, rfl⟩ (by simp [kind])
    | misjudged kind => exact iff_of_false (by simp) (by simp [kind])
  · rw [if_neg hcarries]
    have hother := not_package_of_carries (E := E) hcarries
    have hne : f.kind E ≠ .misjudged := by
      rw [Ne, misjudged_iff]
      rintro ⟨hd, hlen⟩
      refine hcarries (carriesMessages_iff.2 (hd.imp id fun hc => ⟨hc, ?_⟩))
      omega
    have hdefined := handle_defined (w := s.system.world k) hother hne
    refine iff_of_true ?_ hne
    rw [processMessage_kind]
    rcases hr : (s.system.world k).handle (f.kind E) with ⟨_ | e | _, w⟩
    · exact ⟨_, rfl⟩
    · exact ⟨_, rfl⟩
    · exact absurd (congrArg Prod.fst hr) hdefined

/-- A turn can be taken unless it is undefined. -/
theorem turn_iff {before : List InfoMessage} {task : Task} (hp : Underway E s before)
    (h : s.task = some (k, task)) : (∃ s', s.turn E = some s') ↔ ¬ task.Undefined := by
  unfold Threads.turn
  rw [h]
  cases hp with
  | idle idle =>
    rw [h] at idle
    cases idle
  | scanning j start started short =>
    rw [h] at started
    obtain ⟨rfl, rfl⟩ := Prod.mk.inj (Option.some.inj started)
    dsimp only [Task.Undefined]
    rw [Threads.scan_eq]
    rcases hn : nextFrame start with _ | _ | ⟨g, frame, next⟩
    · exact iff_of_true ⟨_, rfl⟩ (by simp)
    · exact iff_of_true ⟨_, rfl⟩ (by simp)
    · obtain ⟨-, m, rfl⟩ := nextFrame_is_frame hn
      obtain ⟨hstart, -⟩ := nextFrame_item hn
      have hlen : (m.frame ++ next).length < 2 ^ 63 := by
        rw [hstart, List.append_assoc, List.length_append] at short
        omega
      refine (dispatch_iff ⟨m, next, hlen⟩).trans (not_congr ⟨fun h => ?_, ?_⟩)
      · exact ⟨g, ⟨m, next, hlen⟩, rfl, h⟩
      · rintro ⟨g', f, hf, h⟩
        obtain ⟨-, hframe, -⟩ := Scan.Hit.item.inj hf
        obtain rfl := frame_injective hframe
        exact h
  | adding j f done rest started kind fits =>
    rw [h] at started
    obtain ⟨rfl, rfl⟩ := Prod.mk.inj (Option.some.inj started)
    cases rest with
    | nil =>
      rw [List.append_nil] at kind
      refine iff_of_true ?_ fun h => h.1 rfl
      dsimp only [Incoming.addingTask]
      rw [Threads.add, endMessages_bytes _ kind]
      exact ⟨_, rfl⟩
    | cons body rest =>
      dsimp only [Incoming.addingTask, Task.Undefined]
      rw [Threads.add]
      unfold World.label
      split_ifs with hl
      · refine iff_of_true ?_ fun h => absurd hl (Int.not_le.2 h.2)
        dsimp only
        split
        · exact ⟨_, rfl⟩
        · exact ⟨_, rfl⟩
      · exact iff_of_false (by simp) (not_not.2 ⟨List.cons_ne_nil _ _, Int.not_le.1 hl⟩)

/-- Left alone, the thread is done after that many turns, or comes to an undefined one. -/
theorem turns_alone : ∀ (n : ℕ) (s : Threads κ) (before : List InfoMessage) (k : κ) (task : Task),
    Underway E s before → s.task = some (k, task) → task.turns E ≤ n →
    ∃ m t, m ≤ task.turns E ∧ run (Threads.step E) s (List.replicate m .turn) = some t
      ∧ (t.task = none ∨ ∃ j task', t.task = some (j, task') ∧ task'.Undefined)
  | 0, _, _, _, task, _, _, hn => absurd hn (Nat.not_le.2 (turns_pos task))
  | n + 1, s, before, k, task, hp, h, hn => by
    by_cases hu : task.Undefined
    · exact ⟨0, s, Nat.zero_le _, rfl, .inr ⟨k, task, h, hu⟩⟩
    · obtain ⟨u, hs⟩ := (turn_iff hp h).2 hu
      have hstep : s.step E .turn = some u := hs
      obtain ⟨after, hp'⟩ := hp.step hstep
      rcases ht : u.task with _ | ⟨j, task'⟩
      · refine ⟨1, u, turns_pos task, ?_, .inl ht⟩
        rw [List.replicate_one, run, hstep]
        rfl
      · have hless := turn_decreases h hs ht
        obtain ⟨m, t, hm, hrun, hend⟩ := turns_alone n u after j task' hp' ht (by omega)
        refine ⟨m + 1, t, by omega, ?_, hend⟩
        rw [List.replicate_succ, run, hstep]
        exact hrun

/-- A read comes to an end: from every state that a run reaches with a handler under way, the next
turn can be taken unless it is undefined; left alone, the thread is done after at most the turns
that are counted from what it has left to scan, or comes to an undefined one; and whatever the
worker and the database do in between, the read is over after that many. -/
theorem reads_end (E : Env) (loaded : Counterer) (maxMessages : ℕ) (oracle : Oracle)
    (ts : List (ThreadsEvent κ)) (s : Threads κ) (k : κ) (task : Task)
    (hs : run (Threads.step E) (.start loaded maxMessages oracle) ts = some s)
    (h : s.task = some (k, task)) :
    ((∃ s', s.step E .turn = some s') ↔ ¬ task.Undefined)
      ∧ (∃ n t, n ≤ task.turns E
        ∧ run (Threads.step E) s (List.replicate n .turn) = some t
        ∧ (t.task = none ∨ ∃ j task', t.task = some (j, task') ∧ task'.Undefined))
      ∧ ∀ es s', run (Threads.step E) s es = some s' → task.turns E ≤ turnsIn es →
        ∃ pre post t, es = pre ++ post ∧ run (Threads.step E) s pre = some t ∧ t.task = none := by
  obtain ⟨ds, d, -, rfl, before, hp⟩ := threads_database.run ⟨rfl, [], .idle rfl⟩ hs
  exact ⟨turn_iff hp h, turns_alone _ s before k task hp h (Nat.le_refl _),
    fun es s' hrun hn => turns_end es s s' k task h hrun hn⟩

end Defined

end End

/-- A fresh connection reads a message, and the thread is at the head of the loop with its frame. -/
theorem task_of_wire {κ : Type} [DecidableEq κ] {E : Env} {s s' : Threads κ} {k : κ}
    {m : TransportMessage} (hfresh : (s.system.peers k).receiver = {})
    (good : m.wire.length ≠ 0 ∧ m.wire.length < asyncBufferSize)
    (hs : s.step E (.system (.read k m.wire)) = some s') :
    s'.task = some (k, .scanning m.frame) := by
  have hwire := storeData_wires [m] []
  simp only [List.flatMap_singleton, List.nil_append] at hwire
  obtain ⟨-, hread⟩ := Threads.read_cases hs
  cases hread with
  | refused bad => exact absurd good bad
  | begun =>
    rw [hfresh]
    exact congrArg (fun r : Receiver => some (k, Task.scanning r.buffer)) hwire

/-- A frame with one record is read: the thread is at the head of the loop and takes four turns. -/
theorem reads_end_one : ∃ s, run (Threads.step eventOnly)
      (.start (fun _ => none) 4096 (Oracle.create true {}).2)
      [.system (.read () (oneEvent TmCode.cArchiveData 3).wire)] = some s
    ∧ (∃ s', s.step eventOnly .turn = some s')
    ∧ ∃ n t, n ≤ 4 ∧ run (Threads.step eventOnly) s (List.replicate n .turn) = some t
      ∧ (t.task = none ∨ ∃ j task', t.task = some (j, task') ∧ task'.Undefined) := by
  have hrun : (run (Threads.step eventOnly) (.start (fun _ => none) 4096 (Oracle.create true {}).2)
      [.system (.read () (oneEvent TmCode.cArchiveData 3).wire)]).isSome = true := by
    decide +kernel
  obtain ⟨s, hs⟩ := Option.isSome_iff_exists.1 hrun
  have hfound := nextFrame_frame (oneEvent TmCode.cArchiveData 3) []
  rw [List.append_nil] at hfound
  have htask : s.task = some ((), .scanning (oneEvent TmCode.cArchiveData 3).frame) := by
    obtain ⟨s', hs', heq⟩ := Option.bind_eq_some_iff.1 hs
    obtain rfl := Option.some.inj heq
    exact task_of_wire rfl (by decide +kernel) hs'
  have hframe : frameTurns eventOnly ((oneEvent TmCode.cArchiveData 3).frame ++ []) = 2 := by
    decide +kernel
  have hturns : (Task.scanning (oneEvent TmCode.cArchiveData 3).frame).turns eventOnly = 4 := by
    rw [Task.turns, scanTurns_item hfound, hframe, scanTurns, scan_nil]
    rfl
  obtain ⟨hnext, halone, -⟩ := reads_end eventOnly (fun _ => none) 4096 (Oracle.create true {}).2 _ s
    () _ hs htask
  rw [hturns] at halone
  refine ⟨s, hs, hnext.2 ?_, halone⟩
  rintro ⟨g, f, hf, -, hlength⟩
  rw [hfound] at hf
  obtain ⟨-, hm, -⟩ := Scan.Hit.item.inj hf
  rw [← frame_injective hm] at hlength
  exact absurd hlength (by decide)

end Communicator
