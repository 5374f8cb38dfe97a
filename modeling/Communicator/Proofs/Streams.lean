import Communicator.Proofs.Interleaving

/-!
# What is read and what is handled of it

In every run of the two threads the connections are somewhere in the bytes they were sent, and one
that goes on has handled, one after the other, the frames that a scan of all these bytes finds
before that place (`exists_follows`).
-/

namespace Communicator

open Lts

section Read

variable {κ : Type} [DecidableEq κ]

/-- What the reads of a connection passed on. -/
def bytesRead (k : κ) (es : List (SystemEvent κ)) : List UInt8 :=
  es.flatMap fun
    | .read j data =>
      if j = k ∧ data.length ≠ 0 ∧ data.length < asyncBufferSize then data else []
    | _ => []

/-- All of it un-stuffed. -/
def unstuffed (k : κ) (es : List (SystemEvent κ)) : Receiver :=
  ({} : Receiver).storeData (bytesRead k es)

/-- The frames that a scan of all of it finds. -/
def framesRead (k : κ) (es : List (SystemEvent κ)) : List (List UInt8) :=
  (framing.scan (unstuffed k es).buffer).items.map (·.2)

theorem bytesRead_read (k : κ) (es : List (SystemEvent κ)) {data : List UInt8}
    (h : data.length ≠ 0 ∧ data.length < asyncBufferSize) :
    bytesRead k (es ++ [.read k data]) = bytesRead k es ++ data := by
  simp [bytesRead, h.2]

theorem bytesRead_other {k : κ} (es : List (SystemEvent κ)) {e : SystemEvent κ}
    (h : ∀ data, e = .read k data → ¬ (data.length ≠ 0 ∧ data.length < asyncBufferSize)) :
    bytesRead k (es ++ [e]) = bytesRead k es := by
  rw [bytesRead, List.flatMap_append, ← bytesRead]
  cases e with
  | read j data =>
    have hno : ¬ (j = k ∧ data.length ≠ 0 ∧ data.length < asyncBufferSize) := by
      rintro ⟨rfl, hdata⟩
      exact h data rfl hdata
    simp only [List.flatMap_cons, List.flatMap_nil, if_neg hno, List.append_nil]
  | _ => simp

theorem unstuffed_read (k : κ) (es : List (SystemEvent κ)) {data : List UInt8}
    (h : data.length ≠ 0 ∧ data.length < asyncBufferSize) :
    unstuffed k (es ++ [.read k data]) = (unstuffed k es).storeData data := by
  rw [unstuffed, bytesRead_read k es h, Receiver.storeData_append]
  rfl

/-- A buffer that is the end of another stays so when both take in the same bytes. -/
theorem storeData_suffix {r r' : Receiver} (hstate : r.state = r'.state)
    (hbuffer : r.buffer <:+ r'.buffer) (data : List UInt8) :
    (r.storeData data).state = (r'.storeData data).state
      ∧ (r.storeData data).buffer <:+ (r'.storeData data).buffer := by
  rw [Receiver.storeData_eq, Receiver.storeData_eq, hstate]
  obtain ⟨front, hfront⟩ := hbuffer
  refine ⟨rfl, front, ?_⟩
  rw [← hfront, List.append_assoc]

theorem unstuffed_mono (k : κ) (es : List (SystemEvent κ)) (e : SystemEvent κ) :
    (unstuffed k es).buffer <+: (unstuffed k (es ++ [e])).buffer := by
  have hmore : ∃ more, bytesRead k (es ++ [e]) = bytesRead k es ++ more :=
    ⟨_, List.flatMap_append ..⟩
  obtain ⟨more, hmore⟩ := hmore
  rw [unstuffed, unstuffed, hmore, Receiver.storeData_append]
  exact Receiver.storeData_buffer_prefix _ _

theorem unstuffed_other {k : κ} (es : List (SystemEvent κ)) {e : SystemEvent κ}
    (h : ∀ data, e = .read k data → ¬ (data.length ≠ 0 ∧ data.length < asyncBufferSize)) :
    unstuffed k (es ++ [e]) = unstuffed k es := by
  rw [unstuffed, bytesRead_other es h]
  rfl

end Read

/-- A scan of `all` that found the frames of `msgs` and has `rest` to go. -/
structure Heard (all : List UInt8) (msgs : List TransportMessage) (rest : List UInt8) : Prop where
  leftover : framing.leftover all = framing.leftover rest
  broken : (framing.scan all).broken = (framing.scan rest).broken
  frames : msgs.map TransportMessage.frame ++ (framing.scan rest).items.map (·.2)
    = (framing.scan all).items.map (·.2)

namespace Heard

variable {all rest g next : List UInt8} {msgs : List TransportMessage} {m : TransportMessage}

theorem start : Heard [] [] [] := ⟨rfl, rfl, rfl⟩

theorem found (h : Heard all msgs rest) (hm : nextFrame rest = .item g m.frame next) :
    Heard all (msgs ++ [m]) next := by
  obtain ⟨hleft, hbroken, hframes⟩ := h
  have hnext : framing.next rest = .item g m.frame next := hm
  have hscan := framing.scan_item hnext
  rw [hscan] at hbroken hframes
  refine ⟨hleft.trans (framing.leftover_item hm), hbroken, hframes ▸ ?_⟩
  simp [Scan.Result.andThen, Function.comp_def]

/-- What is skipped before a frame makes no difference. -/
theorem skipped (h : Heard all msgs rest) (hm : nextFrame rest = .item g m.frame next) :
    Heard all msgs (m.frame ++ next) := by
  obtain ⟨hleft, hbroken, hframes⟩ := h
  have hnext : framing.next rest = .item g m.frame next := hm
  have hm' : framing.next (m.frame ++ next) = .item [] m.frame next := nextFrame_frame m next
  have hscan := framing.scan_item hnext
  have hscan' := framing.scan_item hm'
  rw [hscan] at hbroken hframes
  refine ⟨?_, ?_, ?_⟩
  · rw [hleft, framing.leftover_item hnext, framing.leftover_item hm']
  · rw [hscan']
    exact hbroken
  · rw [hscan', ← hframes]
    simp [Scan.Result.andThen, Function.comp_def]

/-- Where nothing complete is left, the scan goes on with what is read next. -/
theorem more (h : Heard all msgs rest) (hmore : nextFrame rest = .more) (bs : List UInt8) :
    Heard (all ++ bs) msgs (rest ++ bs) := by
  obtain ⟨hleft, -, hframes⟩ := h
  rw [leftover_of_more hmore] at hleft
  have hscan := framing.scan_append all bs
  rw [hleft] at hscan
  rw [framing.scan_more hmore, List.map_nil, List.append_nil] at hframes
  refine ⟨?_, ?_, ?_⟩
  · rw [framing.leftover_append, hleft]
  · rw [hscan]
    rfl
  · rw [hscan, hframes, Scan.Result.andThen, List.map_append, List.map_map]
    rfl

end Heard

/-! ## Where the connections are -/

def Task.bytes : Task → List UInt8
  | .scanning start => start
  | .adding hdr _ _ _ => hdr

theorem Incoming.addingTask_bytes (f : Incoming) (done rest : List Text) :
    (f.addingTask done rest).bytes = f.bytes := rfl

section Streams

variable {κ : Type} [DecidableEq κ] {E : Env} {k : κ} {s s' : Threads κ} {t : Server κ}
  {es : List (SystemEvent κ)} {before after : List InfoMessage} {fs : List Incoming}

theorem Turning.task_eq (h : Turning E s k before s' after fs) :
    ∃ task, s.task = some (k, task) ∧ ∀ f ∈ fs, f.bytes <:+ task.bytes := by
  have hone : ∀ {start g : List UInt8} {f : Incoming},
      nextFrame start = .item g f.message.frame f.rest → ∀ f' ∈ [f], f'.bytes <:+ start := by
    intro start g f found f' hf
    obtain rfl := List.mem_singleton.1 hf
    obtain ⟨hstart, -⟩ := nextFrame_item found
    exact ⟨g, by rw [hstart, List.append_assoc]; rfl⟩
  have hself : ∀ (f : Incoming) (f' : Incoming), f' ∈ [f] → f'.bytes <:+ f.bytes := by
    intro f f' hf
    obtain rfl := List.mem_singleton.1 hf
    exact List.suffix_rfl
  cases h with
  | waits start task => exact ⟨_, task, by simp⟩
  | damaged start task => exact ⟨_, task, by simp⟩
  | begins start g f task => exact ⟨_, task, by simp⟩
  | handled start g f task found => exact ⟨_, task, hone found⟩
  | refused start g f task found => exact ⟨_, task, hone found⟩
  | added f done body rest x task => exact ⟨_, task, by simp⟩
  | full f done body rest task => exact ⟨_, task, hself f⟩
  | ended f texts task => exact ⟨_, task, hself f⟩

/-- Whatever a connection did, its buffer is an end of all it was sent, and so is what the thread is
at. -/
structure Placed (es : List (SystemEvent κ)) (s : Threads κ) : Prop where
  state : ∀ k, (s.system.peers k).receiver.state = (unstuffed k es).state
  buffer : ∀ k, (s.system.peers k).receiver.buffer <:+ (unstuffed k es).buffer
  bytes : ∀ k task, s.task = some (k, task) → task.bytes <:+ (unstuffed k es).buffer

/-- One connection takes a step, and the others are sent nothing by it. -/
theorem Placed.move {es' : List (SystemEvent κ)} (h : Placed es s)
    (hother : ∀ j ≠ k, unstuffed j es' = unstuffed j es) {w : World} {r : Receiver}
    {task : Option (κ × Task)} (hstate : r.state = (unstuffed k es').state)
    (hbuffer : r.buffer <:+ (unstuffed k es').buffer)
    (htask : ∀ j task', task = some (j, task') → task'.bytes <:+ (unstuffed j es').buffer) :
    Placed es' ⟨s.system.put k w r, task⟩ := by
  refine ⟨fun j => ?_, fun j => ?_, htask⟩
  · by_cases hj : j = k
    · subst hj
      rw [System.put_peers]
      exact hstate
    · rw [System.put_peers_of_ne _ _ hj, hother j hj]
      exact h.state j
  · by_cases hj : j = k
    · subst hj
      rw [System.put_peers]
      exact hbuffer
    · rw [System.put_peers_of_ne _ _ hj, hother j hj]
      exact h.buffer j

theorem Placed.put (h : Placed es s) {w : World} {r : Receiver} {task : Option (κ × Task)}
    (hstate : r.state = (unstuffed k es).state) (hbuffer : r.buffer <:+ (unstuffed k es).buffer)
    (htask : ∀ j task', task = some (j, task') → task'.bytes <:+ (unstuffed j es).buffer) :
    Placed es ⟨s.system.put k w r, task⟩ := h.move (fun _ _ => rfl) hstate hbuffer htask

theorem Placed.leave (h : Placed es s) {w : World} {r : Receiver}
    (hstate : r.state = (unstuffed k es).state) (hbuffer : r.buffer <:+ (unstuffed k es).buffer) :
    Placed es (s.leave k w r) :=
  h.put hstate hbuffer fun _ _ h => by cases h

theorem Placed.goOn (h : Placed es s) {w : World} {task : Task}
    (htask : task.bytes <:+ (unstuffed k es).buffer) : Placed es (s.goOn k w task) := by
  refine h.put (h.state k) (h.buffer k) fun j task' he => ?_
  obtain ⟨rfl, rfl⟩ := Prod.mk.inj (Option.some.inj he)
  exact htask

theorem Placed.turn (h : Placed es s) (ht : Turning E s k before s' after fs) : Placed es s' := by
  have hrest : ∀ f : Incoming, f.rest <:+ f.bytes := fun f => List.suffix_append _ _
  have hfound : ∀ {start g : List UInt8} {f : Incoming}, s.task = some (k, .scanning start) →
      nextFrame start = .item g f.message.frame f.rest → f.bytes <:+ (unstuffed k es).buffer := by
    intro start g f task found
    obtain ⟨hstart, -⟩ := nextFrame_item found
    have hsuffix : f.bytes <:+ start := ⟨g, by rw [hstart, List.append_assoc]; rfl⟩
    exact hsuffix.trans (h.bytes k _ task)
  cases ht with
  | waits start task => exact h.leave (h.state k) (h.bytes k _ task)
  | damaged start task => exact h.leave (h.state k) (h.bytes k _ task)
  | begins start g f task found => exact h.goOn (hfound task found)
  | handled start g f task found => exact h.goOn ((hrest f).trans (hfound task found))
  | refused => exact h.leave (h.state k) (h.buffer k)
  | added f done body rest x task =>
    have hbytes := h.bytes k _ task
    refine h.goOn ?_
    rw [Incoming.addingTask_bytes] at hbytes ⊢
    exact hbytes
  | full => exact h.leave (h.state k) (h.buffer k)
  | ended f texts task => exact h.goOn ((hrest f).trans (h.bytes k _ task))

theorem Placed.congr {es' : List (SystemEvent κ)} (h : Placed es s)
    (hall : ∀ j, unstuffed j es' = unstuffed j es) : Placed es' s := by
  refine ⟨fun j => ?_, fun j => ?_, fun j task ht => ?_⟩ <;> rw [hall]
  · exact h.state j
  · exact h.buffer j
  · exact h.bytes j task ht

/-- What of its buffer a connection has still to go through. -/
def Threads.rest (s : Threads κ) (k : κ) : List UInt8 :=
  match s.task with
  | none => (s.system.peers k).receiver.buffer
  | some (j, task) => if j = k then task.bytes else (s.system.peers k).receiver.buffer

theorem Threads.rest_none (h : s.task = none) (k : κ) :
    s.rest k = (s.system.peers k).receiver.buffer := by
  rw [rest, h]

theorem Threads.rest_some {task : Task} (h : s.task = some (k, task)) : s.rest k = task.bytes := by
  rw [rest, h]
  exact if_pos rfl

theorem Threads.rest_other {j : κ} {task : Task} (h : s.task = some (k, task)) (hj : j ≠ k) :
    s.rest j = (s.system.peers j).receiver.buffer := by
  rw [rest, h]
  exact if_neg (Ne.symm hj)

/-- The messages whose frames connection `k` is sent in a run on frames. -/
def messagesOn (k : κ) (fs : List (OpenEvent κ)) : List TransportMessage :=
  (framesIn fs).filterMap fun i => if i.1 = k then some i.2.message else none

theorem messagesOn_append (k : κ) (fs gs : List (OpenEvent κ)) :
    messagesOn k (fs ++ gs) = messagesOn k fs ++ messagesOn k gs := by
  rw [messagesOn, framesIn_append, List.filterMap_append]
  rfl

theorem messagesOn_served {new : List (OpenEvent κ)} (h : framesIn new = fs.map (k, ·)) :
    messagesOn k new = fs.map (·.message) := by
  rw [messagesOn, h, List.filterMap_map]
  simp

theorem messagesOn_other {new : List (OpenEvent κ)} {j : κ} (h : framesIn new = fs.map (k, ·))
    (hj : j ≠ k) : messagesOn j new = [] := by
  rw [messagesOn, h, List.filterMap_map]
  simp [Ne.symm hj]

/-- A connection that goes on has handled the frames up to the place it is at. -/
structure Hears (k : κ) (es : List (SystemEvent κ)) (s : Threads κ)
    (msgs : List TransportMessage) : Prop where
  heard : Heard (unstuffed k es).buffer msgs (s.rest k)
  waits : (∀ task, s.task ≠ some (k, task)) → nextFrame (s.rest k) = .more

theorem Hears.frames_prefix {msgs : List TransportMessage} (h : Hears k es s msgs) :
    msgs.map TransportMessage.frame <+: framesRead k es := ⟨_, h.heard.frames⟩

/-- Where the thread is done with what was read, it went through all of the frames. -/
theorem Hears.frames {msgs : List TransportMessage} (h : Hears k es s msgs)
    (hdone : ∀ task, s.task ≠ some (k, task)) :
    msgs.map TransportMessage.frame = framesRead k es := by
  have hframes := h.heard.frames
  rwa [framing.scan_more (h.waits hdone), List.map_nil, List.append_nil] at hframes

theorem Hears.turn {msgs : List TransportMessage} (h : Hears k es s msgs)
    (ht : Turning E s k before s' after fs)
    (hk : (s'.system.peers k).session.stopped = false) :
    Hears k es s' (msgs ++ fs.map (·.message)) := by
  have hgone : ∀ {w : World} {r : Receiver}, s' = s.leave k w.stop r → False := by
    rintro w r rfl
    rw [Threads.leave, System.put_peers] at hk
    cases hk
  have hon : ∀ {w : World} {task : Task} {msgs' : List TransportMessage},
      Heard (unstuffed k es).buffer msgs' task.bytes → Hears k es (s.goOn k w task) msgs' := by
    intro w task msgs' h
    have hrest : (s.goOn k w task).rest k = task.bytes := Threads.rest_some rfl
    exact ⟨hrest.symm ▸ h, fun hno => absurd rfl (hno task)⟩
  obtain ⟨hheard, -⟩ := h
  cases ht with
  | waits start task more =>
    rw [Threads.rest_some task] at hheard
    have hrest : (s.leave k (s.system.world k)
        ⟨(s.system.peers k).receiver.state, start⟩).rest k = start := by
      rw [Threads.rest_none rfl, Threads.leave, System.put_peers]
    rw [List.map_nil, List.append_nil]
    refine ⟨?_, fun _ => ?_⟩
    · rw [hrest]
      exact hheard
    · rw [hrest]
      exact more
  | damaged => exact (hgone rfl).elim
  | begins start g f task found =>
    rw [Threads.rest_some task] at hheard
    rw [List.map_nil, List.append_nil]
    exact hon (hheard.skipped found)
  | handled start g f task found =>
    rw [Threads.rest_some task] at hheard
    exact hon (hheard.found found)
  | refused => exact (hgone rfl).elim
  | added f done body rest x task =>
    rw [Threads.rest_some task, Incoming.addingTask_bytes] at hheard
    rw [List.map_nil, List.append_nil]
    refine hon ?_
    rw [Incoming.addingTask_bytes]
    exact hheard
  | full => exact (hgone rfl).elim
  | ended f texts task =>
    rw [Threads.rest_some task] at hheard
    exact hon (hheard.found (nextFrame_frame f.message f.rest))

/-- A turn of one connection leaves the others alone. -/
theorem Turning.other (h : Turning E s k before s' after fs) {j : κ} (hj : j ≠ k) :
    s'.system.peers j = s.system.peers j ∧ ∀ task, s'.task ≠ some (j, task) := by
  have hput : ∀ {w : World} {r : Receiver} {task : Option (κ × Task)},
      (∀ task', task ≠ some (j, task')) → s' = ⟨s.system.put k w r, task⟩ →
      s'.system.peers j = s.system.peers j ∧ ∀ task, s'.task ≠ some (j, task) := by
    rintro w r task hno rfl
    exact ⟨System.put_peers_of_ne _ _ hj, hno⟩
  have hon : ∀ task task' : Task, some (k, task) ≠ some (j, task') := by
    intro task task' he
    exact hj (Prod.mk.inj (Option.some.inj he)).1.symm
  cases h with
  | begins => exact hput (hon _) rfl
  | handled => exact hput (hon _) rfl
  | added => exact hput (hon _) rfl
  | ended => exact hput (hon _) rfl
  | _ => exact hput (fun _ he => by cases he) rfl

theorem Turning.goesOn (h : Turning E s k before s' after fs)
    (hk : (s'.system.peers k).session.stopped = false) :
    (s.system.peers k).session.stopped = false := by
  have hput : ∀ {w : World} {r : Receiver} {task : Option (κ × Task)},
      w.stopped = (s.system.peers k).session.stopped → s' = ⟨s.system.put k w r, task⟩ →
      (s.system.peers k).session.stopped = false := by
    rintro w r task hw rfl
    rw [System.put_peers] at hk
    exact hw.symm.trans hk
  have hgone : ∀ {w : World} {r : Receiver}, s' = s.leave k w.stop r →
      (s.system.peers k).session.stopped = false := by
    rintro w r rfl
    rw [Threads.leave, System.put_peers] at hk
    cases hk
  cases h with
  | waits => exact hput rfl rfl
  | damaged => exact hgone rfl
  | begins => exact hput rfl rfl
  | handled start g f task found w other returned =>
    have hstopped := World.stopped_of_returned (congrArg Prod.fst returned)
    rw [returned] at hstopped
    exact hput hstopped rfl
  | refused => exact hgone rfl
  | added => exact hput rfl rfl
  | full => exact hgone rfl
  | ended f texts =>
    refine hput ?_ rfl
    unfold World.settle
    split
    · rw [World.sendDelete_eq]
      rfl
    · rfl

/-- A connection that is not touched hears what it heard. -/
theorem Hears.same {msgs : List TransportMessage} (h : Hears k es s msgs)
    (hpeer : s'.system.peers k = s.system.peers k) (htask : ∀ task, s.task ≠ some (k, task))
    (htask' : ∀ task, s'.task ≠ some (k, task)) : Hears k es s' msgs := by
  have hidle : ∀ u : Threads κ, (∀ task, u.task ≠ some (k, task)) →
      u.rest k = (u.system.peers k).receiver.buffer := by
    intro u hu
    rcases hut : u.task with _ | ⟨j, task⟩
    · exact Threads.rest_none hut k
    · refine Threads.rest_other hut fun hj => hu task ?_
      rw [hut, hj]
  have hrest : s'.rest k = s.rest k := by
    rw [hidle s' htask', hidle s htask, hpeer]
  exact ⟨hrest.symm ▸ h.heard, fun _ => hrest.symm ▸ h.waits htask⟩

theorem Hears.congr {es' : List (SystemEvent κ)} {msgs : List TransportMessage}
    (h : Hears k es s msgs) (hall : unstuffed k es' = unstuffed k es) : Hears k es' s msgs := by
  refine ⟨?_, h.waits⟩
  rw [hall]
  exact h.heard

/-! ## All connections -/

/-- A run of the threads and one of the server on frames that goes along with it. -/
structure Follows (E : Env) (es : List (SystemEvent κ)) (s : Threads κ) (gs : List (OpenEvent κ))
    (t : Server κ) : Prop where
  serves : ∃ pending, Serves E s t pending
  placed : Placed es s
  sent : ∀ i ∈ framesIn gs, i.2.message.frame <:+: (unstuffed i.1 es).buffer
  hears : ∀ k, (s.system.peers k).session.stopped = false →
    (t.sessions k).stopped = false ∧ Hears k es s (messagesOn k gs)

theorem Follows.turn {gs : List (OpenEvent κ)} (h : Follows E es s gs t)
    (hs : s.turn E = some s') :
    ∃ new t', run (Server.openStep E) t new = some t' ∧ Follows E es s' (gs ++ new) t' := by
  obtain ⟨before, hserves⟩ := h.serves
  obtain ⟨k, after, fs, hturn, hunder⟩ := Threads.turn_cases hserves.underway hs
  obtain ⟨new, t', hserved⟩ := hserves.turn hturn hunder
  obtain ⟨task, htask, hframes⟩ := hturn.task_eq
  refine ⟨new, t', hserved.run, ⟨after, hserved.serves⟩, h.placed.turn hturn, ?_, ?_⟩
  · intro i hi
    rw [framesIn_append, hserved.frames] at hi
    rcases List.mem_append.1 hi with hi | hi
    · exact h.sent i hi
    · obtain ⟨f, hf, rfl⟩ := List.mem_map.1 hi
      have hpre : f.message.frame <+: f.bytes := List.prefix_append _ _
      exact hpre.isInfix.trans ((hframes f hf).trans (h.placed.bytes k task htask)).isInfix
  · intro j hj
    rw [messagesOn_append]
    by_cases hjk : j = k
    · subst hjk
      obtain ⟨hgoes, hhears⟩ := h.hears j (hturn.goesOn hj)
      rw [messagesOn_served hserved.frames]
      exact ⟨(hserved.goesOn hj).trans hgoes, hhears.turn hturn hj⟩
    · obtain ⟨hpeer, hno⟩ := hturn.other hjk
      rw [hpeer] at hj
      obtain ⟨hgoes, hhears⟩ := h.hears j hj
      rw [hserved.others j hjk, messagesOn_other hserved.frames hjk, List.append_nil]
      refine ⟨hgoes, hhears.same hpeer (fun task' he => ?_) hno⟩
      rw [htask] at he
      exact hjk (Prod.mk.inj (Option.some.inj he)).1.symm

/-- What the storage does is nothing to the connections. -/
theorem Follows.store {gs : List (OpenEvent κ)} {e : SystemEvent κ} {d d' : Database InfoMessage}
    {a : DatabaseEvent InfoMessage} (h : Follows E es s gs t) (he : ∀ k data, e ≠ .read k data)
    (hd : d = s.system.database) (ha : ∀ msg, a ≠ .addMessage msg)
    (hs : d.step InfoMessage.text a = some d') :
    Follows E (es ++ [e]) { s with system := { s.system with database := d' } } gs t := by
  subst hd
  have hall : ∀ j, unstuffed j (es ++ [e]) = unstuffed j es := fun j =>
    unstuffed_other es fun data hread => absurd hread (he j data)
  have haccepted : d'.worker.queue.accepted = s.system.database.worker.queue.accepted := by
    rcases store_queue hs ha with hq | hq <;> rw [hq]
  obtain ⟨pending, hserves⟩ := h.serves
  have hplaced := h.placed.congr hall
  refine ⟨⟨pending, hserves.underway.store d', hserves.counterer, hserves.sessions,
    haccepted.trans hserves.accepted⟩, ⟨hplaced.state, hplaced.buffer, hplaced.bytes⟩,
    fun i hi => ?_, fun j hj => ?_⟩
  · rw [hall]
    exact h.sent i hi
  · obtain ⟨hgoes, hhears⟩ := h.hears j hj
    have hsame := hhears.congr (hall j)
    exact ⟨hgoes, hsame.heard, hsame.waits⟩

omit [DecidableEq κ] in
/-- At the beginning of a read nothing is pending. -/
theorem Serves.idle {pending : List InfoMessage} (h : Serves E s t pending)
    (htask : s.task = none) : pending = [] := by
  have hunder := h.underway
  cases hunder with
  | idle => rfl
  | scanning => rfl
  | adding k f done rest task =>
    rw [htask] at task
    cases task

theorem Follows.refused {gs : List (OpenEvent κ)} {data : List UInt8} (h : Follows E es s gs t)
    (htask : s.task = none) (bad : ¬ (data.length ≠ 0 ∧ data.length < asyncBufferSize)) :
    Follows E (es ++ [.read k data])
      (s.leave k (s.system.world k).stop (s.system.peers k).receiver) gs t := by
  have hall : ∀ j, unstuffed j (es ++ [.read k data]) = unstuffed j es := by
    intro j
    refine unstuffed_other es fun data' he => ?_
    obtain ⟨-, rfl⟩ := SystemEvent.read.inj he
    exact bad
  obtain ⟨pending, hserves⟩ := h.serves
  obtain rfl := hserves.idle htask
  have hplaced := h.placed.leave (w := (s.system.world k).stop) (h.placed.state k)
    (h.placed.buffer k)
  refine ⟨⟨[], hserves.quiet (.idle rfl) rfl rfl hserves.accepted⟩, hplaced.congr hall,
    fun i hi => ?_, fun j hj => ?_⟩
  · rw [hall]
    exact h.sent i hi
  · by_cases hjk : j = k
    · subst hjk
      rw [Threads.leave, System.put_peers] at hj
      cases hj
    · have hpeer : (s.leave k (s.system.world k).stop (s.system.peers k).receiver).system.peers j
          = s.system.peers j := System.put_peers_of_ne _ _ hjk
      rw [hpeer] at hj
      obtain ⟨hgoes, hhears⟩ := h.hears j hj
      have hsame := hhears.same hpeer (by simp [htask]) (by simp [Threads.leave])
      exact ⟨hgoes, hsame.congr (hall j)⟩

theorem Follows.begun {gs : List (OpenEvent κ)} {data : List UInt8} (h : Follows E es s gs t)
    (htask : s.task = none) (good : data.length ≠ 0 ∧ data.length < asyncBufferSize)
    (short : ((s.system.peers k).receiver.storeData data).buffer.length < 2 ^ 63) :
    Follows E (es ++ [.read k data])
      ⟨s.system.put k (s.system.world k) ((s.system.peers k).receiver.storeData data),
        some (k, .scanning ((s.system.peers k).receiver.storeData data).buffer)⟩ gs t := by
  have hother : ∀ j ≠ k, unstuffed j (es ++ [.read k data]) = unstuffed j es := fun j hj =>
    unstuffed_other es fun data' he => absurd (SystemEvent.read.inj he).1.symm hj
  obtain ⟨hstate, hsuffix⟩ := storeData_suffix (h.placed.state k) (h.placed.buffer k) data
  rw [← unstuffed_read k es good] at hstate hsuffix
  obtain ⟨pending, hserves⟩ := h.serves
  obtain rfl := hserves.idle htask
  refine ⟨⟨[], hserves.quiet (.scanning k _ rfl short) rfl rfl hserves.accepted⟩,
    h.placed.move hother hstate hsuffix fun j task ht => ?_, fun i hi => ?_, fun j hj => ?_⟩
  · obtain ⟨rfl, rfl⟩ := Prod.mk.inj (Option.some.inj ht)
    exact hsuffix
  · exact (h.sent i hi).trans (unstuffed_mono i.1 es _).isInfix
  · by_cases hjk : j = k
    · subst hjk
      rw [System.put_peers] at hj
      obtain ⟨hgoes, hheard, hwaits⟩ := h.hears j hj
      have hmore := hwaits (by simp [htask])
      rw [Threads.rest_none htask] at hheard hmore
      -- both buffers take in the same bytes
      obtain ⟨st, bs, hbs⟩ := Receiver.exists_storeData (unstuffed j es).state data
      have hmine : (s.system.peers j).receiver.storeData data
          = ⟨st, (s.system.peers j).receiver.buffer ++ bs⟩ := by
        rw [← hbs, ← h.placed.state j]
      have hall : unstuffed j (es ++ [.read j data]) = ⟨st, (unstuffed j es).buffer ++ bs⟩ := by
        rw [unstuffed_read j es good]
        exact hbs _
      refine ⟨hgoes, ?_, fun hno => absurd rfl (hno _)⟩
      rw [Threads.rest_some rfl, Task.bytes, hall, hmine]
      exact hheard.more hmore bs
    · rw [System.put_peers_of_ne _ _ hjk] at hj
      obtain ⟨hgoes, hhears⟩ := h.hears j hj
      have hsame : Hears j es ⟨s.system.put k (s.system.world k)
          ((s.system.peers k).receiver.storeData data),
          some (k, .scanning ((s.system.peers k).receiver.storeData data).buffer)⟩
          (messagesOn j gs) :=
        hhears.same (System.put_peers_of_ne _ _ hjk) (by simp [htask]) (by simp [Ne.symm hjk])
      exact ⟨hgoes, hsame.congr (hother j hjk)⟩

theorem Follows.step {gs : List (OpenEvent κ)} {e : ThreadsEvent κ} (h : Follows E es s gs t)
    (hs : s.step E e = some s') : ∃ new t', run (Server.openStep E) t new = some t'
      ∧ Follows E (es ++ ThreadsEvent.given [e]) s' (gs ++ new) t' := by
  cases e with
  | turn =>
    obtain ⟨new, t', hrun, h'⟩ := h.turn hs
    refine ⟨new, t', hrun, ?_⟩
    have hnone : ThreadsEvent.given [(.turn : ThreadsEvent κ)] = [] := rfl
    rw [hnone, List.append_nil]
    exact h'
  | system e =>
    refine ⟨[], t, rfl, ?_⟩
    rw [List.append_nil]
    by_cases he : ∃ k data, e = .read k data
    · obtain ⟨k, data, rfl⟩ := he
      obtain ⟨htask, hr⟩ := Threads.read_cases hs
      cases hr with
      | refused bad => exact h.refused htask bad
      | begun good short => exact h.begun htask good short
    · have he' : ∀ k data, e ≠ .read k data := fun k data hr => he ⟨k, data, hr⟩
      obtain ⟨a, d', hd, ha, rfl⟩ := Threads.store_cases he' hs
      exact h.store he' rfl ha hd

theorem follows_start (loaded : Counterer) (maxMessages : ℕ) (oracle : Oracle) :
    Follows (κ := κ) E [] (.start loaded maxMessages oracle) []
      (.start ⟨loaded, ⟨maxMessages, [], []⟩⟩) :=
  ⟨⟨[], .idle rfl, rfl, fun _ => rfl, rfl⟩,
    ⟨fun _ => rfl, fun _ => List.suffix_rfl, fun _ _ h => by cases h⟩, by simp [framesIn],
    fun _ _ => ⟨rfl, Heard.start, fun _ => rfl⟩⟩

/-- Every run of the two threads has one of the server on frames that goes along with it. -/
theorem exists_follows {loaded : Counterer} {maxMessages : ℕ} {oracle : Oracle}
    {ts : List (ThreadsEvent κ)}
    (hs : run (Threads.step E) (.start loaded maxMessages oracle) ts = some s) :
    ∃ gs t, run (Server.openStep E) (.start ⟨loaded, ⟨maxMessages, [], []⟩⟩) gs = some t
      ∧ Follows E (ThreadsEvent.given ts) s gs t := by
  refine run_induction (P := fun ts s => ∃ gs t, run (Server.openStep E)
    (.start ⟨loaded, ⟨maxMessages, [], []⟩⟩) gs = some t
      ∧ Follows E (ThreadsEvent.given ts) s gs t) ?_ ?_ hs
  · exact ⟨[], _, rfl, follows_start loaded maxMessages oracle⟩
  · rintro ts s e s' - ⟨gs, t, hrun, h⟩ hs
    obtain ⟨new, t', hnew, h'⟩ := h.step hs
    refine ⟨gs ++ new, t', run_trans hrun hnew, ?_⟩
    rw [ThreadsEvent.given, List.filterMap_append]
    exact h'

/-- Every run of the two threads is one of the server on frames in which others do to the queue what
they like. Both have the same counters and the same connections, but that one may be stopped for
what is no frame; the queue took the same messages, and more of one frame only while that is under
way. Each frame stands in what its connection was sent, and one that goes on is sent just those it
found in it, all of them when the thread is done with it. For the storage it is a run of the
worker. -/
theorem threads_refine (E : Env) (loaded : Counterer) (maxMessages : ℕ) (testConnection : Bool)
    (a₀ : Answers) (ts : List (ThreadsEvent κ)) (s : Threads κ) (hs : run (Threads.step E)
      (.start loaded maxMessages (Oracle.create testConnection a₀).2) ts = some s) :
    (∃ gs t pending, run (Server.openStep E) (.start ⟨loaded, ⟨maxMessages, [], []⟩⟩) gs = some t
      ∧ t.shared.counterer = s.system.counterer
      ∧ (∀ k, (t.sessions k).forget = (s.system.peers k).session.forget)
      ∧ Underway E s pending
      ∧ s.system.database.worker.queue.accepted = t.shared.backend.accepted ++ pending
      ∧ (∀ i ∈ framesIn gs,
        i.2.message.frame <:+: (unstuffed i.1 (ThreadsEvent.given ts)).buffer)
      ∧ ∀ k, (s.system.peers k).session.stopped = false → (t.sessions k).stopped = false
        ∧ (messagesOn k gs).map TransportMessage.frame <+: framesRead k (ThreadsEvent.given ts)
        ∧ ((∀ task, s.task ≠ some (k, task)) →
          (messagesOn k gs).map TransportMessage.frame = framesRead k (ThreadsEvent.given ts)))
      ∧ ∃ ds, run (Database.step InfoMessage.text)
        (.start maxMessages [] (Oracle.create testConnection a₀).2) ds
          = some s.system.database := by
  obtain ⟨ds, d, hds, rfl, -⟩ := threads_database.run ⟨rfl, [], .idle rfl⟩ hs
  obtain ⟨gs, t, hgs, h⟩ := exists_follows hs
  obtain ⟨pending, hserves⟩ := h.serves
  refine ⟨⟨gs, t, pending, hgs, hserves.counterer, hserves.sessions, hserves.underway,
    hserves.accepted, h.sent, fun k hk => ?_⟩, ds, hds⟩
  obtain ⟨hgoes, hhears⟩ := h.hears k hk
  exact ⟨hgoes, hhears.frames_prefix, hhears.frames⟩

end Streams

/-- An identification and a frame with one record, cut inside of the first, while the worker goes
from one sleep to the next. -/
def cutStream : List (ThreadsEvent Unit) :=
  [.system (.read () ((identSeven.wire ++ (oneEvent TmCode.cArchiveData 3).wire).take 5)), .turn,
    .system (.read () ((identSeven.wire ++ (oneEvent TmCode.cArchiveData 3).wire).drop 5)), .turn,
    .turn, .system (.work {}), .system (.work {}), .turn, .system (.work {}), .turn,
    .system (.work {}), .turn, .system (.work {}), .system (.work {}), .system (.work {})]

theorem cutStream_run : ∃ s, run (Threads.step eventOnly)
      (.start (fun _ => none) 4096 (Oracle.create true {}).2) cutStream = some s
    ∧ (s.system.peers ()).session.stopped = false ∧ (∀ task, s.task ≠ some ((), task))
    ∧ s.system.database.worker.pc = .sleep ∧ s.system.database.oracle.table.length = 1 := by
  have h : (run (Threads.step eventOnly) (.start (fun _ => none) 4096 (Oracle.create true {}).2)
      cutStream).map (fun s => ((s.system.peers ()).session.stopped, s.task.isNone,
        s.system.database.worker.pc, s.system.database.oracle.table.length))
      = some (false, true, .sleep, 1) := by
    decide +kernel
  obtain ⟨s, hs, heq⟩ := Option.map_eq_some_iff.1 h
  simp only [Prod.mk.injEq] at heq
  obtain ⟨hstopped, htask, hrest⟩ := heq
  exact ⟨s, hs, hstopped, fun task ht => by simp [ht] at htask, hrest⟩

theorem threads_refine_cut : ∃ s gs t, run (Threads.step eventOnly)
      (.start (fun _ => none) 4096 (Oracle.create true {}).2) cutStream = some s
    ∧ run (Server.openStep eventOnly) (.start ⟨fun _ => none, ⟨4096, [], []⟩⟩) gs = some t
    ∧ t.shared.counterer = s.system.counterer
    ∧ (messagesOn () gs).map TransportMessage.frame
      = [identSeven.frame, (oneEvent TmCode.cArchiveData 3).frame] := by
  obtain ⟨s, hs, hstopped, hdone, -⟩ := cutStream_run
  obtain ⟨⟨gs, t, -, hgs, hcounterer, -, -, -, -, hk⟩, -⟩ := threads_refine eventOnly
    (fun _ => none) 4096 true {} cutStream s hs
  have hread : framesRead () (ThreadsEvent.given cutStream)
      = [identSeven.frame, (oneEvent TmCode.cArchiveData 3).frame] := by
    decide +kernel
  obtain ⟨-, -, hframes⟩ := hk () hstopped
  exact ⟨s, gs, t, hs, hgs, hcounterer, (hframes hdone).trans hread⟩

end Communicator
