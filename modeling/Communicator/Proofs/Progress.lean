import Communicator.Proofs.Arrival

/-!
# What is accepted is stored in time

The worker takes a bounded number of steps from one batch to the next. So as long as the storage
does not fail, whatever was accepted is in the table after so many of them (`stored_in_time`),
however many messages come in the meantime.
-/

namespace Communicator

open Lts

namespace Worker

variable {μ : Type} {w w' : Worker μ}

/-- How many steps end the batch at hand. -/
def toEnd (w : Worker μ) : ℕ :=
  match w.pc with
  | .saving rest => 2 * rest.length + 2
  | .interruptionPoint rest => 2 * rest.length + 3
  | .endBatch => 1
  | _ => 0

/-- How many steps end the batch that is taken from the queue next, at most. -/
def toNext (w : Worker μ) : ℕ :=
  match w.pc with
  | .beginBatch => 2 * w.queue.maxMessages + 4
  | .assign => 2 * w.queue.maxMessages + 3
  | _ => w.toEnd + 2 * w.queue.maxMessages + 5

/-- How many steps end the batch with the last of the first `n` messages accepted. -/
def toStore (w : Worker μ) (n : ℕ) : ℕ :=
  if w.queue.accepted.length < n + w.queue.messages.length then w.toNext else w.toEnd

/-- Neither the queue nor the batch is longer than the queue may be. -/
structure Bounded (w : Worker μ) : Prop where
  running : w.pc ≠ .left
  queue : w.queue.messages.length ≤ w.queue.maxMessages
  batch : w.remaining.length ≤ w.queue.maxMessages

theorem Bounded.toStore_le (h : w.Bounded) (n : ℕ) :
    w.toStore n ≤ 4 * w.queue.maxMessages + 8 := by
  have hbatch := h.batch
  unfold remaining at hbatch
  unfold toStore toNext toEnd
  rcases hpc : w.pc with _ | _ | _ | rest | rest | _ | _ <;> rw [hpc] at hbatch <;>
    dsimp only at hbatch ⊢ <;> split <;> omega

/-- Between two batches nothing is left of the last one. -/
theorem pc_of_toEnd (h : w.Bounded) (hend : w.toEnd = 0) :
    w.pc = .sleep ∨ w.pc = .beginBatch ∨ w.pc = .assign := by
  have hrunning := h.running
  unfold toEnd at hend
  rcases hpc : w.pc with _ | _ | _ | rest | rest | _ | _ <;> rw [hpc] at hend hrunning
  · exact .inl rfl
  · exact .inr (.inl rfl)
  · exact .inr (.inr rfl)
  · dsimp only at hend
    omega
  · dsimp only at hend
    omega
  · dsimp only at hend
    omega
  · exact absurd rfl hrunning

theorem toNext_pos (w : Worker μ) : 0 < w.toNext := by
  unfold toNext
  split <;> omega

theorem Bounded.work (h : w.Bounded) (quiet : w.interruptRequested = false)
    (hw : WorkStep w false w') : w'.Bounded := by
  obtain ⟨running, hqueue, hbatch⟩ := h
  unfold remaining at hbatch
  cases hw with
  | wake pc => exact ⟨by simp, hqueue, by simp [remaining]⟩
  | leave pc requested => simp [quiet] at requested
  | begun pc => exact ⟨by simp, hqueue, by simp [remaining]⟩
  | taken pc =>
    refine ⟨?_, Nat.zero_le _, ?_⟩
    · dsimp only
      split <;> simp
    · unfold remaining
      rcases hm : w.queue.messages with _ | ⟨x, xs⟩
      · simp
      · rw [hm] at hqueue
        simpa using hqueue
  | loopEnd pc => exact ⟨by simp, hqueue, by simp [remaining]⟩
  | saved msg rest pc =>
    rw [pc] at hbatch
    exact ⟨by simp, hqueue, Nat.le_of_succ_le hbatch⟩
  | interrupted rest pc requested => simp [quiet] at requested
  | resumed rest pc =>
    rw [pc] at hbatch
    exact ⟨by simp, hqueue, hbatch⟩
  | ended pc => exact ⟨by simp, hqueue, by simp [remaining]⟩

/-- A step that goes well leaves fewer of them; between two batches it must be known that the
messages are in the queue. -/
theorem Bounded.toStore_work (h : w.Bounded) (quiet : w.interruptRequested = false)
    (hw : WorkStep w false w') {n : ℕ} (hn : n ≤ w.queue.accepted.length)
    (hwaits : w.toEnd = 0 → w.queue.accepted.length < n + w.queue.messages.length) :
    w'.toStore n < w.toStore n := by
  have hqueue := h.queue
  cases hw with
  | wake pc =>
    have hin := hwaits (by simp [toEnd, pc])
    simp [toStore, toNext, toEnd, pc, hin]
  | leave pc requested => simp [quiet] at requested
  | begun pc =>
    have hin := hwaits (by simp [toEnd, pc])
    simp [toStore, toNext, pc, hin]
  | taken pc =>
    have hin := hwaits (by simp [toEnd, pc])
    have hout : ¬ w.queue.accepted.length < n + 0 := by omega
    rw [toStore, toStore, if_pos hin]
    dsimp only
    rw [List.length_nil, if_neg hout]
    simp only [toNext, toEnd, pc]
    rcases hm : w.queue.messages with _ | ⟨x, xs⟩
    · simp
    · rw [hm] at hqueue
      simp only [List.isEmpty_cons, Bool.false_eq_true, if_false]
      omega
  | loopEnd pc =>
    simp only [toStore, toNext, toEnd, pc, List.length_nil]
    split <;> omega
  | saved msg rest pc =>
    simp only [toStore, toNext, toEnd, pc, Bool.false_eq_true, if_false, List.length_cons]
    split <;> omega
  | interrupted rest pc requested => simp [quiet] at requested
  | resumed rest pc =>
    simp only [toStore, toNext, toEnd, pc]
    split <;> omega
  | ended pc =>
    simp only [toStore, toNext, toEnd, pc]
    split <;> omega

/-- What is added meanwhile comes behind them. -/
theorem Bounded.add (h : w.Bounded) {x : μ} (hs : w.step (.addMessage x) = some w') :
    w'.Bounded ∧ ∀ n, w'.toStore n = w.toStore n := by
  rw [step] at hs
  by_cases hroom : w.queue.messages.length < w.queue.maxMessages
  · rw [BaseImpl.addMessage_room hroom] at hs
    obtain rfl := Option.some.inj hs
    refine ⟨⟨h.running, ?_, h.batch⟩, fun n => ?_⟩
    · simp only [List.length_append, List.length_singleton]
      omega
    · have hiff : w.queue.accepted.length + 1 < n + (w.queue.messages.length + 1)
          ↔ w.queue.accepted.length < n + w.queue.messages.length := by omega
      simp only [toStore, toNext, toEnd, List.length_append, List.length_singleton, hiff]
  · rw [BaseImpl.addMessage_full (Nat.not_lt.1 hroom)] at hs
    obtain rfl := Option.some.inj hs
    exact ⟨h, fun _ => rfl⟩

end Worker

namespace Database

variable {μ : Type} {render : μ → Text} {s s' : Database μ}

/-- Where nothing fails, no call throws, and none takes rows out of the table. -/
theorem Settled.call {a : Answers} {throws : Bool} {oracle : Oracle} (h : s.Settled)
    (hfine : Fine (.work a : DatabaseEvent μ)) (hcall : s.call render a = some (throws, oracle)) :
    throws = false ∧ s.oracle.table <+: oracle.table := by
  obtain ⟨hcreated, hchecked, hexecuted, hcommitted⟩ := hfine
  unfold Database.call at hcall
  split at hcall
  · rw [openConnection_fine h.alive hcreated hchecked] at hcall
    obtain ⟨rfl, rfl⟩ := Prod.mk.inj (Option.some.inj hcall)
    exact ⟨rfl, List.prefix_rfl⟩
  · obtain ⟨c, hc, -⟩ := Oracle.saveMessageImpl_cases hcall
    have hok : (c.alive && a.executed) = true := by simp [h.alive c hc, hexecuted]
    rw [Oracle.saveMessageImpl, hc] at hcall
    dsimp only at hcall
    rw [if_pos hok] at hcall
    obtain ⟨rfl, rfl⟩ := Prod.mk.inj (Option.some.inj hcall)
    exact ⟨rfl, List.prefix_rfl⟩
  · obtain ⟨c, hc, -⟩ := Oracle.endBatchImpl_cases hcall
    have hok : (c.alive && a.committed) = true := by simp [h.alive c hc, hcommitted]
    rw [Oracle.endBatchImpl, hc] at hcall
    dsimp only at hcall
    rw [if_pos hok] at hcall
    obtain ⟨rfl, rfl⟩ := Prod.mk.inj (Option.some.inj hcall)
    exact ⟨rfl, List.prefix_append _ _⟩
  · obtain ⟨rfl, rfl⟩ := Prod.mk.inj (Option.some.inj hcall)
    exact ⟨rfl, List.prefix_rfl⟩

/-- What a run without failures keeps. -/
structure Sound (render : μ → Text) (s : Database μ) : Prop where
  settled : s.Settled
  ordered : Ordered render s
  kept : Kept render s
  bounded : s.worker.Bounded

theorem sound_start (render : μ → Text) (maxMessages : ℕ) (testConnection : Bool) :
    Sound render (start maxMessages [] (Oracle.create testConnection {}).2) :=
  ⟨settled_start maxMessages [] testConnection,
    ordered_start render maxMessages [] (Oracle.create_rows testConnection {}),
    kept_start render maxMessages [] (Oracle.create_rows testConnection {}),
    ⟨by simp [start, Worker.start], Nat.zero_le _, Nat.zero_le _⟩⟩

theorem Sound.step {e : DatabaseEvent μ} (h : Sound render s) (hfine : Fine e)
    (hs : s.step render e = some s') : Sound render s' := by
  refine ⟨h.settled.step hfine hs, h.ordered.step hs,
    h.kept.step (h.settled.not_loses hfine) hs, ?_⟩
  cases e with
  | addMessage x =>
    obtain ⟨w, hw, rfl⟩ := Option.map_eq_some_iff.1 hs
    exact (h.bounded.add hw).1
  | interrupt => exact hfine.elim
  | work a =>
    obtain ⟨throws, oracle, hcall, -, hw⟩ := work_step hs
    obtain ⟨rfl, -⟩ := h.settled.call hfine hcall
    exact h.bounded.work h.settled.quiet hw
  | lose => exact hfine.elim

/-- The worker can always go on. -/
theorem Sound.exists_work (h : Sound render s) (a : Answers) :
    ∃ s', s.step render (.work a) = some s' := by
  obtain ⟨⟨throws, oracle⟩, hcall⟩ := Option.ne_none_iff_exists'.1 (h.ordered.call_ne_none a)
  obtain ⟨w, hw⟩ := Worker.exists_work throws h.bounded.running
  refine ⟨⟨w, oracle⟩, ?_⟩
  rw [Database.step, hcall, Option.bind_some, hw]
  rfl

/-- How many steps of the worker put the first `n` messages accepted into the table. -/
def toStore (s : Database μ) (n : ℕ) : ℕ :=
  if n ≤ s.oracle.table.length then 0 else s.worker.toStore n

/-- Outside of a batch, what is not in the table is in the queue. -/
theorem Sound.waits (h : Sound render s) (hend : s.worker.toEnd = 0) :
    s.worker.queue.accepted.length
      = s.oracle.table.length + s.worker.queue.messages.length := by
  have htable := h.settled.table_eq h.kept (Worker.pc_of_toEnd h.bounded hend)
  have hlength := congrArg List.length htable
  rw [List.length_append, List.length_map, List.length_map] at hlength
  exact hlength.symm

theorem Sound.toStore_work {a : Answers} (h : Sound render s)
    (hfine : Fine (.work a : DatabaseEvent μ)) (hs : s.step render (.work a) = some s') {n : ℕ}
    (hn : n ≤ s.worker.queue.accepted.length) : s'.toStore n ≤ s.toStore n - 1 := by
  obtain ⟨throws, oracle, hcall, rfl, hw⟩ := work_step hs
  obtain ⟨rfl, htable⟩ := h.settled.call hfine hcall
  unfold toStore
  by_cases hstored : n ≤ s.oracle.table.length
  · rw [if_pos (hstored.trans htable.length_le), if_pos hstored]
  · rw [if_neg hstored]
    have hless := h.bounded.toStore_work h.settled.quiet hw hn fun hend => by
      rw [h.waits hend]
      omega
    split
    · exact Nat.zero_le _
    · exact Nat.le_sub_one_of_lt hless

theorem Sound.toStore_add {x : μ} (h : Sound render s)
    (hs : s.step render (.addMessage x) = some s') (n : ℕ) : s'.toStore n = s.toStore n := by
  obtain ⟨w, hw, rfl⟩ := Option.map_eq_some_iff.1 hs
  unfold toStore
  rw [(h.bounded.add hw).2]

/-- When no steps are left, they are there. -/
theorem Sound.stored (h : Sound render s) {n : ℕ} (hzero : s.toStore n = 0) :
    n ≤ s.oracle.table.length := by
  unfold toStore at hzero
  split at hzero
  · assumption
  · unfold Worker.toStore at hzero
    split at hzero
    · exact absurd hzero (Nat.ne_of_gt (Worker.toNext_pos _))
    · have hwaits := h.waits hzero
      omega

theorem toStore_le (h : s.worker.Bounded) (n : ℕ) :
    s.toStore n ≤ 4 * s.worker.queue.maxMessages + 8 := by
  unfold toStore
  split
  · exact Nat.zero_le _
  · exact h.toStore_le n

/-- As many rows as there are messages are those of these messages. -/
theorem Sound.table_prefix (h : Sound render s) {msgs : List μ}
    (hmsgs : msgs <+: s.worker.queue.accepted) (hlength : msgs.length ≤ s.oracle.table.length) :
    msgs.map (row render) <+: s.oracle.table := by
  have htable : s.oracle.table <+: s.worker.queue.accepted.map (row render) := by
    rw [← h.kept, inFlight, Oracle.rows, List.append_assoc]
    exact List.prefix_append _ _
  refine List.prefix_of_prefix_length_le (hmsgs.map _) htable ?_
  rw [List.length_map]
  exact hlength

end Database

/-! ## The two threads -/

/-- The history of the queue only grows. -/
theorem queue_grows {d d' : Database InfoMessage} {e : DatabaseEvent InfoMessage}
    (hs : d.step InfoMessage.text e = some d') :
    d.worker.queue.accepted <+: d'.worker.queue.accepted
      ∧ d'.worker.queue.maxMessages = d.worker.queue.maxMessages := by
  by_cases he : ∃ x, e = .addMessage x
  · obtain ⟨x, rfl⟩ := he
    obtain ⟨w, hw, rfl⟩ := Option.map_eq_some_iff.1 hs
    rcases Worker.addMessage_cases hw with rfl | rfl
    · exact ⟨List.prefix_append _ _, rfl⟩
    · exact ⟨List.prefix_rfl, rfl⟩
  · rcases store_queue hs fun x hx => he ⟨x, hx⟩ with hq | hq <;> rw [hq] <;>
      exact ⟨List.prefix_rfl, rfl⟩

section Threads

variable {κ : Type} [DecidableEq κ] {E : Env} {s s' t : Threads κ}

/-- How often the worker's turn comes. -/
def worksIn (es : List (ThreadsEvent κ)) : ℕ :=
  es.countP fun
    | .system (.work _) => true
    | _ => false

/-- What the two threads keep as long as the storage does not fail. -/
structure Going (E : Env) (maxMessages : ℕ) (s : Threads κ) : Prop where
  underway : ∃ before, Underway E s before
  sound : Database.Sound InfoMessage.text s.system.database
  room : s.system.database.worker.queue.maxMessages = maxMessages

theorem Going.step {maxMessages : ℕ} {e : ThreadsEvent κ} (h : Going E maxMessages s)
    (hfine : e.Fine) (hs : s.step E e = some s') : Going E maxMessages s' := by
  obtain ⟨before, hp⟩ := h.underway
  have hstep : ∀ e : DatabaseEvent InfoMessage, Database.Fine e →
      s.system.database.step InfoMessage.text e = some s'.system.database →
      Going E maxMessages s' :=
    fun e he hd => ⟨hp.step hs, h.sound.step he hd, (queue_grows hd).2.trans h.room⟩
  rcases Threads.fine_cases hp hfine hs with ⟨a, -, ha, hd⟩ | ⟨-, hd | ⟨x, hd⟩⟩
  · exact hstep (.work a) ha hd
  · exact ⟨hp.step hs, hd.symm ▸ h.sound, hd.symm ▸ h.room⟩
  · exact hstep (.addMessage x) trivial hd

omit [DecidableEq κ] in
theorem going_start (E : Env) (loaded : Counterer) (maxMessages : ℕ) (testConnection : Bool) :
    Going (κ := κ) E maxMessages
      (.start loaded maxMessages (Oracle.create testConnection {}).2) :=
  ⟨⟨[], .idle rfl⟩, Database.sound_start _ maxMessages testConnection, rfl⟩

/-- The worker goes on without the other thread, too. -/
theorem Going.exists_works {maxMessages : ℕ} (h : Going E maxMessages s) (n : ℕ) :
    ∃ t, run (Threads.step E) s (List.replicate n (.system (.work {}))) = some t := by
  induction n generalizing s with
  | zero => exact ⟨s, rfl⟩
  | succ n ih =>
    obtain ⟨d, hd⟩ := h.sound.exists_work {}
    have hs : s.step E (.system (.work {}))
        = some { s with system := { s.system with database := d } } := by
      rw [Threads.step, System.step, System.store, hd]
      · rfl
      · simp
    have hfine : (.system (.work {}) : ThreadsEvent κ).Fine := by
      simp [ThreadsEvent.Fine, SystemEvent.Fine, Database.Fine]
    obtain ⟨t, ht⟩ := ih (h.step hfine hs)
    refine ⟨t, ?_⟩
    rw [List.replicate_succ, run, hs]
    exact ht

/-- One step of either thread: it keeps what was accepted, and one of the worker leaves fewer of
them to go. -/
theorem Going.toStore_step {maxMessages : ℕ} {e : ThreadsEvent κ} (h : Going E maxMessages s)
    (hfine : e.Fine) (hs : s.step E e = some s') {msgs : List InfoMessage}
    (hmsgs : msgs <+: s.system.database.worker.queue.accepted) :
    msgs <+: s'.system.database.worker.queue.accepted
      ∧ s'.system.database.toStore msgs.length
        ≤ s.system.database.toStore msgs.length - worksIn [e] := by
  obtain ⟨before, hp⟩ := h.underway
  rcases Threads.fine_cases hp hfine hs with ⟨a, rfl, ha, hd⟩ | ⟨hno, hd⟩
  · exact ⟨hmsgs.trans (queue_grows hd).1,
      h.sound.toStore_work ha hd hmsgs.length_le⟩
  · have hnone : worksIn [e] = 0 := by
      refine List.countP_eq_zero.2 fun e' he => ?_
      obtain rfl := List.mem_singleton.1 he
      split
      · rename_i a
        exact absurd rfl (hno a)
      · simp
    rw [hnone, Nat.sub_zero]
    rcases hd with hd | ⟨x, hd⟩
    · rw [hd]
      exact ⟨hmsgs, Nat.le_refl _⟩
    · exact ⟨hmsgs.trans (queue_grows hd).1, (h.sound.toStore_add hd _).le⟩

theorem Going.run {maxMessages : ℕ} {es : List (ThreadsEvent κ)} (h : Going E maxMessages s)
    (hfine : ∀ e ∈ es, e.Fine) (ht : run (Threads.step E) s es = some t)
    {msgs : List InfoMessage} (hmsgs : msgs <+: s.system.database.worker.queue.accepted)
    (hworks : s.system.database.toStore msgs.length ≤ worksIn es) :
    msgs.map (Database.row InfoMessage.text) <+: t.system.database.oracle.table := by
  induction es generalizing s with
  | nil =>
    obtain rfl := Option.some.inj ht
    exact h.sound.table_prefix hmsgs (h.sound.stored (Nat.le_zero.1 hworks))
  | cons e es ih =>
    obtain ⟨u, hu, ht⟩ := Option.bind_eq_some_iff.1 ht
    obtain ⟨he, hes⟩ := List.forall_mem_cons.1 hfine
    obtain ⟨hmsgs', hless⟩ := h.toStore_step he hu hmsgs
    have hcount : worksIn (e :: es) = worksIn [e] + worksIn es := by
      rw [worksIn, ← List.singleton_append, List.countP_append]
      rfl
    exact ih (h.step he hu) hes ht hmsgs' (by omega)

/-- As long as the storage does not fail: the worker can always go on, and `4 * maxMessages + 8` of
its steps after any moment, with whatever else is done in between, all that had been accepted is in
the table, the records that the deletions sent by then go back to among it. -/
theorem stored_in_time (E : Env) (loaded : Counterer) (maxMessages : ℕ) (testConnection : Bool)
    (es : List (ThreadsEvent κ)) (s : Threads κ) (hfine : ∀ e ∈ es, e.Fine)
    (hs : run (Threads.step E)
      (.start loaded maxMessages (Oracle.create testConnection {}).2) es = some s) :
    (∀ n, ∃ t, run (Threads.step E) s (List.replicate n (.system (.work {}))) = some t)
      ∧ ∃ gs u, run (Server.openStep E) (.start ⟨loaded, ⟨maxMessages, [], []⟩⟩) gs = some u
        ∧ Follows E (ThreadsEvent.given es) s gs u
        ∧ ∀ es' t, (∀ e ∈ es', e.Fine) → run (Threads.step E) s es' = some t →
          4 * maxMessages + 8 ≤ worksIn es' →
          s.system.database.worker.queue.accepted.map (Database.row InfoMessage.text)
              <+: t.system.database.oracle.table
            ∧ ∀ k n, .deleteData n ∈ (s.system.peers k).session.sent →
              GoesBack E loaded gs k n fun msgs =>
                msgs.map (Database.row InfoMessage.text) <:+: t.system.database.oracle.table := by
  have halways : Always (Threads.step E) (Going E maxMessages)
      (.start loaded maxMessages (Oracle.create testConnection {}).2) es :=
    always_of_along (fun _ _ _ h he hs => h.step he hs)
      (going_start E loaded maxMessages testConnection) (along_of_mem hfine)
  have hgoing := halways.last hs
  obtain ⟨gs, u, hrun, hfollows⟩ := exists_follows hs
  refine ⟨hgoing.exists_works, gs, u, hrun, hfollows, fun es' t hfine' ht hworks => ?_⟩
  have hle := Database.toStore_le hgoing.sound.bounded
    s.system.database.worker.queue.accepted.length
  rw [hgoing.room] at hle
  have htable := hgoing.run hfine' ht List.prefix_rfl (hle.trans hworks)
  refine ⟨htable, fun k n hn => ?_⟩
  exact (hfollows.deletion (backed_run hrun) hn).imp fun _ hmsgs =>
    (hmsgs.map (Database.row InfoMessage.text)).trans htable.isInfix

end Threads

/-- The record is deleted before the worker first wakes up. -/
theorem stored_in_time_current : ∃ s t, run (Threads.step eventOnly)
      (.start (fun _ => none) 1 (Oracle.create true {}).2) (currentRecord.take 5) = some s
    ∧ (s.system.peers ()).session.sent = [.deleteData 3]
    ∧ run (Threads.step eventOnly) s (List.replicate 12 (.system (.work {}))) = some t
    ∧ ∃ gs u c, Follows eventOnly (ThreadsEvent.given (currentRecord.take 5)) s gs u
      ∧ FromFrame eventOnly gs c 3 fun msgs =>
        msgs.map (Database.row InfoMessage.text) <:+: t.system.database.oracle.table := by
  have h : (run (Threads.step eventOnly) (.start (fun _ => none) 1 (Oracle.create true {}).2)
      (currentRecord.take 5)).map (fun s => (s.system.peers ()).session.sent)
      = some [.deleteData 3] := by
    decide +kernel
  obtain ⟨s, hs, hsent⟩ := Option.map_eq_some_iff.1 h
  have hwork : (.system (.work {}) : ThreadsEvent Unit).Fine := by
    simp [ThreadsEvent.Fine, SystemEvent.Fine, Database.Fine]
  have hfine : ∀ e ∈ currentRecord.take 5, e.Fine := fun e he =>
    currentRecord_fine e (List.mem_of_mem_take he)
  obtain ⟨hgo, gs, u, -, hfollows, hstored⟩ := stored_in_time eventOnly (fun _ => none) 1 true _ s
    hfine hs
  obtain ⟨t, ht⟩ := hgo 12
  obtain ⟨-, hback⟩ := hstored _ t
    (fun e he => (List.eq_of_mem_replicate he).symm ▸ hwork) ht (by decide)
  obtain ⟨-, c, -, hc⟩ := hback () 3 (by rw [hsent]; exact List.mem_singleton.2 rfl)
  exact ⟨s, t, hs, hsent, ht, gs, u, c, hfollows, hc.resolve_left (by simp)⟩

end Communicator
