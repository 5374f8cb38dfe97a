import Communicator.Database
import Communicator.Lib.Lts
import Mathlib.Data.List.Basic

/-!
# What becomes of a batch in the database

In every run, however the calls of the client library end and whenever sessions are lost: no call
goes through a null connection, rows are in the table in the order their messages were accepted
and no message is there twice, and a batch whose commit returned is there as a whole. Where
nothing fails, nothing is missing either.
-/

namespace Communicator

theorem Worker.exists_work {μ : Type} {w : Worker μ} (throws : Bool) (h : w.pc ≠ .left) :
    ∃ w', w.work throws = some w' := by
  unfold Worker.work
  split
  · split <;> exact ⟨_, rfl⟩
  · exact ⟨_, rfl⟩
  · exact ⟨_, rfl⟩
  · exact ⟨_, rfl⟩
  · exact ⟨_, rfl⟩
  · split <;> exact ⟨_, rfl⟩
  · exact ⟨_, rfl⟩
  · exact absurd ‹_› h

namespace Oracle

/-- The rows of the table with those of the open transaction. -/
def rows (d : Oracle) : List Text := d.table ++ (d.connection.map (·.inserted)).getD []

variable {d : Oracle} {a : Answers}

theorem openConnection_none {table : List Text} (h : a.created = true) :
    openConnection ⟨none, table⟩ a = openConnection ⟨some {}, table⟩ a := by
  simp [openConnection, h]

theorem openConnection_refused {table : List Text} (h : a.created = false) :
    openConnection ⟨none, table⟩ a = (true, ⟨none, table⟩) := by
  simp [openConnection, h]

theorem openConnection_some (c : Connection) (table : List Text) (a : Answers) :
    openConnection ⟨some c, table⟩ a = if c.alive && a.checked then (false, ⟨some c, table⟩)
      else (true, reset ⟨some c, table⟩ a) := rfl

theorem reset_rows (c : Connection) (table : List Text) (a : Answers) :
    (reset ⟨some c, table⟩ a).rows.Sublist (table ++ c.inserted) := by
  unfold reset rows
  simp only [Option.map_none, Option.getD_none, List.append_nil]
  split
  · exact List.Sublist.refl _
  · exact List.sublist_append_left _ _

/-- A connection that was opened is one the server knows, with what it had inserted before. -/
theorem openConnection_returned (h : (d.openConnection a).1 = false) :
    ∃ c, (d.openConnection a).2 = { d with connection := some c } ∧ c.alive = true
      ∧ c.inserted = (d.connection.map (·.inserted)).getD [] := by
  have hsome : ∀ c table, (openConnection ⟨some c, table⟩ a).1 = false →
      (openConnection ⟨some c, table⟩ a).2 = ⟨some c, table⟩ ∧ c.alive = true := by
    intro c table h
    rw [openConnection_some] at h ⊢
    split at h
    · rename_i hok
      rw [if_pos hok]
      exact ⟨rfl, (Bool.and_eq_true_iff.1 hok).1⟩
    · cases h
  obtain ⟨_ | c, table⟩ := d
  · cases hcreated : a.created with
    | false =>
      rw [openConnection_refused hcreated] at h
      cases h
    | true =>
      rw [openConnection_none hcreated] at h ⊢
      obtain ⟨h₂, halive⟩ := hsome {} table h
      exact ⟨{}, h₂, halive, rfl⟩
  · obtain ⟨h₂, halive⟩ := hsome c table h
    exact ⟨c, h₂, halive, rfl⟩

theorem openConnection_rows (d : Oracle) (a : Answers) :
    (d.openConnection a).2.rows.Sublist d.rows := by
  have hsome : ∀ c table, (openConnection ⟨some c, table⟩ a).2.rows.Sublist
      (table ++ c.inserted) := by
    intro c table
    rw [openConnection_some]
    split
    · exact List.Sublist.refl _
    · exact reset_rows c table a
  obtain ⟨_ | c, table⟩ := d
  · cases hcreated : a.created with
    | false =>
      rw [openConnection_refused hcreated]
    | true =>
      rw [openConnection_none hcreated]
      exact hsome {} table
  · exact hsome c table

theorem create_rows (testConnection : Bool) (a : Answers) :
    (create testConnection a).2.rows = [] := by
  unfold create
  split
  · exact List.sublist_nil.1 (openConnection_rows {} a)
  · rfl

/-- What a save that goes through a connection does. -/
theorem saveMessageImpl_cases {msg : Text} {r : Bool × Oracle}
    (h : d.saveMessageImpl a msg = some r) : ∃ c, d.connection = some c
      ∧ (r = (true, d) ∨ c.alive = true ∧ r = (false, { d with
        connection := some { c with inserted := c.inserted ++ [storedText msg] } })) := by
  unfold saveMessageImpl at h
  split at h
  · cases h
  · rename_i c hc
    refine ⟨c, hc, ?_⟩
    split at h
    · rename_i hok
      exact .inr ⟨(Bool.and_eq_true_iff.1 hok).1, (Option.some.inj h).symm⟩
    · exact .inl (Option.some.inj h).symm

/-- What a commit that goes through a connection does; one that throws may have happened. -/
theorem endBatchImpl_cases {r : Bool × Oracle} (h : d.endBatchImpl a = some r) :
    ∃ c, d.connection = some c ∧ (r = (true, d) ∨ c.alive = true
      ∧ r.2 = ⟨some ⟨[], !r.1⟩, d.table ++ c.inserted⟩) := by
  unfold endBatchImpl at h
  split at h
  · cases h
  · rename_i c hc
    refine ⟨c, hc, ?_⟩
    split at h
    · rename_i hok
      obtain rfl := Option.some.inj h
      exact .inr ⟨(Bool.and_eq_true_iff.1 hok).1, rfl⟩
    · split at h
      · rename_i hok
        obtain rfl := Option.some.inj h
        exact .inr ⟨(Bool.and_eq_true_iff.1 hok).1, rfl⟩
      · exact .inl (Option.some.inj h).symm

theorem lose_rows (d : Oracle) : d.lose.rows.Sublist d.rows := by
  obtain ⟨_ | c, table⟩ := d
  · exact List.Sublist.refl _
  · simp only [lose, rows, Option.map_some, Option.getD_some, List.append_nil]
    exact List.sublist_append_left _ _

end Oracle

namespace Database

variable {μ : Type} {render : μ → Text}

/-- What is stored for a message. -/
def row (render : μ → Text) (msg : μ) : Text := storedText (render msg)

/-- The worker is between the opening of the connection and the commit. -/
def InBatch (s : Database μ) : Prop :=
  match s.worker.pc with
  | .assign | .saving _ | .interruptionPoint _ | .endBatch => True
  | _ => False

theorem work_step {s s' : Database μ} {a : Answers} (h : s.step render (.work a) = some s') :
    ∃ throws oracle, s.call render a = some (throws, oracle) ∧ s'.oracle = oracle
      ∧ Worker.WorkStep s.worker throws s'.worker := by
  obtain ⟨⟨throws, oracle⟩, hcall, h⟩ := Option.bind_eq_some_iff.1 h
  obtain ⟨w, hw, heq⟩ := Option.map_eq_some_iff.1 h
  subst heq
  exact ⟨throws, oracle, hcall, rfl, Worker.work_cases hw⟩

/-- A step outside of the functions of the backend leaves it alone. -/
theorem call_quiet {s : Database μ} {a : Answers} {throws : Bool} {oracle : Oracle}
    (h : s.call render a = some (throws, oracle)) (hbegin : s.worker.pc ≠ .beginBatch)
    (hsaving : ∀ msg rest, s.worker.pc ≠ .saving (msg :: rest)) (hend : s.worker.pc ≠ .endBatch) :
    throws = false ∧ oracle = s.oracle := by
  unfold call at h
  split at h
  · exact absurd ‹_› hbegin
  · exact absurd ‹_› (hsaving _ _)
  · exact absurd ‹_› hend
  · cases h
    exact ⟨rfl, rfl⟩

/-! ## Order -/

/-- The rows are in the order of acceptance, with what is still to be saved behind them. -/
structure Ordered (render : μ → Text) (s : Database μ) : Prop where
  connected : s.InBatch → s.oracle.connection.isSome
  order : (s.oracle.rows
      ++ (s.worker.remaining ++ s.worker.queue.messages).map (row render)).Sublist
    (s.worker.queue.accepted.map (row render))

theorem Ordered.addMessage {s s' : Database μ} {msg : μ} (h : Ordered render s)
    (hs : s.step render (.addMessage msg) = some s') : Ordered render s' := by
  obtain ⟨w, hw, rfl⟩ := Option.map_eq_some_iff.1 hs
  rcases Worker.addMessage_cases hw with rfl | rfl
  · refine ⟨h.connected, ?_⟩
    have happ := h.order.append (List.Sublist.refl [row render msg])
    simpa [Worker.remaining] using happ
  · exact h

theorem Ordered.work {s s' : Database μ} {a : Answers} (h : Ordered render s)
    (hs : s.step render (.work a) = some s') : Ordered render s' := by
  obtain ⟨throws, oracle, hcall, rfl, hw⟩ := work_step hs
  obtain ⟨worker', oracle⟩ := s'
  have horder := h.order
  cases hw with
  | wake pc quiet =>
    obtain ⟨rfl, rfl⟩ := call_quiet hcall (by simp [pc]) (by simp [pc]) (by simp [pc])
    refine ⟨fun hin => hin.elim, ?_⟩
    simpa [Worker.remaining, pc] using horder
  | leave pc requested =>
    obtain ⟨rfl, rfl⟩ := call_quiet hcall (by simp [pc]) (by simp [pc]) (by simp [pc])
    refine ⟨fun hin => hin.elim, ?_⟩
    simpa [Worker.remaining, pc] using horder
  | begun pc =>
    simp only [call, pc, Option.some.injEq] at hcall
    have hrows := s.oracle.openConnection_rows a
    rw [hcall] at hrows
    refine ⟨?_, ?_⟩
    · cases throws with
      | true => exact fun hin => hin.elim
      | false =>
        obtain ⟨c, hc, -, -⟩ := Oracle.openConnection_returned (congrArg Prod.fst hcall)
        rw [hcall] at hc
        exact fun _ => congrArg (·.connection.isSome) hc
    · have hpc : ({ s.worker with pc := if throws then .sleep else .assign } :
          Worker μ).remaining = s.worker.remaining := by
        cases throws <;> simp [Worker.remaining, pc]
      rw [hpc]
      exact (hrows.append (List.Sublist.refl _)).trans horder
  | taken pc =>
    obtain ⟨rfl, rfl⟩ := call_quiet hcall (by simp [pc]) (by simp [pc]) (by simp [pc])
    refine ⟨fun _ => h.connected (by simp [InBatch, pc]), ?_⟩
    cases hq : s.worker.queue.messages with
    | nil => simpa [Worker.remaining, pc, hq] using horder
    | cons msg rest => simpa [Worker.remaining, pc, hq] using horder
  | loopEnd pc =>
    obtain ⟨rfl, rfl⟩ := call_quiet hcall (by simp [pc]) (by simp [pc]) (by simp [pc])
    refine ⟨fun _ => h.connected (by simp [InBatch, pc]), ?_⟩
    simpa [Worker.remaining, pc] using horder
  | saved msg rest pc =>
    simp only [call, pc] at hcall
    obtain ⟨c, hc, hr⟩ := Oracle.saveMessageImpl_cases hcall
    rcases hr with hr | ⟨-, hr⟩
    · obtain ⟨rfl, rfl⟩ := Prod.mk.inj hr
      refine ⟨fun hin => hin.elim, ?_⟩
      refine List.Sublist.trans ?_ horder
      simp only [Worker.remaining, pc, if_true]
      exact (List.Sublist.refl _).append ((List.sublist_append_right _ _).map _)
    · obtain ⟨rfl, rfl⟩ := Prod.mk.inj hr
      refine ⟨fun _ => rfl, ?_⟩
      simpa [Worker.remaining, pc, Oracle.rows, hc, row] using horder
  | interrupted rest pc requested =>
    obtain ⟨rfl, rfl⟩ := call_quiet hcall (by simp [pc]) (by simp [pc]) (by simp [pc])
    refine ⟨fun hin => hin.elim, ?_⟩
    refine List.Sublist.trans ?_ horder
    simp only [Worker.remaining, pc]
    exact (List.Sublist.refl _).append ((List.sublist_append_right _ _).map _)
  | resumed rest pc quiet =>
    obtain ⟨rfl, rfl⟩ := call_quiet hcall (by simp [pc]) (by simp [pc]) (by simp [pc])
    refine ⟨fun _ => h.connected (by simp [InBatch, pc]), ?_⟩
    simpa [Worker.remaining, pc] using horder
  | ended pc =>
    simp only [call, pc] at hcall
    obtain ⟨c, hc, hr⟩ := Oracle.endBatchImpl_cases hcall
    refine ⟨fun hin => hin.elim, ?_⟩
    rcases hr with hr | ⟨-, hr⟩
    · obtain ⟨rfl, rfl⟩ := Prod.mk.inj hr
      simpa [Worker.remaining, pc] using horder
    · replace hr : oracle = ⟨some ⟨[], !throws⟩, s.oracle.table ++ c.inserted⟩ := hr
      subst hr
      simpa [Worker.remaining, pc, Oracle.rows, hc] using horder

theorem Ordered.step {s s' : Database μ} {e : DatabaseEvent μ} (h : Ordered render s)
    (hs : s.step render e = some s') : Ordered render s' := by
  cases e with
  | addMessage msg => exact h.addMessage hs
  | interrupt =>
    obtain rfl := Option.some.inj hs
    exact ⟨h.connected, h.order⟩
  | work a => exact h.work hs
  | lose =>
    obtain rfl := Option.some.inj hs
    refine ⟨fun hin => ?_, (s.oracle.lose_rows.append (List.Sublist.refl _)).trans h.order⟩
    simpa [Oracle.lose] using h.connected hin

theorem ordered_start (render : μ → Text) (maxMessages : ℕ) (messages : List μ) {oracle : Oracle}
    (h : oracle.rows = []) : Ordered render (start maxMessages messages oracle) := by
  refine ⟨fun hin => hin.elim, ?_⟩
  rw [start, h]
  exact List.Sublist.refl _

theorem Ordered.call_ne_none {s : Database μ} (h : Ordered render s) (a : Answers) :
    s.call render a ≠ none := by
  have hsome : s.InBatch → ∃ c, s.oracle.connection = some c :=
    fun hin => Option.isSome_iff_exists.1 (h.connected hin)
  unfold call
  split
  · exact Option.some_ne_none _
  · rename_i msg rest hpc
    obtain ⟨c, hc⟩ := hsome (by simp [InBatch, hpc])
    rw [Oracle.saveMessageImpl, hc]
    dsimp only
    split <;> exact Option.some_ne_none _
  · rename_i hpc
    obtain ⟨c, hc⟩ := hsome (by simp [InBatch, hpc])
    rw [Oracle.endBatchImpl, hc]
    dsimp only
    split
    · exact Option.some_ne_none _
    · split <;> exact Option.some_ne_none _
  · exact Option.some_ne_none _

/-- In every run, whatever fails: the worker saves and commits through a connection, never through
a null pointer. -/
theorem never_null (render : μ → Text) (maxMessages : ℕ) (messages : List μ)
    (testConnection : Bool) (a₀ : Answers) (es : List (DatabaseEvent μ)) :
    Lts.Along (step render) (fun s _ => ∀ a, s.call render a ≠ none)
      (start maxMessages messages (Oracle.create testConnection a₀).2) es :=
  Lts.along_of_step (I := Ordered render) (fun _ _ _ h hs => h.step hs)
    (fun _ _ h => h.call_ne_none) es
    (ordered_start render maxMessages messages (Oracle.create_rows testConnection a₀))

theorem Ordered.table_sublist {s : Database μ} (h : Ordered render s) :
    s.oracle.table.Sublist (s.worker.queue.accepted.map (row render)) := by
  have hrows : s.oracle.table.Sublist s.oracle.rows := List.sublist_append_left _ _
  exact (hrows.trans (List.sublist_append_left _ _)).trans h.order

/-- In every run, whatever fails: the rows of the table are those of messages that were accepted,
in the order of acceptance, and for no message twice. -/
theorem table_in_order (render : μ → Text) (maxMessages : ℕ) (messages : List μ)
    (testConnection : Bool) (a₀ : Answers) (es : List (DatabaseEvent μ)) :
    Lts.Always (step render)
      (fun s => s.oracle.table.Sublist (s.worker.queue.accepted.map (row render)))
      (start maxMessages messages (Oracle.create testConnection a₀).2) es := by
  have hstart := ordered_start render maxMessages messages (Oracle.create_rows testConnection a₀)
  exact (Lts.always_of_step (I := Ordered render) (fun _ _ _ h hs => h.step hs) es hstart).imp
    fun _ h => h.table_sublist

/-! ## What is lost -/

/-- The rows there are and those to come from the batch at hand and the queue. -/
def inFlight (render : μ → Text) (s : Database μ) : List Text :=
  s.oracle.rows ++ (s.worker.remaining ++ s.worker.queue.messages).map (row render)

/-- No message `add_message` took is missing. -/
def Kept (render : μ → Text) (s : Database μ) : Prop :=
  inFlight render s = s.worker.queue.accepted.map (row render)

/-- The steps that lose messages: a session ends with rows not committed, because the server drops
it or because its check fails; a save throws; the worker is stopped inside of a batch. -/
def Loses (s : Database μ) : DatabaseEvent μ → Prop
  | .work a =>
    match s.worker.pc with
    | .beginBatch => ∃ c, s.oracle.connection = some c ∧ c.inserted ≠ []
        ∧ (c.alive && a.checked) = false ∧ (c.alive && a.closing) = false
    | .saving (_ :: _) => ∃ c, s.oracle.connection = some c ∧ (c.alive && a.executed) = false
    | .interruptionPoint (_ :: _) => s.worker.interruptRequested = true
    | _ => False
  | .lose => ∃ c, s.oracle.connection = some c ∧ c.inserted ≠ []
  | _ => False

theorem opened_iff (d : Oracle) (a : Answers) : (d.openConnection a).2.rows = d.rows ↔
    ¬ ∃ c, d.connection = some c ∧ c.inserted ≠ [] ∧ (c.alive && a.checked) = false
      ∧ (c.alive && a.closing) = false := by
  have hsome : ∀ c table, (Oracle.openConnection ⟨some c, table⟩ a).2.rows = table ++ c.inserted ↔
      ¬ (c.inserted ≠ [] ∧ (c.alive && a.checked) = false ∧ (c.alive && a.closing) = false) := by
    intro c table
    rw [Oracle.openConnection_some]
    cases hcheck : (c.alive && a.checked) with
    | true => simp [Oracle.rows]
    | false =>
      cases hclose : (c.alive && a.closing) with
      | true => simp [Oracle.rows, Oracle.reset, hclose]
      | false => simp [Oracle.rows, Oracle.reset, hclose]
  obtain ⟨_ | c, table⟩ := d
  · refine iff_of_true ?_ (by simp)
    cases hcreated : a.created with
    | false => rw [Oracle.openConnection_refused hcreated]
    | true =>
      rw [Oracle.openConnection_none hcreated]
      exact (hsome {} table).2 (by simp)
  · refine (hsome c table).trans (not_congr ?_)
    simp

theorem lost_iff (d : Oracle) :
    d.lose.rows = d.rows ↔ ¬ ∃ c, d.connection = some c ∧ c.inserted ≠ [] := by
  obtain ⟨_ | c, table⟩ := d
  · simp [Oracle.lose, Oracle.rows]
  · simp [Oracle.lose, Oracle.rows]

theorem saved_iff {d : Oracle} {a : Answers} {msg : Text} {r : Bool × Oracle}
    (h : d.saveMessageImpl a msg = some r) :
    (r = (true, d) ∧ ∃ c, d.connection = some c ∧ (c.alive && a.executed) = false)
      ∨ (r.1 = false ∧ r.2.rows = d.rows ++ [storedText msg]
        ∧ ¬ ∃ c, d.connection = some c ∧ (c.alive && a.executed) = false) := by
  unfold Oracle.saveMessageImpl at h
  cases hc : d.connection with
  | none => simp [hc] at h
  | some c =>
    simp only [hc] at h
    cases hok : (c.alive && a.executed) with
    | true =>
      rw [hok, if_pos rfl] at h
      obtain rfl := Option.some.inj h
      refine .inr ⟨rfl, by simp [Oracle.rows, hc], ?_⟩
      rintro ⟨c', hc', hno⟩
      obtain rfl := Option.some.inj hc'
      exact absurd hok (by simp [hno])
    | false =>
      rw [hok, if_neg Bool.false_ne_true] at h
      exact .inl ⟨(Option.some.inj h).symm, c, rfl, hok⟩

/-- A step of the worker keeps what there is and is to come exactly if it does not lose. -/
theorem inFlight_work_iff {s s' : Database μ} {a : Answers}
    (hs : s.step render (.work a) = some s') :
    inFlight render s' = inFlight render s ↔ ¬ s.Loses (.work a) := by
  obtain ⟨throws, oracle, hcall, rfl, hw⟩ := work_step hs
  obtain ⟨worker', oracle⟩ := s'
  cases hw with
  | wake pc quiet =>
    obtain ⟨rfl, rfl⟩ := call_quiet hcall (by simp [pc]) (by simp [pc]) (by simp [pc])
    simp [inFlight, Loses, Worker.remaining, pc]
  | leave pc requested =>
    obtain ⟨rfl, rfl⟩ := call_quiet hcall (by simp [pc]) (by simp [pc]) (by simp [pc])
    simp [inFlight, Loses, Worker.remaining, pc]
  | begun pc =>
    simp only [call, pc, Option.some.injEq] at hcall
    have hopened := opened_iff s.oracle a
    rw [hcall] at hopened
    have hpc : ({ s.worker with pc := if throws then .sleep else .assign } :
        Worker μ).remaining = s.worker.remaining := by
      cases throws <;> simp [Worker.remaining, pc]
    simp only [inFlight, Loses, pc]
    rw [hpc, List.append_left_inj]
    exact hopened
  | taken pc =>
    obtain ⟨rfl, rfl⟩ := call_quiet hcall (by simp [pc]) (by simp [pc]) (by simp [pc])
    cases hq : s.worker.queue.messages <;> simp [inFlight, Loses, Worker.remaining, pc, hq]
  | loopEnd pc =>
    obtain ⟨rfl, rfl⟩ := call_quiet hcall (by simp [pc]) (by simp [pc]) (by simp [pc])
    simp [inFlight, Loses, Worker.remaining, pc]
  | saved msg rest pc =>
    simp only [call, pc] at hcall
    rcases saved_iff hcall with ⟨hr, hno⟩ | ⟨rfl, hrows, hok⟩
    · obtain ⟨rfl, rfl⟩ := Prod.mk.inj hr
      refine iff_of_false ?_ (by simpa [Loses, pc] using hno)
      intro h
      have hlen := congrArg List.length h
      simp [inFlight, Worker.remaining, pc] at hlen
      omega
    · replace hrows : oracle.rows = s.oracle.rows ++ [row render msg] := hrows
      refine iff_of_true ?_ (by simpa [Loses, pc] using hok)
      simp [inFlight, Worker.remaining, pc, hrows]
  | interrupted rest pc requested =>
    obtain ⟨rfl, rfl⟩ := call_quiet hcall (by simp [pc]) (by simp [pc]) (by simp [pc])
    cases rest with
    | nil => simp [inFlight, Loses, Worker.remaining, pc]
    | cons msg rest =>
      refine iff_of_false ?_ (by simpa [Loses, pc] using requested)
      intro h
      have hlen := congrArg List.length h
      simp [inFlight, Worker.remaining, pc] at hlen
      omega
  | resumed rest pc quiet =>
    obtain ⟨rfl, rfl⟩ := call_quiet hcall (by simp [pc]) (by simp [pc]) (by simp [pc])
    cases rest <;> simp [inFlight, Loses, Worker.remaining, pc, quiet]
  | ended pc =>
    simp only [call, pc] at hcall
    obtain ⟨c, hc, hr⟩ := Oracle.endBatchImpl_cases hcall
    refine iff_of_true ?_ (by simp [Loses, pc])
    rcases hr with hr | ⟨-, hr⟩
    · obtain ⟨rfl, rfl⟩ := Prod.mk.inj hr
      simp [inFlight, Worker.remaining, pc]
    · replace hr : oracle = ⟨some ⟨[], !throws⟩, s.oracle.table ++ c.inserted⟩ := hr
      subst hr
      simp [inFlight, Worker.remaining, pc, Oracle.rows, hc]

theorem accepted_work {s s' : Database μ} {a : Answers} (hs : s.step render (.work a) = some s') :
    s'.worker.queue.accepted = s.worker.queue.accepted := by
  obtain ⟨throws, oracle, -, -, hw⟩ := work_step hs
  obtain ⟨worker', oracle'⟩ := s'
  cases hw <;> rfl

theorem Kept.step {s s' : Database μ} {e : DatabaseEvent μ} (h : Kept render s) (hn : ¬ s.Loses e)
    (hs : s.step render e = some s') : Kept render s' := by
  cases e with
  | addMessage msg =>
    obtain ⟨w, hw, rfl⟩ := Option.map_eq_some_iff.1 hs
    rcases Worker.addMessage_cases hw with rfl | rfl
    · have happ := congrArg (· ++ [row render msg]) h
      simpa [Kept, inFlight, Worker.remaining] using happ
    · exact h
  | interrupt =>
    obtain rfl := Option.some.inj hs
    exact h
  | work a =>
    rw [Kept, accepted_work hs, (inFlight_work_iff hs).2 hn]
    exact h
  | lose =>
    obtain rfl := Option.some.inj hs
    rw [Kept, inFlight, (lost_iff s.oracle).2 hn]
    exact h

theorem not_kept_of_loses {s : Database μ} {e : DatabaseEvent μ} (h : Kept render s)
    (hordered : Ordered render s) (hl : s.Loses e) :
    ∃ s', s.step render e = some s' ∧ ¬ Kept render s' := by
  cases e with
  | addMessage msg => exact hl.elim
  | interrupt => exact hl.elim
  | work a =>
    obtain ⟨r, hr⟩ := Option.ne_none_iff_exists'.1 (hordered.call_ne_none a)
    have hpc : s.worker.pc ≠ .left := by
      intro hpc
      simp [Loses, hpc] at hl
    obtain ⟨w, hw⟩ := Worker.exists_work r.1 hpc
    have hs : s.step render (.work a) = some ⟨w, r.2⟩ := by
      rw [step, hr, Option.bind_some, hw, Option.map_some]
    refine ⟨_, hs, fun hk => absurd hl ((inFlight_work_iff hs).1 ?_)⟩
    rw [hk, accepted_work hs]
    exact h.symm
  | lose =>
    refine ⟨_, rfl, fun hk => absurd hl ((lost_iff s.oracle).1 ?_)⟩
    exact List.append_cancel_right (hk.trans h.symm)

theorem kept_start (render : μ → Text) (maxMessages : ℕ) (messages : List μ) {oracle : Oracle}
    (h : oracle.rows = []) : Kept render (start maxMessages messages oracle) := by
  rw [Kept, inFlight, start, h]
  rfl

/-- A run keeps every accepted message, in order, in the table, in the open transaction, in the
batch at hand or in the queue, exactly if no step of it is one of those that lose messages. -/
theorem nothing_lost_iff (render : μ → Text) (maxMessages : ℕ) (messages : List μ)
    (testConnection : Bool) (a₀ : Answers) (es : List (DatabaseEvent μ)) :
    Lts.Always (step render) (Kept render)
        (start maxMessages messages (Oracle.create testConnection a₀).2) es ↔
      Lts.Along (step render) (fun s e => ¬ s.Loses e)
        (start maxMessages messages (Oracle.create testConnection a₀).2) es := by
  have hstart := ordered_start render maxMessages messages (Oracle.create_rows testConnection a₀)
  have hkept := kept_start render maxMessages messages (Oracle.create_rows testConnection a₀)
  constructor
  · exact Lts.along_of_always (I := fun s => Ordered render s ∧ Kept render s) (Q := fun _ => True)
      (fun _ _ _ h _ hn hs => ⟨h.1.step hs, h.2.step hn hs⟩)
      (fun _ _ h hl => not_kept_of_loses h.2 h.1 (not_not.1 hl)) ⟨hstart, hkept⟩
      (fun _ _ => trivial)
  · exact Lts.always_of_along (fun _ _ _ h hn hs => h.step hn hs) hkept

/-! ## Batches -/

/-- The rows of the batch at hand are at the end of the open transaction, or the session is gone. -/
def InTransaction (render : μ → Text) (s : Database μ) : Prop :=
  match s.worker.pc with
  | .saving _ | .interruptionPoint _ | .endBatch => ∃ b bs, s.worker.log = b :: bs
      ∧ b.taken = b.stored ++ s.worker.remaining
      ∧ ∀ c, s.oracle.connection = some c → c.alive = true →
        b.stored.map (row render) <:+ c.inserted
  | _ => True

theorem InTransaction.work {s s' : Database μ} {a : Answers} (h : InTransaction render s)
    (hs : s.step render (.work a) = some s') : InTransaction render s' := by
  obtain ⟨throws, oracle, hcall, rfl, hw⟩ := work_step hs
  obtain ⟨worker', oracle⟩ := s'
  cases hw with
  | wake pc quiet => trivial
  | leave pc requested => trivial
  | begun pc => cases throws <;> trivial
  | taken pc =>
    obtain ⟨rfl, rfl⟩ := call_quiet hcall (by simp [pc]) (by simp [pc]) (by simp [pc])
    cases hq : s.worker.queue.messages <;> simp [InTransaction, Worker.remaining]
  | loopEnd pc =>
    obtain ⟨rfl, rfl⟩ := call_quiet hcall (by simp [pc]) (by simp [pc]) (by simp [pc])
    simpa [InTransaction, Worker.remaining, pc] using h
  | saved msg rest pc =>
    simp only [call, pc] at hcall
    simp only [InTransaction, pc] at h
    obtain ⟨b, bs, hlog, htaken, hin⟩ := h
    obtain ⟨c, hc, hr⟩ := Oracle.saveMessageImpl_cases hcall
    rcases hr with hr | ⟨halive, hr⟩
    · obtain ⟨rfl, rfl⟩ := Prod.mk.inj hr
      trivial
    · obtain ⟨rfl, rfl⟩ := Prod.mk.inj hr
      refine ⟨{ b with called := b.called ++ [msg], stored := b.stored ++ [msg] }, bs, ?_, ?_, ?_⟩
      · simp [Worker.record, hlog]
      · simpa [Worker.remaining, pc] using htaken
      · intro c' hc' _
        obtain rfl := Option.some.inj hc'
        obtain ⟨front, hfront⟩ := hin c hc halive
        exact ⟨front, by simp [← hfront, row]⟩
  | interrupted rest pc requested => trivial
  | resumed rest pc quiet =>
    obtain ⟨rfl, rfl⟩ := call_quiet hcall (by simp [pc]) (by simp [pc]) (by simp [pc])
    simpa [InTransaction, Worker.remaining, pc] using h
  | ended pc => trivial

theorem InTransaction.step {s s' : Database μ} {e : DatabaseEvent μ} (h : InTransaction render s)
    (hs : s.step render e = some s') : InTransaction render s' := by
  cases e with
  | addMessage msg =>
    obtain ⟨w, hw, rfl⟩ := Option.map_eq_some_iff.1 hs
    rcases Worker.addMessage_cases hw with rfl | rfl
    · exact h
    · exact h
  | interrupt =>
    obtain rfl := Option.some.inj hs
    exact h
  | work a => exact h.work hs
  | lose =>
    obtain rfl := Option.some.inj hs
    obtain ⟨worker, oracle⟩ := s
    unfold InTransaction at h ⊢
    have hdead : ∀ c, oracle.lose.connection = some c → c.alive = false := by
      intro c hc
      obtain ⟨_, -, rfl⟩ := Option.map_eq_some_iff.1 hc
      rfl
    split
    all_goals
      rename_i hpc
      dsimp only at hpc
      simp only [hpc] at h
    all_goals try trivial
    all_goals
      obtain ⟨b, bs, hlog, htaken, -⟩ := h
      exact ⟨b, bs, hlog, htaken, fun c hc halive => absurd halive (by simp [hdead c hc])⟩

/-- In every run, whatever fails and whichever sessions are lost: when `end_batch` returns, the
whole batch is in the table, in order and as its last rows, and the next transaction is empty. -/
theorem batch_committed (render : μ → Text) (maxMessages : ℕ) (messages : List μ) (oracle : Oracle)
    (es : List (DatabaseEvent μ)) :
    Lts.Along (step render)
      (fun s _ => s.worker.pc = .endBatch → ∀ a d, s.call render a = some (false, d) →
        ∃ b bs, s.worker.log = b :: bs ∧ b.stored = b.taken
          ∧ b.taken.map (row render) <:+ d.table ∧ d.connection = some ⟨[], true⟩)
      (start maxMessages messages oracle) es := by
  refine Lts.along_of_step (I := InTransaction render) (fun _ _ _ h hs => h.step hs) ?_ es trivial
  intro s _ h hpc a d hcall
  simp only [InTransaction, hpc] at h
  obtain ⟨b, bs, hlog, htaken, hin⟩ := h
  simp only [Worker.remaining, hpc, List.append_nil] at htaken
  simp only [call, hpc] at hcall
  obtain ⟨c, hc, hr⟩ := Oracle.endBatchImpl_cases hcall
  rcases hr with hr | ⟨halive, hr⟩
  · exact absurd (Prod.mk.inj hr).1 Bool.false_ne_true
  · replace hr : d = ⟨some ⟨[], true⟩, s.oracle.table ++ c.inserted⟩ := hr
    subst hr
    refine ⟨b, bs, hlog, htaken.symm, ?_, rfl⟩
    rw [htaken]
    exact (hin c hc halive).trans (List.suffix_append _ _)

/-- The calls of the worker's step return, no session is lost and nobody stops the worker. -/
def Fine : DatabaseEvent μ → Prop
  | .work a => a.created = true ∧ a.checked = true ∧ a.executed = true ∧ a.committed = true
  | .addMessage _ => True
  | _ => False

/-- What a run without failures keeps: outside of a batch the open transaction is empty. -/
structure Settled (s : Database μ) : Prop where
  alive : ∀ c, s.oracle.connection = some c → c.alive = true
  quiet : s.worker.interruptRequested = false
  empty : s.worker.pc = .sleep ∨ s.worker.pc = .beginBatch ∨ s.worker.pc = .assign →
    ∀ c, s.oracle.connection = some c → c.inserted = []

theorem openConnection_fine {d : Oracle} {a : Answers} (halive : ∀ c, d.connection = some c →
    c.alive = true) (hcreated : a.created = true) (hchecked : a.checked = true) :
    d.openConnection a = (false, { d with connection := some (d.connection.getD {}) }) := by
  have hsome : ∀ c table, c.alive = true →
      Oracle.openConnection ⟨some c, table⟩ a = (false, ⟨some c, table⟩) := by
    intro c table hc
    rw [Oracle.openConnection_some, hc, hchecked]
    rfl
  obtain ⟨_ | c, table⟩ := d
  · rw [Oracle.openConnection_none hcreated]
    exact hsome {} table rfl
  · exact hsome c table (halive c rfl)

theorem Settled.work {s s' : Database μ} {a : Answers} (h : Settled s)
    (hfine : Fine (.work a : DatabaseEvent μ)) (hs : s.step render (.work a) = some s') :
    Settled s' := by
  obtain ⟨throws, oracle, hcall, rfl, hw⟩ := work_step hs
  obtain ⟨worker', oracle⟩ := s'
  obtain ⟨hcreated, hchecked, hexecuted, hcommitted⟩ := hfine
  cases hw with
  | wake pc quiet =>
    obtain ⟨rfl, rfl⟩ := call_quiet hcall (by simp [pc]) (by simp [pc]) (by simp [pc])
    exact ⟨h.alive, h.quiet, fun _ => h.empty (.inl pc)⟩
  | leave pc requested => exact absurd requested (by simp [h.quiet])
  | begun pc =>
    simp only [call, pc, Option.some.injEq, openConnection_fine h.alive hcreated hchecked] at hcall
    obtain ⟨rfl, rfl⟩ := Prod.mk.inj hcall
    refine ⟨fun c hc => ?_, h.quiet, fun _ c hc => ?_⟩
    all_goals
      obtain rfl := Option.some.inj hc
      cases hconnection : s.oracle.connection with
      | none => rfl
      | some c => first | exact h.alive c hconnection | exact h.empty (.inr (.inl pc)) c hconnection
  | taken pc =>
    obtain ⟨rfl, rfl⟩ := call_quiet hcall (by simp [pc]) (by simp [pc]) (by simp [pc])
    exact ⟨h.alive, h.quiet, fun _ => h.empty (.inr (.inr pc))⟩
  | loopEnd pc =>
    obtain ⟨rfl, rfl⟩ := call_quiet hcall (by simp [pc]) (by simp [pc]) (by simp [pc])
    exact ⟨h.alive, h.quiet, by simp⟩
  | saved msg rest pc =>
    simp only [call, pc] at hcall
    obtain ⟨c, hc, hr⟩ := Oracle.saveMessageImpl_cases hcall
    have hok : (c.alive && a.executed) = true := by simp [h.alive c hc, hexecuted]
    rw [Oracle.saveMessageImpl, hc] at hcall
    dsimp only at hcall
    rw [if_pos hok, Option.some.injEq] at hcall
    obtain ⟨rfl, rfl⟩ := Prod.mk.inj hcall
    refine ⟨fun c' hc' => ?_, h.quiet, by simp⟩
    obtain rfl := Option.some.inj hc'
    exact h.alive c hc
  | interrupted rest pc requested => exact absurd requested (by simp [h.quiet])
  | resumed rest pc quiet =>
    obtain ⟨rfl, rfl⟩ := call_quiet hcall (by simp [pc]) (by simp [pc]) (by simp [pc])
    exact ⟨h.alive, h.quiet, by simp⟩
  | ended pc =>
    simp only [call, pc] at hcall
    obtain ⟨c, hc, hr⟩ := Oracle.endBatchImpl_cases hcall
    have hok : (c.alive && a.committed) = true := by simp [h.alive c hc, hcommitted]
    rw [Oracle.endBatchImpl, hc] at hcall
    dsimp only at hcall
    rw [if_pos hok, Option.some.injEq] at hcall
    obtain ⟨rfl, rfl⟩ := Prod.mk.inj hcall
    refine ⟨fun c' hc' => ?_, h.quiet, fun _ c' hc' => ?_⟩
    all_goals
      obtain rfl := Option.some.inj hc'
      rfl

theorem Settled.step {s s' : Database μ} {e : DatabaseEvent μ} (h : Settled s) (hfine : Fine e)
    (hs : s.step render e = some s') : Settled s' := by
  cases e with
  | addMessage msg =>
    obtain ⟨w, hw, rfl⟩ := Option.map_eq_some_iff.1 hs
    rcases Worker.addMessage_cases hw with rfl | rfl
    · exact ⟨h.alive, h.quiet, h.empty⟩
    · exact h
  | interrupt => exact hfine.elim
  | work a => exact h.work hfine hs
  | lose => exact hfine.elim

theorem Settled.not_loses {s : Database μ} {e : DatabaseEvent μ} (h : Settled s) (hfine : Fine e) :
    ¬ s.Loses e := by
  cases e with
  | addMessage msg => exact id
  | interrupt => exact id
  | work a =>
    obtain ⟨-, hchecked, hexecuted, -⟩ := hfine
    unfold Loses
    dsimp only
    split
    · rintro ⟨c, hc, -, hno, -⟩
      simp [h.alive c hc, hchecked] at hno
    · rintro ⟨c, hc, hno⟩
      simp [h.alive c hc, hexecuted] at hno
    · simp [h.quiet]
    · exact id
  | lose => exact hfine.elim

theorem Settled.table_eq {s : Database μ} (h : Settled s) (hkept : Kept render s)
    (hpc : s.worker.pc = .sleep ∨ s.worker.pc = .beginBatch ∨ s.worker.pc = .assign) :
    s.oracle.table ++ s.worker.queue.messages.map (row render)
      = s.worker.queue.accepted.map (row render) := by
  have hremaining : s.worker.remaining = [] := by
    rcases hpc with hpc | hpc | hpc <;> rw [Worker.remaining, hpc]
  rw [← hkept, inFlight, Oracle.rows, hremaining, List.nil_append]
  have hempty := h.empty hpc
  cases hc : s.oracle.connection with
  | none => simp
  | some c => simp [hempty c hc]

theorem settled_start (maxMessages : ℕ) (messages : List μ) (testConnection : Bool) :
    Settled (start maxMessages messages (Oracle.create testConnection {}).2) := by
  refine ⟨?_, rfl, fun _ => ?_⟩
  all_goals cases testConnection <;> simp [start, Oracle.create, Oracle.openConnection]

/-- As long as nothing fails, whenever the worker sleeps: the table holds a row for every message
accepted so far but those in the queue, in the order of acceptance. -/
theorem committed_while_asleep (render : μ → Text) (maxMessages : ℕ) (messages : List μ)
    (testConnection : Bool) (es : List (DatabaseEvent μ)) (hfine : ∀ e ∈ es, Fine e) :
    Lts.Always (step render) (fun s => s.worker.pc = .sleep →
        s.oracle.table ++ s.worker.queue.messages.map (row render)
          = s.worker.queue.accepted.map (row render))
      (start maxMessages messages (Oracle.create testConnection {}).2) es := by
  have hrun : Lts.Along (step render) (fun _ e => Fine e)
      (start maxMessages messages (Oracle.create testConnection {}).2) es :=
    Lts.along_of_mem hfine
  refine (Lts.always_of_along (I := fun s => s.Settled ∧ Kept render s) ?_
    ⟨settled_start maxMessages messages testConnection,
      kept_start render maxMessages messages (Oracle.create_rows testConnection {})⟩ hrun).imp ?_
  · intro s e s' h he hs
    exact ⟨h.1.step he hs, h.2.step (h.1.not_loses he) hs⟩
  · intro s h hpc
    exact h.1.table_eq h.2 (.inl hpc)

/-- One message, saved and committed by the seven steps of the worker from one sleep to the next. -/
theorem committed_while_asleep_one :
    Lts.Always (step id) (fun s => s.worker.pc = .sleep →
        s.oracle.table ++ s.worker.queue.messages.map (row id)
          = s.worker.queue.accepted.map (row id))
      (start 4096 [] (Oracle.create true {}).2)
      [.addMessage (text "A=\"1\""), .work {}, .work {}, .work {}, .work {}, .work {}, .work {},
        .work {}] :=
  committed_while_asleep id 4096 [] true _ (by simp [Fine])

end Database

end Communicator
