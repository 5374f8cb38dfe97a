import Communicator.Proofs.Streams
import Communicator.Proofs.Deletions
import Communicator.Proofs.Identities

/-!
# From the wire to the table

What holds of the server in every run of its two threads, whatever bytes come on whichever
connections, whenever the worker takes the queue and however the database behaves: a deletion covers
records that were accepted as a whole, and a row of the table is a record of a frame some connection
was sent. Where the storage does not fail, what a deletion covers is in the table or waits in the
queue.
-/

namespace Communicator

open Lts

variable {κ : Type} [DecidableEq κ] {E : Env} {loaded : Counterer}

/-- The run on frames has a data frame that ends with number `n`, on a connection that was controller
`c` by then, and the records of the frame are as `P` says. -/
def FromFrame (E : Env) (gs : List (OpenEvent κ)) (c n : UInt32)
    (P : List InfoMessage → Prop) : Prop :=
  ∃ k before m after texts firmware, messagesOn k gs = before ++ m :: after
    ∧ identityAfter (0, 0) before = (c, firmware) ∧ m.IsData ∧ 9 ≤ m.data.length
    ∧ infoMessages E m.imData = .returned texts ∧ m.lastMesNumber = n
    ∧ P (labelled c firmware (firstLabel n texts.length) texts)

/-- What a deletion of `n` on connection `k` goes back to: the connection was some controller whose
loaded number was `n`, or of which there was a frame that ends with it. -/
def GoesBack (E : Env) (loaded : Counterer) (gs : List (OpenEvent κ)) (k : κ) (n : UInt32)
    (P : List InfoMessage → Prop) : Prop :=
  n ≠ 0 ∧ ∃ c, (∃ before, before <+: messagesOn k gs ∧ (identityAfter (0, 0) before).1 = c)
    ∧ (loaded c = some n ∨ FromFrame E gs c n P)

theorem FromFrame.mono {gs : List (OpenEvent κ)} {c n : UInt32} {P Q : List InfoMessage → Prop}
    (h : FromFrame E gs c n P) (more : List (OpenEvent κ)) (hPQ : ∀ msgs, P msgs → Q msgs) :
    FromFrame E (gs ++ more) c n Q := by
  obtain ⟨k, before, m, after, texts, firmware, hm, hc, hd, h9, hi, hn, hP⟩ := h
  refine ⟨k, before, m, after ++ messagesOn k more, texts, firmware, ?_, hc, hd, h9, hi, hn,
    hPQ _ hP⟩
  rw [messagesOn_append, hm, List.append_assoc, List.cons_append]

theorem GoesBack.mono {gs : List (OpenEvent κ)} {k : κ} {n : UInt32}
    {P Q : List InfoMessage → Prop} (h : GoesBack E loaded gs k n P) (more : List (OpenEvent κ))
    (hPQ : ∀ msgs, P msgs → Q msgs) : GoesBack E loaded (gs ++ more) k n Q := by
  obtain ⟨h0, c, ⟨before, hbefore, hc⟩, hback⟩ := h
  refine ⟨h0, c, ⟨before, ?_, hc⟩, hback.imp id fun h => h.mono more hPQ⟩
  rw [messagesOn_append]
  exact hbefore.trans (List.prefix_append _ _)

theorem GoesBack.imp {gs : List (OpenEvent κ)} {k : κ} {n : UInt32}
    {P Q : List InfoMessage → Prop} (h : GoesBack E loaded gs k n P)
    (hPQ : ∀ msgs, P msgs → Q msgs) : GoesBack E loaded gs k n Q := by
  have hmono := h.mono [] hPQ
  rwa [List.append_nil] at hmono

/-- Every counter and every deletion is a loaded counter or that of a frame whose records were
accepted, one behind the other. -/
structure Backed (E : Env) (loaded : Counterer) (gs : List (OpenEvent κ)) (t : Server κ) :
    Prop where
  identity : ∀ k, (t.sessions k).identity = identityAfter (0, 0) (messagesOn k gs)
  counter : ∀ c n, t.shared.counterer c = some n →
    loaded c = some n ∨ FromFrame E gs c n (· <:+: t.shared.backend.accepted)
  deletion : ∀ k n, .deleteData n ∈ (t.sessions k).sent →
    GoesBack E loaded gs k n (· <:+: t.shared.backend.accepted)

section Step

variable {gs : List (OpenEvent κ)} {t t' : Server κ} {j : κ} {f : Incoming}

theorem messagesOn_frame (gs : List (OpenEvent κ)) (j : κ) (f : Incoming) :
    messagesOn j (gs ++ [.frame j f]) = messagesOn j gs ++ [f.message] := by
  have hone : framesIn [OpenEvent.frame j f] = [f].map (j, ·) := rfl
  rw [messagesOn_append, messagesOn_served hone]
  rfl

theorem Backed.identity_step (h : Backed E loaded gs t) (hs : t.step E (.frame j f) = some t')
    (k : κ) :
    (t'.sessions k).identity = identityAfter (0, 0) (messagesOn k (gs ++ [.frame j f])) := by
  by_cases hk : k = j
  · subst hk
    rw [messagesOn_frame, identityAfter_concat, ← h.identity]
    exact Server.step_identity hs
  · have hone : framesIn [OpenEvent.frame j f] = [f].map (j, ·) := rfl
    rw [Server.step_of_ne hk hs, messagesOn_append, messagesOn_other hone hk, List.append_nil]
    exact h.identity k

theorem accepted_step (hs : t.step E (.frame j f) = some t') :
    t.shared.backend.accepted <+: t'.shared.backend.accepted := by
  obtain ⟨msgs, hmsgs, -⟩ := frame_adds hs
  rw [hmsgs, BaseImpl.append_accepted]
  exact List.prefix_append _ _

theorem Backed.counter_step (h : Backed E loaded gs t) (hs : t.step E (.frame j f) = some t')
    (c n : UInt32) (hn : t'.shared.counterer c = some n) : loaded c = some n
      ∨ FromFrame E (gs ++ [.frame j f]) c n (· <:+: t'.shared.backend.accepted) := by
  have hold : t.shared.counterer c = some n → loaded c = some n
      ∨ FromFrame E (gs ++ [.frame j f]) c n (· <:+: t'.shared.backend.accepted) := fun hn =>
    (h.counter c n hn).imp id fun h =>
      h.mono _ fun _ hmsgs => hmsgs.trans (accepted_step hs).isInfix
  rcases Server.step_counterer hs with ⟨-, hc, -⟩ | ⟨k, g, texts, he, hkind, -, rfl⟩
  · exact hold (hc ▸ hn)
  · obtain ⟨rfl, rfl⟩ := ServerEvent.frame.inj he
    have hcases := f.kind_cases E
    rw [hkind] at hcases
    cases hcases with
    | package _ hd h9 hi =>
      rw [Server.put_shared, World.taken_shared] at hn ⊢
      dsimp only at hn ⊢
      by_cases hc : c = (t.world j).controllerId
      · -- the frame itself, from the controller that the connection is
        rw [hc, Function.update_self] at hn
        obtain rfl := Option.some.inj hn
        refine .inr ⟨j, messagesOn j gs, f.message, [], texts, (t.world j).firmwareVersion,
          messagesOn_frame gs j f, ?_, hd, h9, hi, rfl, ?_⟩
        · rw [← h.identity j, hc]
          rfl
        · rw [hc]
          exact (List.suffix_append _ _).isInfix
      · rw [Function.update_of_ne hc] at hn
        have hshared : ((t.world j).taken f.message texts).toShared = _ := World.taken_shared
        have hold := hold hn
        rw [Server.put_shared, hshared] at hold
        exact hold

theorem Backed.deletion_step (h : Backed E loaded gs t) (hs : t.step E (.frame j f) = some t')
    (k : κ) (n : UInt32) (hn : .deleteData n ∈ (t'.sessions k).sent) :
    GoesBack E loaded (gs ++ [.frame j f]) k n (· <:+: t'.shared.backend.accepted) := by
  have hold : .deleteData n ∈ (t.sessions k).sent →
      GoesBack E loaded (gs ++ [.frame j f]) k n (· <:+: t'.shared.backend.accepted) := fun hn =>
    (h.deletion k n hn).mono _ fun _ hmsgs => hmsgs.trans (accepted_step hs).isInfix
  by_cases hk : k = j
  · subst hk
    cases Server.step_sending hs with
    | nothing same => exact hold (same ▸ hn)
    | deletion w st world sent =>
      have hd : (t'.sessions k).sent = (t.sessions k).sent ++ w.deletion := by
        rw [World.sendDelete_eq] at world
        have hw := congrArg (fun w : World => w.sent) world
        rw [← sent]
        exact hw
      rw [hd] at hn
      rcases List.mem_append.1 hn with hn | hn
      · exact hold hn
      · obtain ⟨h0, hc, he⟩ := deletion_spec hn
        rw [he] at world
        have hshared : w.toShared = t'.shared := (congrArg World.toShared world).symm
        have hid : (t'.sessions k).controllerId = w.controllerId :=
          congrArg (fun w : World => w.controllerId) world
        refine ⟨h0, w.controllerId, ⟨_, List.prefix_rfl, ?_⟩, h.counter_step hs _ _ (hshared ▸ hc)⟩
        rw [← h.identity_step hs k]
        exact hid
    | request requests asks =>
      rw [asks] at hn
      rcases List.mem_append.1 hn with hn | hn
      · exact hold hn
      · simp at hn
  · rw [Server.step_of_ne hk hs] at hn
    exact hold hn

theorem Backed.step {e : OpenEvent κ} (h : Backed E loaded gs t)
    (hs : t.openStep E e = some t') : Backed E loaded (gs ++ [e]) t' := by
  cases e with
  | frame j f =>
    have hstep : t.step E (.frame j f) = some t' := hs
    exact ⟨h.identity_step hstep, h.counter_step hstep, h.deletion_step hstep⟩
  | queue maxMessages messages =>
    obtain rfl := Option.some.inj hs
    have hnone : ∀ k, messagesOn k (gs ++ [OpenEvent.queue maxMessages messages])
        = messagesOn k gs := fun k => by
      rw [messagesOn_append]
      exact List.append_nil _
    exact ⟨fun k => (h.identity k).trans (by rw [hnone]),
      fun c n hn => (h.counter c n hn).imp id fun h => h.mono _ fun _ => id,
      fun k n hn => (h.deletion k n hn).mono _ fun _ => id⟩

theorem backed_run {backend : BaseImpl InfoMessage}
    (h : run (Server.openStep E) (.start ⟨loaded, backend⟩) gs = some t) :
    Backed E loaded gs t :=
  run_induction (P := fun gs (t : Server κ) => Backed E loaded gs t)
    ⟨fun _ => rfl, fun _ _ h => .inl h, fun _ _ h => absurd h (by simp [Server.start])⟩
    (fun _ _ _ _ _ h hs => h.step hs) h

end Step

/-- What is pending of a frame only adds to what was accepted. -/
theorem Follows.deletion {es : List (SystemEvent κ)} {s : Threads κ} {gs : List (OpenEvent κ)}
    {t : Server κ} (h : Follows E es s gs t) (hb : Backed E loaded gs t) {k : κ} {n : UInt32}
    (hn : .deleteData n ∈ (s.system.peers k).session.sent) :
    GoesBack E loaded gs k n (· <:+: s.system.database.worker.queue.accepted) := by
  obtain ⟨pending, hserves⟩ := h.serves
  have hforget := congrArg Session.sent (hserves.sessions k)
  have hsent : (t.sessions k).sent = (s.system.peers k).session.sent := hforget
  have hmore : t.shared.backend.accepted <:+: s.system.database.worker.queue.accepted := by
    rw [hserves.accepted]
    exact (List.prefix_append _ _).isInfix
  exact (hb.deletion k n (hsent ▸ hn)).imp fun _ hmsgs => hmsgs.trans hmore

/-- After every run of the two threads, whatever bytes came: a deletion on any connection carries a
number that was loaded for a controller the connection named, or that of a data frame which this
controller had sent and whose records were all accepted, one behind the other. -/
theorem deletions_covered (E : Env) (loaded : Counterer) (maxMessages : ℕ) (testConnection : Bool)
    (a₀ : Answers) (es : List (ThreadsEvent κ)) (s : Threads κ) (hs : run (Threads.step E)
      (.start loaded maxMessages (Oracle.create testConnection a₀).2) es = some s) :
    ∃ gs t, run (Server.openStep E) (.start ⟨loaded, ⟨maxMessages, [], []⟩⟩) gs = some t
      ∧ Follows E (ThreadsEvent.given es) s gs t
      ∧ ∀ k n, .deleteData n ∈ (s.system.peers k).session.sent →
        GoesBack E loaded gs k n (· <:+: s.system.database.worker.queue.accepted) := by
  obtain ⟨gs, t, hrun, h⟩ := exists_follows hs
  exact ⟨gs, t, hrun, h, fun k n hn => h.deletion (backed_run hrun) hn⟩

/-! ## A storage that does not fail -/

/-- In what happens to the storage, nothing fails and nobody stops it. -/
def SystemEvent.Fine : SystemEvent κ → Prop
  | .read _ _ => True
  | .work a => Database.Fine (.work a : DatabaseEvent InfoMessage)
  | _ => False

def ThreadsEvent.Fine : ThreadsEvent κ → Prop
  | .turn => True
  | .system e => e.Fine

/-- A step of the worker that goes well, or one that at most adds a message. -/
theorem Threads.fine_cases {s s' : Threads κ} {e : ThreadsEvent κ} {before : List InfoMessage}
    (hp : Underway E s before) (hfine : e.Fine) (hs : s.step E e = some s') :
    (∃ a, e = .system (.work a) ∧ Database.Fine (.work a : DatabaseEvent InfoMessage)
        ∧ s.system.database.step InfoMessage.text (.work a) = some s'.system.database)
      ∨ (∀ a, e ≠ .system (.work a)) ∧ (s'.system.database = s.system.database
        ∨ ∃ x, s.system.database.step InfoMessage.text (.addMessage x)
          = some s'.system.database) := by
  cases e with
  | turn =>
    obtain ⟨k, after, fs, hturn, -⟩ := Threads.turn_cases hp hs
    refine .inr ⟨by simp, ?_⟩
    rcases hturn.database with hd | ⟨x, hd, -⟩
    · exact .inl hd
    · exact .inr ⟨x, hd⟩
  | system e =>
    cases e with
    | read k data =>
      obtain ⟨-, hr⟩ := Threads.read_cases hs
      refine .inr ⟨by simp, .inl ?_⟩
      cases hr with
      | refused => rfl
      | begun => rfl
    | work a =>
      obtain ⟨system, hsystem, rfl⟩ := Option.map_eq_some_iff.1 hs
      obtain ⟨d, hd, rfl⟩ := Option.map_eq_some_iff.1 hsystem
      exact .inl ⟨a, rfl, hfine, hd⟩
    | interrupt => exact hfine.elim
    | lose => exact hfine.elim

/-- What was accepted is in the table, at hand or in the queue. -/
structure Secure (E : Env) (s : Threads κ) : Prop where
  settled : s.system.database.Settled
  kept : Database.Kept InfoMessage.text s.system.database
  underway : ∃ before, Underway E s before

theorem Secure.step {s s' : Threads κ} {e : ThreadsEvent κ} (h : Secure E s) (hfine : e.Fine)
    (hs : s.step E e = some s') : Secure E s' := by
  obtain ⟨hsettled, hkept, before, hp⟩ := h
  have hstep : ∀ e : DatabaseEvent InfoMessage, Database.Fine e →
      s.system.database.step InfoMessage.text e = some s'.system.database → Secure E s' :=
    fun e he hd => ⟨hsettled.step he hd, hkept.step (hsettled.not_loses he) hd, hp.step hs⟩
  rcases Threads.fine_cases hp hfine hs with ⟨a, -, ha, hd⟩ | ⟨-, hd | ⟨x, hd⟩⟩
  · exact hstep (.work a) ha hd
  · exact ⟨hd.symm ▸ hsettled, hd.symm ▸ hkept, hp.step hs⟩
  · exact hstep (.addMessage x) trivial hd

theorem always_secure (E : Env) (loaded : Counterer) (maxMessages : ℕ) (testConnection : Bool)
    {es : List (ThreadsEvent κ)} (hfine : ∀ e ∈ es, e.Fine) :
    Always (Threads.step E) (Secure E)
      (Threads.start loaded maxMessages (Oracle.create testConnection {}).2) es :=
  always_of_along (fun _ _ _ h he hs => h.step he hs)
    ⟨Database.settled_start maxMessages [] testConnection,
      Database.kept_start _ maxMessages [] (Oracle.create_rows testConnection {}), [], .idle rfl⟩
    (along_of_mem hfine)

/-- As long as the storage does not fail, what was accepted is in the table or waits in the queue
whenever the worker sleeps. -/
theorem accepted_stored {maxMessages : ℕ} {testConnection : Bool} {es : List (ThreadsEvent κ)}
    {s : Threads κ} (hfine : ∀ e ∈ es, e.Fine) (hs : run (Threads.step E)
      (.start loaded maxMessages (Oracle.create testConnection {}).2) es = some s)
    (hpc : s.system.database.worker.pc = .sleep) :
    s.system.database.oracle.table
        ++ s.system.database.worker.queue.messages.map (Database.row InfoMessage.text)
      = s.system.database.worker.queue.accepted.map (Database.row InfoMessage.text) := by
  have hsecure := (always_secure E loaded maxMessages testConnection hfine).last hs
  exact hsecure.settled.table_eq hsecure.kept (.inl hpc)

/-- As long as the storage does not fail, whenever the worker sleeps: the records a deletion goes
back to are in the table or in the queue, as rows one behind the other. -/
theorem deletions_secured (E : Env) (loaded : Counterer) (maxMessages : ℕ) (testConnection : Bool)
    (es : List (ThreadsEvent κ)) (s : Threads κ) (hfine : ∀ e ∈ es, e.Fine)
    (hs : run (Threads.step E)
      (.start loaded maxMessages (Oracle.create testConnection {}).2) es = some s)
    (hpc : s.system.database.worker.pc = .sleep) :
    ∃ gs t, run (Server.openStep E) (.start ⟨loaded, ⟨maxMessages, [], []⟩⟩) gs = some t
      ∧ Follows E (ThreadsEvent.given es) s gs t
      ∧ ∀ k n, .deleteData n ∈ (s.system.peers k).session.sent →
        GoesBack E loaded gs k n fun msgs => msgs.map (Database.row InfoMessage.text)
          <:+: s.system.database.oracle.table
            ++ s.system.database.worker.queue.messages.map (Database.row InfoMessage.text) := by
  obtain ⟨gs, t, hrun, h⟩ := exists_follows hs
  refine ⟨gs, t, hrun, h, fun k n hn => ?_⟩
  rw [accepted_stored hfine hs hpc]
  exact (h.deletion (backed_run hrun) hn).imp fun _ hmsgs =>
    hmsgs.map (Database.row InfoMessage.text)

/-- A current record, which is deleted at once, and what the worker does up to its next sleep. -/
def currentRecord : List (ThreadsEvent Unit) :=
  [.system (.read () (oneEvent TmCode.cCurrentData 3).wire), .turn, .turn, .turn, .turn,
    .system (.work {}), .system (.work {}), .system (.work {}), .system (.work {}),
    .system (.work {}), .system (.work {}), .system (.work {})]

theorem currentRecord_fine : ∀ e ∈ currentRecord, e.Fine := by
  simp [currentRecord, ThreadsEvent.Fine, SystemEvent.Fine, Database.Fine]

theorem currentRecord_run : ∃ s, run (Threads.step eventOnly)
      (.start (fun _ => none) 4096 (Oracle.create true {}).2) currentRecord = some s
    ∧ (s.system.peers ()).session.sent = [.deleteData 3]
    ∧ s.system.database.worker.pc = .sleep ∧ s.system.database.oracle.table.length = 1 := by
  have h : (run (Threads.step eventOnly) (.start (fun _ => none) 4096 (Oracle.create true {}).2)
      currentRecord).map (fun s => ((s.system.peers ()).session.sent,
        s.system.database.worker.pc, s.system.database.oracle.table.length))
      = some ([.deleteData 3], .sleep, 1) := by
    decide +kernel
  obtain ⟨s, hs, heq⟩ := Option.map_eq_some_iff.1 h
  simp only [Prod.mk.injEq] at heq
  exact ⟨s, hs, heq⟩

theorem deletions_covered_one : ∃ s, run (Threads.step eventOnly)
      (.start (fun _ => none) 4096 (Oracle.create true {}).2) currentRecord = some s
    ∧ ∃ gs t c, Follows eventOnly (ThreadsEvent.given currentRecord) s gs t
      ∧ FromFrame eventOnly gs c 3 (· <:+: s.system.database.worker.queue.accepted) := by
  obtain ⟨s, hs, hsent, -⟩ := currentRecord_run
  obtain ⟨gs, t, -, h, hback⟩ := deletions_covered eventOnly (fun _ => none) 4096 true {}
    currentRecord s hs
  obtain ⟨-, c, -, hc⟩ := hback () 3 (by rw [hsent]; exact List.mem_singleton.2 rfl)
  exact ⟨s, hs, gs, t, c, h, hc.resolve_left (by simp)⟩

theorem deletions_secured_one : ∃ s, run (Threads.step eventOnly)
      (.start (fun _ => none) 4096 (Oracle.create true {}).2) currentRecord = some s
    ∧ ∃ gs t c, Follows eventOnly (ThreadsEvent.given currentRecord) s gs t
      ∧ FromFrame eventOnly gs c 3 fun msgs => msgs.map (Database.row InfoMessage.text)
          <:+: s.system.database.oracle.table
            ++ s.system.database.worker.queue.messages.map (Database.row InfoMessage.text) := by
  obtain ⟨s, hs, hsent, hpc, -⟩ := currentRecord_run
  obtain ⟨gs, t, -, h, hback⟩ := deletions_secured eventOnly (fun _ => none) 4096 true
    currentRecord s currentRecord_fine hs hpc
  obtain ⟨-, c, -, hc⟩ := hback () 3 (by rw [hsent]; exact List.mem_singleton.2 rfl)
  exact ⟨s, hs, gs, t, c, h, hc.resolve_left (by simp)⟩

/-! ## Where rows come from -/

/-- The messages a run of frames adds to the queue are of these frames. -/
theorem frames_origin {t₀ t : Server κ} {gs : List (OpenEvent κ)}
    (h : run (Server.openStep E) t₀ gs = some t) : ∀ x ∈ t.shared.backend.accepted,
      x ∈ t₀.shared.backend.accepted ∨ ∃ i ∈ framesIn gs, DecodedFrom E i.2.message x := by
  refine run_induction (P := fun gs (t : Server κ) => ∀ x ∈ t.shared.backend.accepted,
    x ∈ t₀.shared.backend.accepted ∨ ∃ i ∈ framesIn gs, DecodedFrom E i.2.message x)
    (fun x hx => .inl hx) ?_ h
  rintro gs t e t' - ih hs x hx
  have hold : x ∈ t.shared.backend.accepted →
      x ∈ t₀.shared.backend.accepted ∨ ∃ i ∈ framesIn (gs ++ [e]), DecodedFrom E i.2.message x := by
    intro hx
    refine (ih x hx).imp id ?_
    rintro ⟨i, hi, hdecoded⟩
    exact ⟨i, by rw [framesIn_append]; exact List.mem_append_left _ hi, hdecoded⟩
  cases e with
  | frame k f =>
    obtain ⟨msgs, hmsgs, -, hdecoded⟩ := frame_adds hs
    rw [hmsgs, BaseImpl.append_accepted] at hx
    rcases List.mem_append.1 hx with hx | hx
    · exact hold hx
    · refine .inr ⟨(k, f), ?_, hdecoded x hx⟩
      rw [framesIn_append]
      exact List.mem_append_right _ (List.mem_singleton.2 rfl)
  | queue maxMessages messages =>
    obtain rfl := Option.some.inj hs
    exact hold hx

omit [DecidableEq κ] in
/-- So are those of a frame that is not done with. -/
theorem pending_origin {s : Threads κ} {before : List InfoMessage} (h : Underway E s before)
    {x : InfoMessage} (hx : x ∈ before) : ∃ k task f, s.task = some (k, task)
      ∧ task.bytes = Incoming.bytes f ∧ DecodedFrom E f.message x := by
  cases h with
  | idle => cases hx
  | scanning => cases hx
  | adding k f done rest task kind =>
    refine ⟨k, _, f, task, rfl, ?_⟩
    have hcases := f.kind_cases E
    rw [kind] at hcases
    cases hcases with
    | package _ hd h9 hi =>
      refine ⟨hd, h9, _, (s.system.world k).controllerId, (s.system.world k).firmwareVersion, hi,
        ?_⟩
      rw [World.entered, ← take_labelled _ _ _ done rest] at hx
      exact List.mem_of_mem_take hx

section Rows

variable (E : Env) (loaded : Counterer) (maxMessages : ℕ) (testConnection : Bool) (a₀ : Answers)
  (es : List (ThreadsEvent κ)) (s : Threads κ)

theorem table_sublist_accepted (hs : run (Threads.step E)
      (.start loaded maxMessages (Oracle.create testConnection a₀).2) es = some s) :
    s.system.database.oracle.table.Sublist
      (s.system.database.worker.queue.accepted.map (Database.row InfoMessage.text)) := by
  obtain ⟨ds, d, hds, rfl, -⟩ := threads_database.run ⟨rfl, [], .idle rfl⟩ hs
  have hordered := run_of_step (fun _ _ _ h hs => Database.Ordered.step h hs)
    (Database.ordered_start InfoMessage.text maxMessages []
      (Oracle.create_rows testConnection a₀)) hds
  exact hordered.table_sublist

theorem accepted_traced (oracle : Oracle)
    (hs : run (Threads.step E) (.start loaded maxMessages oracle) es = some s) :
    ∀ x ∈ s.system.database.worker.queue.accepted, ∃ k m,
      TransportMessage.frame m <:+: (unstuffed k (ThreadsEvent.given es)).buffer
        ∧ DecodedFrom E m x := by
  intro x hx
  obtain ⟨gs, t, hrun, h⟩ := exists_follows hs
  obtain ⟨pending, hserves⟩ := h.serves
  rw [hserves.accepted] at hx
  rcases List.mem_append.1 hx with hx | hx
  · rcases frames_origin hrun x hx with hx | ⟨i, hi, hdecoded⟩
    · cases hx
    · exact ⟨i.1, i.2.message, h.sent i hi, hdecoded⟩
  · obtain ⟨k, task, f, htask, hbytes, hdecoded⟩ := pending_origin hserves.underway hx
    have hpre : f.message.frame <+: f.bytes := List.prefix_append _ _
    have hsuffix := h.placed.bytes k task htask
    rw [hbytes] at hsuffix
    exact ⟨k, f.message, hpre.isInfix.trans hsuffix.isInfix, hdecoded⟩

/-- After every run of the two threads: the rows of the table are those of messages that were
accepted, in order and none twice, and each of these messages is of a data frame with a right
checksum that some connection was sent. -/
theorem rows_traced (hs : run (Threads.step E)
      (.start loaded maxMessages (Oracle.create testConnection a₀).2) es = some s) :
    s.system.database.oracle.table.Sublist
        (s.system.database.worker.queue.accepted.map (Database.row InfoMessage.text))
      ∧ ∀ x ∈ s.system.database.worker.queue.accepted, ∃ k m,
        TransportMessage.frame m <:+: (unstuffed k (ThreadsEvent.given es)).buffer
          ∧ DecodedFrom E m x :=
  ⟨table_sublist_accepted E loaded maxMessages testConnection a₀ es s hs,
    accepted_traced E loaded maxMessages es s _ hs⟩

end Rows

/-- A frame with one record whose handler waits while the worker wakes up and opens its connection,
and what the worker does up to its next sleep. -/
def oneRecord : List (ThreadsEvent Unit) :=
  [.system (.read () (oneEvent TmCode.cArchiveData 3).wire), .turn, .system (.work {}),
    .system (.work {}), .turn, .system (.work {}), .turn, .system (.work {}), .turn,
    .system (.work {}), .system (.work {}), .system (.work {})]

theorem rows_traced_one : ∃ s, run (Threads.step eventOnly)
      (.start (fun _ => none) 4096 (Oracle.create true {}).2) oneRecord = some s
    ∧ s.system.database.oracle.table.length = 1
    ∧ ∀ x ∈ s.system.database.worker.queue.accepted, ∃ k m,
      TransportMessage.frame m <:+: (unstuffed k (ThreadsEvent.given oneRecord)).buffer
        ∧ DecodedFrom eventOnly m x := by
  have h : (run (Threads.step eventOnly) (.start (fun _ => none) 4096 (Oracle.create true {}).2)
      oneRecord).map (fun s => s.system.database.oracle.table.length) = some 1 := by
    decide +kernel
  obtain ⟨s, hs, hlen⟩ := Option.map_eq_some_iff.1 h
  exact ⟨s, hs, hlen, (rows_traced eventOnly (fun _ => none) 4096 true {} oneRecord s hs).2⟩

end Communicator
