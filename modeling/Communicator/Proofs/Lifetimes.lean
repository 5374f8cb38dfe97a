import Communicator.Network

/-!
# Handlers of dropped clients

A client lives while `clients_` or the handler of its accept refers to it. Its reads and writes do
not keep it, so a closed client must not be dropped before the handlers of its last operations were
run; the timer does not ask whether they were.
-/

namespace Communicator

/-- The client whose shared pointer the handler holds. -/
def Operation.accepted : Operation → Option ℕ
  | .accept c => some c
  | _ => none

namespace Network

variable {s s' : Network} {c : ℕ} {op o : Operation} {status : Status}

/-- The operations whose handlers are still to be run. -/
def outstanding (s : Network) : List Operation := s.pending ++ s.ready.map (·.operation)

def Alive (s : Network) (c : ℕ) : Prop := c ∈ s.clients ∨ .accept c ∈ s.outstanding

/-- If the handler of a read or a write is run, its client is alive. -/
def Safe (s : Network) : NetworkEvent → Prop
  | .runs _ _ => ∀ d ∈ s.ready.head?, ∀ c, d.operation.this = some c → s.Alive c
  | .completes _ _ => True

/-- If the timer drops clients, no handler of a closed client is still to be run. -/
def Quiet (s : Network) : NetworkEvent → Prop
  | .runs _ _ => s.ready.head? = some ⟨.timer, .success⟩ →
      ∀ c ∈ s.clients, s.isOpen c = false → ∀ op ∈ s.outstanding, op.this ≠ some c
  | .completes _ _ => True

instance (s : Network) : ∀ e, Decidable (Quiet s e)
  | .runs _ _ => inferInstanceAs (Decidable (_ → _))
  | .completes _ _ => inferInstanceAs (Decidable True)

/-- Whoever's handlers are to be run is in `clients_`. -/
def Held (s : Network) : Prop := ∀ op ∈ s.outstanding, ∀ c, op.this = some c → c ∈ s.clients

theorem outstanding_startOperation :
    (s.startOperation op c).outstanding.Perm (op :: s.outstanding) := by
  unfold startOperation outstanding
  split
  · rw [List.append_assoc]
    exact List.perm_middle
  · rw [List.map_append, ← List.append_assoc]
    exact List.perm_append_singleton op _

theorem clients_startOperation : (s.startOperation op c).clients = s.clients := by
  unfold startOperation
  split <;> rfl

theorem created_startOperation : (s.startOperation op c).created = s.created := by
  unfold startOperation
  split <;> rfl

theorem outstanding_stop : (s.stop c).outstanding.Perm s.outstanding := by
  simp only [outstanding, stop, List.map_append, List.map_map, Function.comp_def, List.map_id']
  refine (List.perm_append_comm.append_left _).trans ?_
  rw [← List.append_assoc]
  refine List.Perm.append_right _ (List.perm_append_comm.trans ?_)
  simpa using List.filter_append_perm (fun op : Operation => decide (op.this = some c)) s.pending

theorem outstanding_complete (h : s.CanComplete op status) :
    (s.complete op status).outstanding.Perm s.outstanding := by
  simp only [outstanding, complete, List.map_append, List.map_cons, List.map_nil]
  rw [← List.append_assoc]
  refine (List.perm_append_singleton op _).trans ?_
  exact (List.perm_cons_erase h.1).symm.append_right _

theorem outstanding_ready {d : Completion} {rest : List Completion} (h : s.ready = d :: rest) :
    s.outstanding.Perm (d.operation :: ({ s with ready := rest } : Network).outstanding) := by
  rw [outstanding, h]
  exact List.perm_middle

theorem outstanding_handleTimer :
    (s.handleTimer .success).outstanding.Perm (.timer :: s.outstanding) := by
  simp only [outstanding, Network.handleTimer, dropUnusedClients, List.append_assoc]
  exact List.perm_middle

theorem mem_outstanding_startOperation :
    o ∈ (s.startOperation op c).outstanding ↔ o ∈ s.outstanding ∨ o = op := by
  rw [outstanding_startOperation.mem_iff, List.mem_cons, or_comm]

theorem Held.safe (h : Held s) (e : NetworkEvent) : Safe s e := by
  cases e with
  | completes => trivial
  | runs =>
    intro d hd c hc
    have hmem : d.operation ∈ s.outstanding :=
      List.mem_append_right _ (List.mem_map_of_mem (List.mem_of_mem_head? hd))
    exact .inl (h _ hmem c hc)

theorem Held.startOperation (h : Held s) (hop : ∀ d, op.this = some d → d ∈ s.clients) :
    Held (s.startOperation op c) := by
  intro o ho d hd
  rw [clients_startOperation]
  rcases mem_outstanding_startOperation.1 ho with ho | rfl
  · exact h o ho d hd
  · exact hop d hd

theorem Held.stop (h : Held s) : Held (s.stop c) :=
  fun o ho d hd => h o (outstanding_stop.mem_iff.1 ho) d hd

theorem Held.complete (h : Held s) (hc : s.CanComplete op status) : Held (s.complete op status) :=
  fun o ho d hd => h o ((outstanding_complete hc).mem_iff.1 ho) d hd

theorem Held.startAccept (h : Held s) : Held s.startAccept := by
  intro o ho d hd
  simp only [outstanding, Network.startAccept, List.mem_append, List.mem_singleton] at ho
  rcases ho with (hp | rfl) | hr
  · exact h o (List.mem_append_left _ hp) d hd
  · cases hd
  · exact h o (List.mem_append_right _ hr) d hd

theorem Held.meanwhile (h : Held s) (hc : c ∈ s.clients) (m : Meanwhile) :
    Held (meanwhile c s m) ∧ c ∈ (meanwhile c s m).clients := by
  cases m with
  | send =>
    refine ⟨h.startOperation fun d hd => ?_, ?_⟩
    · obtain rfl := Option.some.inj hd
      exact hc
    · rw [Network.meanwhile, clients_startOperation]
      exact hc
  | stop => exact ⟨h.stop, hc⟩
  | completes op status =>
    simp only [Network.meanwhile]
    split
    · rename_i hcan
      exact ⟨h.complete hcan, hc⟩
    · exact ⟨h, hc⟩

theorem Held.meanwhiles : ∀ (during : List Meanwhile) {s : Network}, Held s → c ∈ s.clients →
    Held (during.foldl (Network.meanwhile c) s)
  | [], _, h, _ => h
  | m :: during, _, h, hc =>
    Held.meanwhiles during (h.meanwhile hc m).1 (h.meanwhile hc m).2

theorem Held.handleRead (h : Held s) (hc : c ∈ s.clients) (during : List Meanwhile)
    (throws : Bool) (status : Status) : Held (s.handleRead c during throws status) := by
  cases status with
  | success =>
    have hstart : Held (s.startOperation (.read c) c) := by
      refine h.startOperation fun d hd => ?_
      obtain rfl := Option.some.inj hd
      exact hc
    have hduring := hstart.meanwhiles during (clients_startOperation ▸ hc)
    cases throws with
    | true => exact hduring.stop
    | false => exact hduring
  | badLength => exact h.stop
  | operationAborted => exact h
  | failure => exact h.stop

theorem Held.handleWrite (h : Held s) (status : Status) : Held (s.handleWrite c status) := by
  cases status with
  | failure => exact h.stop
  | success | badLength | operationAborted => exact h

theorem mem_outstanding_startClient {throws : Bool}
    (ho : o ∈ (s.startClient c throws).outstanding) : o ∈ s.outstanding ∨ o = .read c := by
  cases throws with
  | true => exact .inl (outstanding_stop.mem_iff.1 ho)
  | false => exact mem_outstanding_startOperation.1 ho

theorem clients_startClient (throws : Bool) : (s.startClient c throws).clients = s.clients := by
  cases throws with
  | true => rfl
  | false => exact clients_startOperation

/-- The client of an accept is put into `clients_` with its first read. -/
theorem Held.handleAccept (h : Held s) (throws : Bool) (status : Status) :
    Held (s.handleAccept c throws status) := by
  cases status with
  | success =>
    refine Held.startAccept fun o ho d hd => ?_
    simp only [clients_startClient, List.mem_append, List.mem_singleton]
    rcases mem_outstanding_startClient ho with ho | rfl
    · exact .inl (h o ho d hd)
    · exact .inr (Option.some.inj hd).symm
  | badLength | operationAborted | failure => exact h.startAccept

theorem Held.handleTimer (h : Held s) {status : Status} (hq : status = .success →
    ∀ c ∈ s.clients, s.isOpen c = false → ∀ op ∈ s.outstanding, op.this ≠ some c) :
    Held (s.handleTimer status) := by
  cases status with
  | success =>
    intro o ho d hd
    have ho' : o ∈ s.outstanding := by
      rcases List.mem_cons.1 (outstanding_handleTimer.mem_iff.1 ho) with rfl | ho
      · cases hd
      · exact ho
    have hmem := h o ho' d hd
    refine List.mem_filter.2 ⟨hmem, ?_⟩
    by_contra hclosed
    exact hq rfl d hmem (Bool.eq_false_iff.2 hclosed) o ho' hd
  | badLength | operationAborted | failure => exact h

theorem step_cases {e : NetworkEvent} (hs : s.step e = some s') :
    (∃ op status, e = .completes op status ∧ s.CanComplete op status ∧ s' = s.complete op status)
      ∨ ∃ during throws d rest, e = .runs during throws ∧ s.ready = d :: rest
        ∧ s' = ({ s with ready := rest } : Network).handle during throws d := by
  cases e with
  | completes op status =>
    simp only [Network.step] at hs
    split at hs
    · rename_i hcan
      exact .inl ⟨op, status, rfl, hcan, (Option.some.inj hs).symm⟩
    · cases hs
  | runs during throws =>
    cases hr : s.ready with
    | nil => simp [Network.step, hr] at hs
    | cons d rest =>
      simp only [Network.step, hr] at hs
      exact .inr ⟨during, throws, d, rest, rfl, rfl, (Option.some.inj hs).symm⟩

theorem Held.step {e : NetworkEvent} (h : Held s) (hq : Quiet s e) (hs : s.step e = some s') :
    Held s' := by
  rcases step_cases hs with ⟨op, status, rfl, hcan, rfl⟩ | ⟨during, throws, d, rest, rfl, hr, rfl⟩
  · exact h.complete hcan
  · have hsub : ∀ o ∈ ({ s with ready := rest } : Network).outstanding, o ∈ s.outstanding :=
      fun o ho => (outstanding_ready hr).mem_iff.2 (List.mem_cons_of_mem _ ho)
    have hrest : Held { s with ready := rest } := fun o ho => h o (hsub o ho)
    have hd : ∀ c, d.operation.this = some c → c ∈ s.clients :=
      h d.operation ((outstanding_ready hr).mem_iff.2 List.mem_cons_self)
    obtain ⟨op, status⟩ := d
    cases op with
    | accept c => exact hrest.handleAccept throws status
    | read c => exact hrest.handleRead (hd c rfl) during throws status
    | write c => exact hrest.handleWrite status
    | timer =>
      refine hrest.handleTimer fun hst c hc hclosed o ho => ?_
      subst hst
      exact hq (by rw [hr]; rfl) c hc hclosed o (hsub o ho)

/-- In every run in which the timer drops no client whose handlers are still to be run, no handler
of a dropped client is run. -/
theorem along_safe {es : List NetworkEvent} (h : Lts.Along Network.step Quiet start es) :
    Lts.Along Network.step Safe start es := by
  have hstart : Held start := by
    intro o ho c hc
    rcases List.mem_append.1 ho with ho | ho
    · simp only [start, List.mem_cons, List.not_mem_nil, or_false] at ho
      rcases ho with rfl | rfl <;> cases hc
    · cases ho
  exact h.imp (fun s e hs _ => hs.safe e) (fun _ _ _ hs hq hst => hs.step hq hst) hstart

/-- `recive` closes the first client; the timer elapses when the aborted read's handler was run. -/
theorem safe_timer_after : Lts.Along Network.step Safe start
    [.completes (.accept 0) .success, .runs [] false, .completes (.read 0) .success,
      .runs [.stop] false, .runs [] false, .completes .timer .success, .runs [] false] :=
  along_safe (by decide)

/-- The timer elapses while the handler of the client's read waits. That handler starts the next
read before `recive` calls `stop`, so the aborted read's handler stands behind the timer's. -/
def timerBetween : List NetworkEvent :=
  [.completes (.accept 0) .success, .runs [] false, .completes (.read 0) .success,
    .completes .timer .success, .runs [.stop] false, .runs [] false]

theorem handler_of_dropped :
    ¬ Lts.Along Network.step Safe start (timerBetween ++ [.runs [] false]) := by
  intro h
  have hsafe := h.after rfl ⟨.read 0, .operationAborted⟩ rfl 0 rfl
  unfold Alive at hsafe
  revert hsafe
  decide

/-! ## What is dropped stays dropped -/

/-- The clients whose accepts are outstanding. -/
def accepting (s : Network) : List ℕ := s.outstanding.filterMap Operation.accepted

/-- `s'` accepts no other clients than `s` and has none that `s` does not have. -/
structure Keeps (s s' : Network) : Prop where
  accepting : s'.accepting.Perm s.accepting
  created : s'.created = s.created
  clients : s'.clients ⊆ s.clients

/-- One accept is outstanding, that of the client created last. -/
structure Numbered (k : ℕ) (s : Network) : Prop where
  accepting : s.accepting = [k]
  created : s.created = k + 1
  clients : ∀ c ∈ s.clients, c < k

/-- A client that was accepted and is not in `clients_`. -/
structure Dropped (c k : ℕ) (s : Network) : Prop extends Numbered k s where
  lt : c < k
  not_mem : c ∉ s.clients

theorem Keeps.refl : Keeps s s := ⟨.rfl, rfl, List.Subset.refl _⟩

theorem Keeps.trans {t : Network} (h : Keeps s t) (h' : Keeps t s') : Keeps s s' :=
  ⟨h'.accepting.trans h.accepting, h'.created.trans h.created,
    List.Subset.trans h'.clients h.clients⟩

theorem Keeps.startOperation (h : op.accepted = none) : Keeps s (s.startOperation op c) where
  accepting := by
    have hperm : (s.startOperation op c).accepting.Perm
        ((op :: s.outstanding).filterMap Operation.accepted) :=
      outstanding_startOperation.filterMap _
    rwa [List.filterMap_cons_none h] at hperm
  created := created_startOperation
  clients := by
    rw [clients_startOperation]
    exact List.Subset.refl _

theorem Keeps.stop : Keeps s (s.stop c) :=
  ⟨outstanding_stop.filterMap _, rfl, List.Subset.refl _⟩

theorem Keeps.complete (h : s.CanComplete op status) : Keeps s (s.complete op status) :=
  ⟨(outstanding_complete h).filterMap _, rfl, List.Subset.refl _⟩

theorem Keeps.meanwhile (m : Meanwhile) : Keeps s (meanwhile c s m) := by
  cases m with
  | send => exact .startOperation rfl
  | stop => exact .stop
  | completes op status =>
    simp only [Network.meanwhile]
    split
    · rename_i hcan
      exact .complete hcan
    · exact .refl

theorem Keeps.meanwhiles : ∀ (during : List Meanwhile) {s : Network},
    Keeps s (during.foldl (Network.meanwhile c) s)
  | [], _ => .refl
  | m :: during, _ => (Keeps.meanwhile m).trans (Keeps.meanwhiles during)

theorem Keeps.handleRead (during : List Meanwhile) (throws : Bool) (status : Status) :
    Keeps s (s.handleRead c during throws status) := by
  cases status with
  | success =>
    have hduring : Keeps s (during.foldl (Network.meanwhile c) (s.startOperation (.read c) c)) :=
      (Keeps.startOperation rfl).trans (.meanwhiles during)
    cases throws with
    | true => exact hduring.trans .stop
    | false => exact hduring
  | badLength => exact .stop
  | operationAborted => exact .refl
  | failure => exact .stop

theorem Keeps.handleWrite (status : Status) : Keeps s (s.handleWrite c status) := by
  cases status with
  | failure => exact .stop
  | success | badLength | operationAborted => exact .refl

theorem Keeps.startClient (throws : Bool) : Keeps s (s.startClient c throws) := by
  cases throws with
  | true => exact .stop
  | false => exact .startOperation rfl

theorem Keeps.handleTimer (status : Status) : Keeps s (s.handleTimer status) := by
  cases status with
  | success =>
    exact ⟨outstanding_handleTimer.filterMap _, rfl, List.filter_subset_self _⟩
  | badLength | operationAborted | failure => exact .refl

theorem Numbered.keeps {k : ℕ} (h : Numbered k s) (hk : Keeps s s') : Numbered k s' where
  accepting := List.perm_singleton.1 (h.accepting ▸ hk.accepting)
  created := hk.created.trans h.created
  clients c hc := h.clients c (hk.clients hc)

theorem Dropped.not_alive {k : ℕ} (h : Dropped c k s) : ¬ s.Alive c := by
  rintro (hc | hc)
  · exact h.not_mem hc
  · have hmem : c ∈ s.accepting := List.mem_filterMap.2 ⟨_, hc, rfl⟩
    rw [h.accepting, List.mem_singleton] at hmem
    exact Nat.ne_of_lt h.lt hmem

theorem Numbered.startAccept {k : ℕ} (hacc : s.accepting = []) (hcr : s.created = k)
    (hcl : ∀ c ∈ s.clients, c < k) : Numbered k s.startAccept where
  accepting := by
    simp only [Network.accepting, outstanding, List.filterMap_append,
      List.append_eq_nil_iff] at hacc
    simp [Network.accepting, outstanding, Network.startAccept, hacc, hcr, Operation.accepted]
  created := congrArg (· + 1) hcr
  clients := hcl

/-- The accept that was outstanding is replaced by that of a new client. -/
theorem Numbered.handleAccept {k : ℕ} (hacc : s.accepting = []) (hcr : s.created = k + 1)
    (hcl : ∀ c ∈ s.clients, c < k) (throws : Bool) (status : Status) :
    Numbered (k + 1) (s.handleAccept k throws status) := by
  have hlt : ∀ c ∈ s.clients, c < k + 1 := fun c hc => Nat.lt_succ_of_lt (hcl c hc)
  cases status with
  | success =>
    let t : Network := { s with isOpen := Function.update s.isOpen k true }
    have hk : Keeps t (t.startClient k throws) := .startClient throws
    refine Numbered.startAccept ?_ (hk.created.trans hcr) fun c hc => ?_
    · exact List.perm_nil.1 (hacc ▸ hk.accepting)
    · rcases List.mem_append.1 hc with hc | hc
      · exact hlt c (hk.clients hc)
      · exact List.mem_singleton.1 hc ▸ Nat.lt_succ_self k
  | badLength | operationAborted | failure => exact .startAccept hacc hcr hlt

theorem clients_handleAccept (throws : Bool) (status : Status) :
    (s.handleAccept c throws status).clients ⊆ c :: s.clients := by
  cases status with
  | success =>
    refine List.append_subset.2 ⟨?_, fun d hd => ?_⟩
    · rw [clients_startClient]
      exact List.subset_cons_self _ _
    · rw [List.mem_singleton.1 hd]
      exact List.mem_cons_self
  | badLength | operationAborted | failure => exact List.subset_cons_self _ _

theorem Keeps.ready {d : Completion} {rest : List Completion} (hr : s.ready = d :: rest)
    (hd : d.operation.accepted = none) : Keeps s { s with ready := rest } where
  accepting := by
    have hperm : s.accepting.Perm ((d.operation ::
        ({ s with ready := rest } : Network).outstanding).filterMap Operation.accepted) :=
      (outstanding_ready hr).filterMap _
    rw [List.filterMap_cons_none hd] at hperm
    exact hperm.symm
  created := rfl
  clients := List.Subset.refl _

/-- Nothing brings a client into `clients_` but its accept. -/
theorem Numbered.step {k : ℕ} {e : NetworkEvent} (h : Numbered k s) (hs : s.step e = some s') :
    ∃ k', k ≤ k' ∧ Numbered k' s' ∧ s'.clients ⊆ k :: s.clients := by
  have hkeeps : ∀ {t : Network}, Keeps s t →
      ∃ k', k ≤ k' ∧ Numbered k' t ∧ t.clients ⊆ k :: s.clients := fun hk =>
    ⟨k, Nat.le_refl k, h.keeps hk, List.subset_cons_of_subset _ hk.clients⟩
  rcases step_cases hs with ⟨op, status, rfl, hcan, rfl⟩ | ⟨during, throws, d, rest, rfl, hr, rfl⟩
  · exact hkeeps (.complete hcan)
  · obtain ⟨op, status⟩ := d
    cases op with
    | accept c =>
      have hperm : (c :: ({ s with ready := rest } : Network).accepting).Perm [k] :=
        h.accepting ▸ ((outstanding_ready hr).filterMap Operation.accepted).symm
      obtain ⟨rfl, hacc⟩ := List.cons.inj (List.perm_singleton.1 hperm)
      exact ⟨c + 1, Nat.le_succ c, .handleAccept hacc h.created h.clients throws status,
        clients_handleAccept throws status⟩
    | read c => exact hkeeps ((Keeps.ready hr rfl).trans (.handleRead during throws status))
    | write c => exact hkeeps ((Keeps.ready hr rfl).trans (.handleWrite status))
    | timer => exact hkeeps ((Keeps.ready hr rfl).trans (.handleTimer status))

theorem Dropped.step {k : ℕ} {e : NetworkEvent} (h : Dropped c k s) (hs : s.step e = some s') :
    ∃ k', Dropped c k' s' := by
  obtain ⟨k', hle, hnum, hsub⟩ := h.toNumbered.step hs
  refine ⟨k', hnum, Nat.lt_of_lt_of_le h.lt hle, fun hc => ?_⟩
  rcases List.mem_cons.1 (hsub hc) with rfl | hc
  · exact Nat.lt_irrefl _ h.lt
  · exact h.not_mem hc

theorem exists_numbered {es : List NetworkEvent} (h : Lts.run Network.step start es = some s) :
    ∃ k, Numbered k s := by
  refine Lts.run_of_step (I := fun s => ∃ k, Numbered k s) (fun _ _ _ hnum hs => ?_)
    ⟨0, rfl, rfl, by simp [start]⟩ h
  obtain ⟨k, hnum⟩ := hnum
  obtain ⟨k', -, hnum', -⟩ := hnum.step hs
  exact ⟨k', hnum'⟩

theorem ready_startOperation : s.ready <+: (s.startOperation op c).ready := by
  unfold startOperation
  split
  · exact List.prefix_rfl
  · exact List.prefix_append _ _

theorem ready_stop : s.ready <+: (s.stop c).ready := List.prefix_append _ _

/-- A handler in which nothing happens leaves the queue behind it as it was. -/
theorem ready_prefix (d : Completion) : s.ready <+: (s.handle [] false d).ready := by
  obtain ⟨op, status⟩ := d
  cases op with
  | accept c =>
    cases status with
    | success =>
      let t : Network := { s with isOpen := Function.update s.isOpen c true }
      have ht : t.ready <+: (t.startClient c false).ready := ready_startOperation
      exact ht
    | badLength | operationAborted | failure => exact List.prefix_rfl
  | read c =>
    cases status with
    | success => exact ready_startOperation
    | badLength | failure => exact ready_stop
    | operationAborted => exact List.prefix_rfl
  | write c =>
    cases status with
    | failure => exact ready_stop
    | success | badLength | operationAborted => exact List.prefix_rfl
  | timer => cases status <;> exact List.prefix_rfl

theorem Dropped.exists_unsafe_of_ready {d : Completion} (hd : d.operation.this = some c) :
    ∀ (pre : List Completion) {post : List Completion} {k : ℕ} {s : Network}, Dropped c k s →
      s.ready = pre ++ d :: post → ∃ es, ¬ Lts.Along Network.step Safe s es
  | [], _, _, s, h, hr => by
    refine ⟨[.runs [] false], fun ha => h.not_alive (ha.1 d ?_ c hd)⟩
    rw [hr]
    rfl
  | d' :: pre, post, _, s, h, hr => by
    let t : Network := { s with ready := pre ++ d :: post }
    have hs : s.step (.runs [] false) = some (t.handle [] false d') := by
      simp [Network.step, hr, t]
    obtain ⟨k', h'⟩ := h.step hs
    obtain ⟨new, hnew⟩ := ready_prefix (s := t) d'
    rw [List.append_assoc] at hnew
    obtain ⟨es, hes⟩ := Dropped.exists_unsafe_of_ready hd pre h' hnew.symm
    exact ⟨.runs [] false :: es, fun ha => hes (ha.2 _ hs)⟩

theorem Dropped.exists_unsafe {k : ℕ} (h : Dropped c k s) (hop : op ∈ s.outstanding)
    (hc : op.this = some c) : ∃ es, ¬ Lts.Along Network.step Safe s es := by
  rcases List.mem_append.1 hop with hp | hr
  · have hcan : s.CanComplete op .failure := ⟨hp, by decide⟩
    have hs : s.step (.completes op .failure) = some (s.complete op .failure) := if_pos hcan
    obtain ⟨k', h'⟩ := h.step hs
    obtain ⟨es, hes⟩ := Dropped.exists_unsafe_of_ready (d := ⟨op, .failure⟩) hc s.ready h' rfl
    exact ⟨.completes op .failure :: es, fun ha => hes (ha.2 _ hs)⟩
  · obtain ⟨d, hd, rfl⟩ := List.mem_map.1 hr
    obtain ⟨pre, post, hready⟩ := List.append_of_mem hd
    exact Dropped.exists_unsafe_of_ready hc pre h hready

/-- Whenever the timer drops a client whose handlers are still to be run, the run can go on to one
of them. -/
theorem exists_unsafe {es : List NetworkEvent} {e : NetworkEvent}
    (h : Lts.run Network.step start es = some s) (hq : ¬ Quiet s e) :
    ∃ es', ¬ Lts.Along Network.step Safe start (es ++ e :: es') := by
  cases e with
  | completes => exact absurd trivial hq
  | runs during throws =>
    obtain ⟨k, hnum⟩ := exists_numbered h
    simp only [Quiet, not_forall, not_not] at hq
    obtain ⟨hr, c, hc, hclosed, op, hop, hthis⟩ := hq
    obtain ⟨rest, hr⟩ := List.head?_eq_some_iff.1 hr
    let t : Network := ({ s with ready := rest } : Network).handleTimer .success
    have hs : s.step (.runs during throws) = some t := by
      simp only [Network.step, hr]
      rfl
    have hdropped : Dropped c k t := by
      have hkeeps : Keeps s t := (Keeps.ready hr rfl).trans (.handleTimer _)
      refine ⟨hnum.keeps hkeeps, hnum.clients c hc, fun hmem => ?_⟩
      have hopen : s.isOpen c = true := (List.mem_filter.1 hmem).2
      rw [hclosed] at hopen
      cases hopen
    have hop' : op ∈ t.outstanding := by
      refine outstanding_handleTimer.mem_iff.2 (List.mem_cons_of_mem _ ?_)
      rcases List.mem_cons.1 ((outstanding_ready hr).mem_iff.1 hop) with rfl | hop
      · cases hthis
      · exact hop
    obtain ⟨es', hes⟩ := hdropped.exists_unsafe hop' hthis
    exact ⟨es', fun ha => hes ((ha.rest h).2 t hs)⟩

end Network

end Communicator
