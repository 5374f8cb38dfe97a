import Communicator.Proofs.Streams

/-!
# Bytes and frames

A run of the whole server, in which each read is done at once, is a run of the server on frames
(`exists_agree`). The frames a connection is sent there stand in the bytes it read, and as long as
it is not stopped they are just those a scan of all these bytes finds.
-/

namespace Communicator

open Lts

section Refinement

variable {κ : Type} [DecidableEq κ] {E : Env} {k : κ}

/-- What a scan finds are frames. -/
theorem scan_frame (xs : List UInt8) :
    ∀ i ∈ (framing.scan xs).items, ∃ m : TransportMessage, i.2 = m.frame := by
  induction xs using framing.scan_induction with
  | more xs h => simp [framing.scan_more h]
  | bad xs h => simp [framing.scan_bad h]
  | item xs g b r h ih =>
    intro i hi
    rw [framing.scan_item h] at hi
    simp only [Scan.Result.andThen, List.singleton_append, List.mem_cons, List.mem_map] at hi
    rcases hi with rfl | ⟨j, hj, rfl⟩
    · exact (nextFrame_is_frame h).2
    · exact ih j hj

/-- A run of the server on frames that does what handing over the frames of a buffer did. All of
them were handed over if every handler returned. -/
structure HandedOver (E : Env) (k : κ) (buf : List UInt8) (items : List (ℕ × List UInt8))
    (t : Server κ) (w : World) (r : Outcome Unit × World × List Dispatch) (fs : List Incoming)
    (t' : Server κ) : Prop where
  run : run (Server.step E) t (fs.map (.frame k)) = some t'
  world : (t'.world k).forget = r.2.1.forget
  others : ∀ j ≠ k, t'.sessions j = t.sessions j
  inside : ∀ f ∈ fs, f.bytes <:+ buf
  all : r.1 = .returned () → fs.map (·.message.frame) = items.map (·.2)
  goesOn : r.1 = .returned () →
    (t'.sessions k).stopped = (t.sessions k).stopped ∧ r.2.1.stopped = w.stopped

theorem exists_handedOver {buf : List UInt8} (hbuf : buf.length < 2 ^ 63) :
    ∀ (items : List (ℕ × List UInt8)) (t : Server κ) (w : World),
      (∀ i ∈ items, ∃ m : TransportMessage, i.2 = m.frame ∧ m.frame <+: buf.drop i.1) →
      (t.world k).forget = w.forget →
      (handOver (transportProtocol E) buf w items).1 ≠ .undefined →
      ∃ fs t', HandedOver E k buf items t w (handOver (transportProtocol E) buf w items) fs t'
  | [], t, w, _, hw, _ =>
    ⟨[], t, rfl, hw, fun _ _ => rfl, by simp, fun _ => rfl, fun _ => ⟨rfl, rfl⟩⟩
  | (offset, frame) :: items, t, w, hi, hw, hne => by
    obtain ⟨m, rfl, rest, hm⟩ := hi _ List.mem_cons_self
    have hlen : (m.frame ++ rest).length < 2 ^ 63 := by
      rw [hm, List.length_drop]
      omega
    obtain ⟨f, hf, rfl⟩ : ∃ f : Incoming, f.bytes = buf.drop offset ∧ f.message = m :=
      ⟨⟨m, rest, hlen⟩, hm, rfl⟩
    have hsuffix : f.bytes <:+ buf := hf ▸ List.drop_suffix _ _
    have hp : (transportProtocol E).processMessage w (buf.drop offset)
        = processMessage E w f.bytes := by
      rw [hf]
      rfl
    simp only [handOver, hp] at hne ⊢
    rcases hr : processMessage E w f.bytes with ⟨_ | e | _, w'⟩
    · rw [hr] at hne
      have hstop := processMessage_stopped f (by rw [hr])
      obtain ⟨u, hu, hwu, hju⟩ := frame_step (E := E) f hw (by simp [hr])
      rw [hr] at hwu hstop
      have hustop : (u.sessions k).stopped = (t.sessions k).stopped := by
        have hsame := (World.handle_congr hw (f.kind E)).1
        rw [← processMessage_kind, ← processMessage_kind, hr] at hsame
        exact step_stopped hu hsame
      obtain ⟨fs, t', h⟩ := exists_handedOver hbuf items u w'
        (fun i h => hi i (List.mem_cons_of_mem _ h)) hwu hne
      refine ⟨f :: fs, t', ?_, h.world, fun j hj => (h.others j hj).trans (hju j hj),
        List.forall_mem_cons.2 ⟨hsuffix, h.inside⟩, fun hret => ?_, fun hret => ?_⟩
      · rw [List.map_cons, Lts.run, hu]
        exact h.run
      · rw [List.map_cons, List.map_cons, h.all hret]
      · obtain ⟨ht, hw⟩ := h.goesOn hret
        exact ⟨ht.trans hustop, hw.trans hstop⟩
    · obtain ⟨u, hu, hwu, hju⟩ := frame_step (E := E) f hw (by simp [hr])
      rw [hr] at hwu
      refine ⟨[f], u, ?_, hwu, hju, List.forall_mem_singleton.2 hsuffix, fun hret => ?_,
        fun hret => ?_⟩
      · rw [List.map_singleton, Lts.run, hu]
        rfl
      · cases hret
      · cases hret
    · rw [hr] at hne
      exact absurd rfl hne

variable {s s' : System κ} {t t' : Server κ} {data : List UInt8}

/-- The frames in the buffer of a connection after a read, handed over. -/
def System.handedOver (E : Env) (s : System κ) (k : κ) (data : List UInt8) :
    Outcome Unit × World × List Dispatch :=
  handOver (transportProtocol E) ((s.peers k).receiver.storeData data).buffer (s.world k)
    (framing.scan ((s.peers k).receiver.storeData data).buffer).items

/-- What `handle_read` does: it refuses what was read, or it hands over the frames and drops them,
unless a handler threw. Where anything goes wrong it stops the client. -/
inductive Reading (E : Env) (s : System κ) (k : κ) (data : List UInt8) : System κ → Prop
  | refused (bad : ¬ (data.length ≠ 0 ∧ data.length < asyncBufferSize)) :
    Reading E s k data (s.put k (s.world k).stop (s.peers k).receiver)
  | threw (good : data.length ≠ 0 ∧ data.length < asyncBufferSize)
    (short : ((s.peers k).receiver.storeData data).buffer.length < 2 ^ 63)
    (defined : (s.handedOver E k data).1 ≠ .undefined) :
    Reading E s k data
      (s.put k (s.handedOver E k data).2.1.stop ((s.peers k).receiver.storeData data))
  | damaged (good : data.length ≠ 0 ∧ data.length < asyncBufferSize)
    (short : ((s.peers k).receiver.storeData data).buffer.length < 2 ^ 63)
    (returned : (s.handedOver E k data).1 = .returned ()) :
    Reading E s k data (s.put k (s.handedOver E k data).2.1.stop
      ⟨((s.peers k).receiver.storeData data).state,
        framing.leftover ((s.peers k).receiver.storeData data).buffer⟩)
  | done (good : data.length ≠ 0 ∧ data.length < asyncBufferSize)
    (short : ((s.peers k).receiver.storeData data).buffer.length < 2 ^ 63)
    (returned : (s.handedOver E k data).1 = .returned ()) :
    Reading E s k data (s.put k (s.handedOver E k data).2.1
      ⟨((s.peers k).receiver.storeData data).state,
        framing.leftover ((s.peers k).receiver.storeData data).buffer⟩)

theorem System.read_cases (hs : s.step E (.read k data) = some s') : Reading E s k data s' := by
  change s.handleRead E k data = some s' at hs
  unfold System.handleRead at hs
  split at hs
  · rename_i hgood
    split at hs
    · rename_i hmax
      have hshort : ((s.peers k).receiver.storeData data).buffer.length < 2 ^ 63 := by
        rw [maxSize] at hmax
        omega
      have hcall := reciveImpl_eq (transportProtocol E) (s.world k) (s.peers k).receiver data
      rw [received, show handOver _ _ _ _ = s.handedOver E k data from rfl] at hcall
      rcases hh : (s.handedOver E k data).1 with u | e | _ <;> rw [hh] at hcall <;>
        rw [hcall] at hs
      · obtain rfl := Option.some.inj hs
        dsimp only
        split
        · exact .damaged hgood hshort hh
        · exact .done hgood hshort hh
      · obtain rfl := Option.some.inj hs
        exact .threw hgood hshort (by simp [hh])
      · cases hs
    · cases hs
  · obtain rfl := Option.some.inj hs
    exact .refused ‹_›

/-! ## One connection -/

/-- The messages whose frames connection `k` is sent. -/
def servedOn (k : κ) (fs : List (ServerEvent κ)) : List TransportMessage :=
  fs.filterMap fun
    | .frame j f => if j = k then some f.message else none
    | .take => none

theorem servedOn_append (k : κ) (fs gs : List (ServerEvent κ)) :
    servedOn k (fs ++ gs) = servedOn k fs ++ servedOn k gs := List.filterMap_append

theorem servedOn_frames (k : κ) (fs : List Incoming) :
    servedOn k (fs.map (.frame k)) = fs.map (·.message) := by
  rw [servedOn, List.filterMap_map]
  simp

theorem servedOn_other {j : κ} (hj : j ≠ k) (fs : List Incoming) :
    servedOn j (fs.map (.frame k)) = [] := by
  rw [servedOn, List.filterMap_map]
  simp [Ne.symm hj]

/-- A connection that was sent the bytes un-stuffed in `all`, and one that was sent frames. Unless it
was stopped, these are just the frames in the bytes. -/
structure AgreeOn (all : Receiver) (p : Peer) (msgs : List TransportMessage) (c : Session) :
    Prop where
  session : c.forget = p.session.forget
  state : p.receiver.state = all.state
  buffer : p.receiver.buffer <:+ all.buffer
  sent : ∀ m ∈ msgs, m.frame <:+: all.buffer
  served : p.session.stopped = false → c.stopped = false
    ∧ p.receiver.buffer = framing.leftover all.buffer
    ∧ msgs.map TransportMessage.frame = (framing.scan all.buffer).items.map (·.2)

section One

variable {all : Receiver} {p : Peer} {msgs : List TransportMessage} {c c' : Session}

theorem agreeOn_start : AgreeOn {} {} [] {} := by
  refine ⟨rfl, rfl, List.suffix_rfl, by simp, fun _ => ⟨rfl, List.drop_nil.symm, ?_⟩⟩
  exact (congrArg (fun r => r.items.map (·.2)) scan_nil).symm

theorem AgreeOn.stop (h : AgreeOn all p msgs c) {w : World}
    (hw : c.forget = w.toSession.forget) (hs : w.stopped = true) :
    AgreeOn all ⟨p.receiver, w.toSession⟩ msgs c :=
  ⟨hw, h.state, h.buffer, h.sent, fun hno => absurd (hs.symm.trans hno) (by simp)⟩

/-- What is handed over of a read stands in all that was read. -/
theorem AgreeOn.read (h : AgreeOn all p msgs c) (data : List UInt8) {fs : List Incoming}
    (hfs : ∀ f ∈ fs, f.bytes <:+ (p.receiver.storeData data).buffer) {w : World} {r : Receiver}
    (hw : c'.forget = w.toSession.forget)
    (hstate : r.state = (p.receiver.storeData data).state)
    (hbuffer : r.buffer <:+ (p.receiver.storeData data).buffer)
    (hserved : w.stopped = false → p.session.stopped = false ∧ c'.stopped = c.stopped
      ∧ r.buffer = framing.leftover (p.receiver.storeData data).buffer
      ∧ fs.map (·.message.frame)
        = (framing.scan (p.receiver.storeData data).buffer).items.map (·.2)) :
    AgreeOn (all.storeData data) ⟨r, w.toSession⟩ (msgs ++ fs.map (·.message)) c' := by
  obtain ⟨hst, hsuffix⟩ := storeData_suffix h.state h.buffer data
  refine ⟨hw, hstate.trans hst, hbuffer.trans hsuffix, fun m hm => ?_, fun hno => ?_⟩
  · rcases List.mem_append.1 hm with hm | hm
    · exact (h.sent m hm).trans (Receiver.storeData_buffer_prefix all data).isInfix
    · obtain ⟨f, hf, rfl⟩ := List.mem_map.1 hm
      have hpre : f.message.frame <+: f.bytes := List.prefix_append _ _
      exact hpre.isInfix.trans ((hfs f hf).trans hsuffix).isInfix
  · obtain ⟨hwas, hc, hleft, hframes⟩ := hserved hno
    obtain ⟨hgoes, hold, hmsgs⟩ := h.served hwas
    -- both buffers take in the same bytes
    obtain ⟨st, bs, hbs⟩ := Receiver.exists_storeData all.state data
    have hmine : (p.receiver.storeData data).buffer = framing.leftover all.buffer ++ bs := by
      obtain ⟨⟨state, buffer⟩, session⟩ := p
      obtain rfl : state = all.state := h.state
      rw [← hold, hbs]
    have hall : (all.storeData data).buffer = all.buffer ++ bs := congrArg (·.buffer) (hbs _)
    rw [hmine] at hleft hframes
    refine ⟨hc.trans hgoes, ?_, ?_⟩
    · rw [hall, framing.leftover_append]
      exact hleft
    · rw [hall, framing.scan_append, List.map_append, hmsgs, List.map_map, Scan.Result.andThen,
        List.map_append, List.map_map]
      exact congrArg _ hframes

end One

/-- A run on bytes and one on frames that agree. -/
structure Agree (es : List (SystemEvent κ)) (s : System κ) (fs : List (ServerEvent κ))
    (t : Server κ) : Prop where
  shared : t.shared = s.shared
  on : ∀ k, AgreeOn (unstuffed k es) (s.peers k) (servedOn k fs) (t.sessions k)

theorem Agree.world {es : List (SystemEvent κ)} {fs : List (ServerEvent κ)}
    (h : Agree es s fs t) (k : κ) : (t.world k).forget = (s.world k).forget := by
  have hforget : ∀ (x : Shared) (c : Session), (⟨x, c⟩ : World).forget = ⟨x, c.forget⟩ :=
    fun _ _ => rfl
  rw [Server.world, System.world, hforget, hforget, h.shared, (h.on k).session]

/-- A read of one connection leaves the others alone. -/
theorem Agree.put {es : List (SystemEvent κ)} {fs : List (ServerEvent κ)} {new : List Incoming}
    {w : World} {r : Receiver} (h : Agree es s fs t) (hshared : t'.shared = w.toShared)
    (hothers : ∀ j ≠ k, t'.sessions j = t.sessions j)
    (hk : AgreeOn (unstuffed k (es ++ [.read k data])) ⟨r, w.toSession⟩
      (servedOn k fs ++ new.map (·.message)) (t'.sessions k)) :
    Agree (es ++ [.read k data]) (s.put k w r) (fs ++ new.map (.frame k)) t' := by
  refine ⟨hshared, fun j => ?_⟩
  rw [servedOn_append]
  by_cases hj : j = k
  · subst hj
    rw [System.put_peers, servedOn_frames]
    exact hk
  · have hsame : unstuffed j (es ++ [.read k data]) = unstuffed j es :=
      unstuffed_other es fun data' he => absurd (SystemEvent.read.inj he).1.symm hj
    rw [System.put_peers_of_ne _ _ hj, servedOn_other hj, List.append_nil, hsame, hothers j hj]
    exact h.on j

theorem Agree.read {es : List (SystemEvent κ)} {fs : List (ServerEvent κ)}
    (h : Agree es s fs t) (hs : s.step E (.read k data) = some s') :
    ∃ new t', run (Server.step E) t new = some t'
      ∧ Agree (es ++ [.read k data]) s' (fs ++ new) t' := by
  have hitems : ∀ i ∈ (framing.scan ((s.peers k).receiver.storeData data).buffer).items,
      ∃ m : TransportMessage, i.2 = m.frame
        ∧ m.frame <+: ((s.peers k).receiver.storeData data).buffer.drop i.1 := by
    intro i hi
    obtain ⟨m, hm⟩ := scan_frame _ i hi
    exact ⟨m, hm, hm ▸ ((framing.items_spec _).2 i hi).2.2⟩
  -- the frames of the buffer, handed over on both sides
  have hover : (data.length ≠ 0 ∧ data.length < asyncBufferSize) →
      ((s.peers k).receiver.storeData data).buffer.length < 2 ^ 63 →
      (s.handedOver E k data).1 ≠ .undefined → ∀ (w : World) (r : Receiver),
      w.forget = (s.handedOver E k data).2.1.forget →
      r.state = ((s.peers k).receiver.storeData data).state →
      r.buffer <:+ ((s.peers k).receiver.storeData data).buffer →
      (w.stopped = false → (s.handedOver E k data).1 = .returned ()
        ∧ w = (s.handedOver E k data).2.1
        ∧ r.buffer = framing.leftover ((s.peers k).receiver.storeData data).buffer) →
      ∃ new t', run (Server.step E) t new = some t'
        ∧ Agree (es ++ [.read k data]) (s.put k w r) (fs ++ new) t' := by
    intro hgood hshort hdefined w r hw hstate hbuffer hserved
    obtain ⟨new, t', hnew⟩ := exists_handedOver (E := E) hshort _ t _ hitems (h.world k) hdefined
    have hworld : (t'.world k).forget = w.forget := hnew.world.trans hw.symm
    refine ⟨_, t', hnew.run, h.put (World.shared_of_forget hworld) hnew.others ?_⟩
    rw [unstuffed_read k es hgood]
    refine (h.on k).read data hnew.inside (congrArg World.toSession hworld) hstate hbuffer
      fun hno => ?_
    obtain ⟨hret, rfl, hleft⟩ := hserved hno
    obtain ⟨ht, hwas⟩ := hnew.goesOn hret
    exact ⟨hwas.symm.trans hno, ht, hleft, hnew.all hret⟩
  cases System.read_cases hs with
  | refused bad =>
    have hsame : unstuffed k (es ++ [.read k data]) = unstuffed k es := by
      refine unstuffed_other es fun data' he => ?_
      obtain ⟨-, rfl⟩ := SystemEvent.read.inj he
      exact bad
    refine ⟨([] : List Incoming).map (.frame k), t, rfl, h.put h.shared (fun _ _ => rfl) ?_⟩
    rw [hsame, List.map_nil, List.append_nil]
    exact (h.on k).stop (h.on k).session rfl
  | threw good short defined =>
    exact hover good short defined _ _ rfl rfl List.suffix_rfl fun hno => by cases hno
  | damaged good short returned =>
    exact hover good short (by simp [returned]) _ _ rfl rfl (List.drop_suffix _ _)
      fun hno => by cases hno
  | done good short returned =>
    exact hover good short (by simp [returned]) _ _ rfl rfl (List.drop_suffix _ _)
      fun _ => ⟨returned, rfl, rfl⟩

/-- What the storage does shows to the connections as the queue being taken. -/
theorem Agree.store {es : List (SystemEvent κ)} {fs : List (ServerEvent κ)} {e : SystemEvent κ}
    {d : DatabaseEvent InfoMessage} (h : Agree es s fs t) (he : ∀ k data, e ≠ .read k data)
    (hd : ∀ msg, d ≠ .addMessage msg) (hs : s.store d = some s') :
    ∃ new t', run (Server.step E) t new = some t' ∧ Agree (es ++ [e]) s' (fs ++ new) t' := by
  obtain ⟨d', hd', rfl⟩ := Option.map_eq_some_iff.1 hs
  have hsame : ∀ k, unstuffed k (es ++ [e]) = unstuffed k es := fun k =>
    unstuffed_other es fun data hread => absurd hread (he k data)
  rcases store_queue hd' hd with hq | hq
  · refine ⟨[], t, rfl, ?_, fun k => ?_⟩
    · rw [h.shared, System.shared, System.shared, hq]
    · rw [hsame, List.append_nil]
      exact h.on k
  · refine ⟨[.take], t.takeMessages, rfl, ?_, fun k => ?_⟩
    · rw [Server.takeMessages, h.shared, System.shared, System.shared, hq]
    · have hnone : servedOn k [ServerEvent.take (κ := κ)] = [] := rfl
      rw [hsame, servedOn_append, hnone, List.append_nil]
      exact h.on k

theorem Agree.step {es : List (SystemEvent κ)} {fs : List (ServerEvent κ)} {e : SystemEvent κ}
    (h : Agree es s fs t) (hs : s.step E e = some s') :
    ∃ new t', run (Server.step E) t new = some t' ∧ Agree (es ++ [e]) s' (fs ++ new) t' := by
  cases e with
  | read k data => exact h.read hs
  | work a => exact h.store (by simp) (by simp) hs
  | interrupt => exact h.store (by simp) (by simp) hs
  | lose => exact h.store (by simp) (by simp) hs

/-- Every run on bytes has a run on frames that agrees with it. -/
theorem exists_agree {loaded : Counterer} {maxMessages : ℕ} {oracle : Oracle}
    {es : List (SystemEvent κ)}
    (hs : run (System.step E) (.start loaded maxMessages oracle) es = some s) :
    ∃ fs t, run (Server.step E) (.start ⟨loaded, ⟨maxMessages, [], []⟩⟩) fs = some t
      ∧ Agree es s fs t := by
  refine run_induction (P := fun es s => ∃ fs t, run (Server.step E)
    (.start ⟨loaded, ⟨maxMessages, [], []⟩⟩) fs = some t ∧ Agree es s fs t) ?_ ?_ hs
  · exact ⟨[], _, rfl, rfl, fun k => agreeOn_start⟩
  · rintro es s e s' - ⟨fs, t, hrun, h⟩ hs
    obtain ⟨new, t', hnew, h'⟩ := h.step hs
    exact ⟨fs ++ new, t', run_trans hrun hnew, h'⟩

theorem simulates_threads : Simulates (System.step (κ := κ) E) (Threads.step E)
    fun s t => t = ⟨s, none⟩ := by
  rintro s t e s' rfl hs
  obtain ⟨n, hn⟩ := turns_step hs
  exact ⟨_, _, hn, rfl⟩

/-- Every run of the whole server is a run of the server on frames, which decides what is sent and
what goes into the queue, and a run of the storage worker, which decides what is stored. The frames
stand in what their connections were sent; one that goes on on bytes goes on on frames, is sent just
the frames in its bytes and keeps what is behind them. -/
theorem refines (E : Env) (loaded : Counterer) (maxMessages : ℕ) (testConnection : Bool)
    (a₀ : Answers) (es : List (SystemEvent κ)) (s : System κ) (hs : run (System.step E)
      (.start loaded maxMessages (Oracle.create testConnection a₀).2) es = some s) :
    (∃ fs t, run (Server.step E) (.start ⟨loaded, ⟨maxMessages, [], []⟩⟩) fs = some t
      ∧ t.shared = s.shared ∧ (∀ k, (t.sessions k).forget = (s.peers k).session.forget)
      ∧ (∀ k, ∀ m ∈ servedOn k fs, m.frame <:+: (unstuffed k es).buffer)
      ∧ ∀ k, (s.peers k).session.stopped = false → (t.sessions k).stopped = false
        ∧ (servedOn k fs).map TransportMessage.frame = framesRead k es
        ∧ (s.peers k).receiver.buffer = framing.leftover (unstuffed k es).buffer)
      ∧ ∃ ds, run (Database.step InfoMessage.text)
        (.start maxMessages [] (Oracle.create testConnection a₀).2) ds = some s.database := by
  obtain ⟨fs, t, hfs, h⟩ := exists_agree hs
  obtain ⟨ts, u, hts, rfl⟩ := simulates_threads.run rfl hs
  obtain ⟨ds, d, hds, rfl, -⟩ := threads_database.run ⟨rfl, [], .idle rfl⟩ hts
  refine ⟨⟨fs, t, hfs, h.shared, fun k => (h.on k).session, fun k => (h.on k).sent,
    fun k hk => ?_⟩, ds, hds⟩
  obtain ⟨hgoes, hleft, hframes⟩ := (h.on k).served hk
  exact ⟨hgoes, hframes, hleft⟩

end Refinement

theorem refines_one : ∃ s fs t, run (System.step eventOnly)
      (.start (fun _ => none) 4096 (Oracle.create true {}).2) wholeReads = some s
    ∧ run (Server.step eventOnly) (.start ⟨fun _ => none, ⟨4096, [], []⟩⟩) fs = some t
    ∧ t.shared = s.shared
    ∧ (servedOn () fs).map TransportMessage.frame
      = [(oneEvent TmCode.cArchiveData 3).frame] := by
  have hrun : (run (System.step eventOnly) (.start (fun _ => none) 4096 (Oracle.create true {}).2)
      wholeReads).map (fun s => (s.peers ()).session.stopped) = some false := by
    decide +kernel
  obtain ⟨s, hs, hstopped⟩ := Option.map_eq_some_iff.1 hrun
  obtain ⟨⟨fs, t, hfs, hshared, -, -, hk⟩, -⟩ := refines eventOnly (fun _ => none) 4096 true {}
    wholeReads s hs
  have hread : framesRead () wholeReads = [(oneEvent TmCode.cArchiveData 3).frame] := by
    decide +kernel
  obtain ⟨-, hframes, -⟩ := hk () hstopped
  exact ⟨s, fs, t, hs, hfs, hshared, hframes.trans hread⟩

end Communicator
