import LinkedonPush.App.Dialogue

/-!
# The threads keep to the contract

The invariant of a connection ties what has been said to where its threads are. Every piece of code
between two yield points takes it to effects that are legal one after the other and to the invariant
again, so that the trace of every history is proper.
-/

namespace LinkedonPush

open Theory

namespace LPushConn

/-! ### The invariant -/

/-- Nothing failed on the reading side, and the buffer is between two messages. -/
def Ready (d : Dialogue) (protocol : Option LPushFastBuffer) : Prop :=
  d.readFailed = false ∧ ∃ b, protocol = some b ∧ Between d.taken d.stream b

/-- The recv thread has handed on every frame it took, and is on the next one unless it ended. -/
structure RecvOk (d : Dialogue) (t : LPushRecvThread) (protocol : Option LPushFastBuffer) : Prop where
  connected : d.Connected
  handed_eq : d.handed = d.taken.drop 2
  two_le : 2 ≤ d.taken.length
  reading : match t.point with
    | .reading r => Underway d.taken d.stream (d.readFailed = true) r
    | .ended => True
    | _ => Ready d protocol

/-- The messages pushed are those delivered, the one being written and the queue, until a push
fails. -/
def ConsumOk (d : Dialogue) (u : LPushConsumThread) (client : LPushClient) : Prop :=
  match u.point with
  | .writing work chunk =>
      d.writer = .connected ∧ d.pushFailed = false ∧ frameKind chunk = .push ∧
        d.pushed = d.delivered ++ work :: client.queue
  | .ended =>
      (d.writer = .finished ∧ d.pushFailed = true) ∨
        (d.writer = .connected ∧ d.pushFailed = false ∧ d.pushed = d.delivered ++ client.queue)
  | _ => d.writer = .connected ∧ d.pushFailed = false ∧ d.pushed = d.delivered ++ client.queue

/-- The dialogue while the server has not said connection 0x01. -/
structure Quiet (d : Dialogue) (frames : Nat) (writer : Writer) (queue : List LPushWorkerMessage) :
    Prop where
  length_taken : d.taken.length = frames
  handed : d.handed = []
  pushed : d.pushed = queue
  delivered : d.delivered = []
  pushFailed : d.pushFailed = false
  writer_eq : d.writer = writer

/-- No helper threads and no client yet. -/
structure Alone (c : LPushConn) : Prop where
  trd : c.trd = none
  trd2 : c.trd2 = none
  client : c.client = none

/-- Both helper threads exist and are in order. -/
structure Active (d : Dialogue) (c : LPushConn) (t : LPushRecvThread) (u : LPushConsumThread)
    (client : LPushClient) : Prop where
  trd : c.trd = some t
  trd2 : c.trd2 = some u
  client_eq : c.client = some client
  recv : RecvOk d t c.lpushProtocol
  consum : ConsumOk d u client

/-- Where the cycle thread may be while both helper threads exist. -/
def Running : CyclePoint → Prop
  | .startRecv => True
  | .startConsum => True
  | .polling => True
  | .joinRecv => True
  | _ => False

/-- The state of the three threads fits what has been said. -/
inductive Coherent (d : Dialogue) (c : LPushConn) : Prop where
  | opening (hpoint : c.point = .unstarted ∨ c.point = .created) (halone : c.Alone)
      (hquiet : Quiet d 0 .opening []) (hready : Ready d c.lpushProtocol)
  | handshake (r : MessageReading) (hpoint : c.point = .handshake r) (halone : c.Alone)
      (hquiet : Quiet d 0 .opening []) (hreading : Underway d.taken d.stream (d.readFailed = true) r)
  | refusing (chunk : LPushChunk) (ret : Int) (hpoint : c.point = .refusing chunk ret) (halone : c.Alone)
      (hwrite : ∀ ok, d.writer.next (frameKind chunk, ok) ≠ .broken)
  | accepting (chunk : LPushChunk) (hpoint : c.point = .accepting chunk) (halone : c.Alone)
      (hquiet : Quiet d 1 .opening []) (hkind : frameKind chunk = .handshake 1)
      (hready : Ready d c.lpushProtocol)
  | createConnection (r : MessageReading) (hpoint : c.point = .createConnection r) (halone : c.Alone)
      (hquiet : Quiet d 1 .accepted []) (hreading : Underway d.taken d.stream (d.readFailed = true) r)
  | connecting (chunk : LPushChunk) (client : LPushClient) (hpoint : c.point = .connecting chunk)
      (htrd : c.trd = none) (htrd2 : c.trd2 = none) (hclient : c.client = some client)
      (hquiet : Quiet d 2 .accepted client.queue) (hkind : frameKind chunk = .connection 1)
      (hready : Ready d c.lpushProtocol)
  | running (t : LPushRecvThread) (u : LPushConsumThread) (client : LPushClient)
      (hpoint : Running c.point) (hactive : Active d c t u client)
  | joinConsum (u : LPushConsumThread) (client : LPushClient) (hpoint : c.point = .joinConsum)
      (htrd : c.trd = none) (htrd2 : c.trd2 = some u) (hclient : c.client = some client)
      (hconsum : ConsumOk d u client)
  | closed (hpoint : c.point = .closed) (halone : c.Alone)

/-- The code reached its next yield point by legal effects, and the invariant holds there. -/
def Good (d : Dialogue) (p : Progress) : Prop :=
  d.Follows p.2 ∧ (p.1.crashed = false → Coherent (d.notes p.2) p.1)

/-! ### Effects -/

/-- Effects the contract says nothing about. -/
def Neutral : Effect → Prop
  | .presented _ => True
  | .redis _ => True
  | .userInsertMongodb _ => True
  | .refused _ => True
  | .createClient _ => True
  | .pushHistory _ _ => True
  | .returned _ => True
  | .removed => True
  | .findPop _ => True
  | .destroyKey _ => True
  | .deleteClient _ => True
  | .close => True
  | .died fault => fault ≠ .emptyPop
  | _ => False

section effects

variable {d : Dialogue} {p : Progress}

theorem Neutral.legal {e : Effect} (h : Neutral e) : d.Legal e := by
  cases e with
  | died fault =>
      cases fault with
      | emptyPop => exact (h rfl).elim
      | _ => trivial
  | received delivery => exact h.elim
  | message ret lpc => exact h.elim
  | forward lpc => exact h.elim
  | wrote chunk ok work => exact h.elim
  | _ => trivial

theorem Neutral.note {e : Effect} (h : Neutral e) : d.note e = d := by
  cases e with
  | received delivery => exact h.elim
  | message ret lpc => exact h.elim
  | forward lpc => exact h.elim
  | forwardReturned ret => exact h.elim
  | wrote chunk ok work => exact h.elim
  | queued msg => exact h.elim
  | _ => simp [Dialogue.note]

theorem good_after_cons {e : Effect} {effects : List Effect} :
    Good d (p.after (e :: effects)) ↔ d.Legal e ∧ Good (d.note e) (p.after effects) := by
  simp only [Good, Progress.after, List.cons_append, Dialogue.Follows, Dialogue.notes, List.foldl_cons,
    and_assoc]

theorem after_after {first second : List Effect} : (p.after second).after first = p.after (first ++ second) := by
  simp only [Progress.after, List.append_assoc]

theorem good_after_nil : Good d (p.after []) ↔ Good d p := Iff.rfl

theorem good_after_neutral {effects : List Effect} (h : ∀ e ∈ effects, Neutral e) (hp : Good d p) :
    Good d (p.after effects) := by
  induction effects with
  | nil => exact hp
  | cons e effects ih =>
      obtain ⟨he, heffects⟩ := List.forall_mem_cons.mp h
      rw [good_after_cons, he.note]
      exact ⟨he.legal, ih heffects⟩

theorem good_neutral {c : LPushConn} {effects : List Effect} (h : ∀ e ∈ effects, Neutral e)
    (hc : Coherent d c) : Good d (c, effects) := by
  induction effects with
  | nil => exact ⟨trivial, fun _ => hc⟩
  | cons e effects ih =>
      obtain ⟨he, heffects⟩ := List.forall_mem_cons.mp h
      have hgood := ih heffects
      simp only [Good, Dialogue.Follows, Dialogue.notes, List.foldl_cons, he.note] at hgood ⊢
      exact ⟨⟨he.legal, hgood.1⟩, hgood.2⟩

/-- The thread stops without showing anything. -/
theorem good_stop {c : LPushConn} (h : Coherent d c) : Good d (c, []) := ⟨trivial, fun _ => h⟩

theorem good_die {c : LPushConn} {fault : Fault} (h : fault ≠ .emptyPop) : Good d (c.die fault) := by
  refine ⟨⟨@Neutral.legal d (.died fault) h, trivial⟩, fun hrunning => ?_⟩
  exact absurd hrunning (by simp [die])

end effects

/-! ### The end of a connection -/

section finish

variable {d : Dialogue} {c : LPushConn}

theorem good_release (htrd : c.trd = none) : Good d c.release := by
  have hneutral : ∀ e ∈ c.release.2, Neutral e := by
    intro e he
    unfold release at he
    cases hclient : c.client with
    | none =>
        simp only [hclient, List.nil_append, List.mem_singleton] at he
        rw [he]
        trivial
    | some client =>
        simp only [hclient, List.cons_append, List.nil_append, List.mem_cons, List.not_mem_nil, or_false] at he
        rcases he with rfl | rfl | rfl <;> trivial
  exact good_neutral hneutral (.closed rfl ⟨htrd, rfl, rfl⟩)

theorem good_deleteTrd2 (htrd : c.trd = none)
    (h : c.trd2 = none ∨ ∃ u client, c.trd2 = some u ∧ c.client = some client ∧ ConsumOk d u client) :
    Good d c.deleteTrd2 := by
  unfold deleteTrd2
  rcases h with hnone | ⟨u, client, htrd2, hclient, hconsum⟩
  · rw [hnone]
    exact good_release htrd
  · rw [htrd2]
    dsimp only
    split
    · exact good_release htrd
    · exact good_release htrd
    · exact good_stop (.joinConsum _ client rfl htrd rfl hclient hconsum)

theorem good_deleteTrd
    (h : (c.trd = none ∧ c.trd2 = none) ∨ ∃ t u client, Active d c t u client) : Good d c.deleteTrd := by
  unfold deleteTrd
  rcases h with ⟨htrd, htrd2⟩ | ⟨t, u, client, hactive⟩
  · rw [htrd]
    exact good_deleteTrd2 htrd (.inl htrd2)
  · obtain ⟨htrd, htrd2, hclient, hrecv, hconsum⟩ := hactive
    rw [htrd]
    dsimp only
    split
    · exact good_deleteTrd2 rfl (.inr ⟨u, client, htrd2, hclient, hconsum⟩)
    · exact good_deleteTrd2 rfl (.inr ⟨u, client, htrd2, hclient, hconsum⟩)
    · refine good_stop (.running _ u client trivial ⟨rfl, htrd2, hclient, ?_, hconsum⟩)
      exact ⟨hrecv.connected, hrecv.handed_eq, hrecv.two_le, hrecv.reading⟩

theorem good_finish (ret : Int)
    (h : (c.trd = none ∧ c.trd2 = none) ∨ ∃ t u client, Active d c t u client) :
    Good d (c.finish ret) := by
  unfold finish
  apply good_after_neutral
  · intro e he
    rcases List.mem_append.mp he with hfirst | hfind
    · rcases List.mem_pair.mp hfirst with rfl | rfl <;> trivial
    · cases hmie : c.mie with
      | none =>
          rw [hmie] at hfind
          exact (List.not_mem_nil hfind).elim
      | some address =>
          rw [hmie, List.mem_singleton] at hfind
          rw [hfind]
          trivial
  · exact good_deleteTrd h

end finish

/-! ### The cycle thread -/

section cycle

variable {d : Dialogue} {c : LPushConn} {t : LPushRecvThread} {u : LPushConsumThread}
  {client : LPushClient} (env : Env) (w : World)

theorem good_poll (h : Active d c t u client) : Good d c.poll := by
  unfold poll
  split
  · exact good_finish _ (.inr ⟨t, u, client, h⟩)
  · split
    · exact good_finish _ (.inr ⟨t, u, client, h⟩)
    · exact good_stop (.running t u client trivial ⟨h.trd, h.trd2, h.client_eq, h.recv, h.consum⟩)

theorem good_started (h : Active d c t u client) : Good d (c.started w) :=
  good_poll (c := { c with beforeDataTime := w.now, nowDataTime := w.now })
    ⟨h.trd, h.trd2, h.client_eq, h.recv, h.consum⟩

theorem good_startTrd2 (h : Active d c t u client) : Good d (c.startTrd2 w) := by
  unfold startTrd2
  rw [h.trd2]
  dsimp only
  split
  · exact good_stop (.running t _ client trivial ⟨h.trd, rfl, h.client_eq, h.recv, h.consum⟩)
  · exact good_started w ⟨h.trd, rfl, h.client_eq, h.recv, h.consum⟩

theorem good_startTrd (h : Active d c t u client) : Good d (c.startTrd w) := by
  unfold startTrd
  rw [h.trd]
  dsimp only
  split
  · refine good_stop (.running _ u client trivial ⟨rfl, h.trd2, h.client_eq, ?_, h.consum⟩)
    exact ⟨h.recv.connected, h.recv.handed_eq, h.recv.two_le, h.recv.reading⟩
  · exact good_startTrd2 w h

@[simp] theorem frameKind_sendHandshake (now : Int) (b : UInt8) :
    frameKind (sendHandshake now b) = .handshake b := rfl

@[simp] theorem frameKind_sendCreateConnection (now : Int) (b : UInt8) :
    frameKind (sendCreateConnection now b) = .connection b := rfl

theorem good_connected (hclient : c.client = some client)
    (hquiet : Quiet d 2 .connected client.queue) (hconnected : d.Connected)
    (hready : Ready d c.lpushProtocol) : Good d (c.connected env w) := by
  unfold connected
  cases hmsg : c.lphandshakeMsg with
  | none => exact good_die Fault.noConfusion
  | some msg =>
      have hdrop : d.taken.drop 2 = [] := List.drop_eq_nil_of_le (by rw [hquiet.length_taken])
      have hrecv : RecvOk d ⟨.init, .created⟩ c.lpushProtocol :=
        ⟨hconnected, by rw [hquiet.handed, hdrop], by rw [hquiet.length_taken], hready⟩
      have hconsum : ConsumOk d ⟨.init, false, .created⟩ client :=
        ⟨hquiet.writer_eq, hquiet.pushFailed, by rw [hquiet.pushed, hquiet.delivered, List.nil_append]⟩
      apply good_after_neutral
      · intro e he
        rw [List.mem_singleton.mp he]
        trivial
      · exact good_startTrd w ⟨rfl, rfl, hclient, hrecv, hconsum⟩

theorem good_register (halone : c.Alone) (hquiet : Quiet d 2 .accepted [])
    (hready : Ready d c.lpushProtocol) : Good d (c.register env w) := by
  unfold register
  cases hmsg : c.lphandshakeMsg with
  | none => exact good_die Fault.noConfusion
  | some msg =>
      dsimp only
      -- the effects are commands to Redis and Mongo, and the registration
      split
      · refine good_neutral ?_ (.refusing (sendCreateConnection w.now 0x02) _ rfl ?_ fun ok => ?_)
        · intro e he
          simp only [List.cons_append, List.nil_append, List.mem_cons, List.not_mem_nil, or_false] at he
          rcases he with rfl | rfl | rfl | rfl | rfl | rfl <;> trivial
        · exact ⟨halone.trd, halone.trd2, halone.client⟩
        · rw [hquiet.writer_eq, frameKind_sendCreateConnection]
          cases ok <;> decide
      · refine good_neutral ?_
          (.connecting (sendCreateConnection w.now 0x01) (.create c.stfd msg) rfl ?_ ?_ rfl ?_ rfl ?_)
        · intro e he
          simp only [List.cons_append, List.nil_append, List.mem_cons, List.not_mem_nil, or_false] at he
          rcases he with rfl | rfl | rfl | rfl | rfl | rfl <;> trivial
        · exact halone.trd
        · exact halone.trd2
        · exact hquiet
        · exact hready

/-- A `readMessage` that returned: its result is legal to note, and on success the buffer is ready
for the next one. -/
theorem legal_message {ret : Int} {lpc : LPushChunk} {b : LPushFastBuffer}
    (h : Underway d.taken d.stream (d.readFailed = true) (.done (ret, lpc, b))) :
    d.Legal (.message ret lpc) := by
  intro hret rest
  exact (h.done hret).2.prefix_taken rest

theorem ready_message {lpc : LPushChunk} {b : LPushFastBuffer}
    (h : Underway d.taken d.stream (d.readFailed = true) (.done (errorSuccess, lpc, b))) :
    Ready { d with taken := d.taken ++ [lpc] } (some b) := by
  obtain ⟨hclean, hbetween⟩ := h.done rfl
  exact ⟨Bool.eq_false_iff.mpr hclean, b, rfl, hbetween⟩

theorem good_createConnection {r : MessageReading} (halone : c.Alone) (hquiet : Quiet d 1 .accepted [])
    (hreading : Underway d.taken d.stream (d.readFailed = true) r) :
    Good d (c.createConnection env w r) := by
  cases r with
  | need size resume =>
      exact good_stop (.createConnection _ rfl ⟨halone.trd, halone.trd2, halone.client⟩ hquiet hreading)
  | abort => exact hreading.not_abort.elim
  | done result =>
      obtain ⟨ret, lpc, b⟩ := result
      simp only [createConnection]
      rw [good_after_cons, good_after_nil]
      refine ⟨legal_message hreading, ?_⟩
      by_cases hret : ret = errorSuccess
      · subst hret
        rw [if_neg (by simp), Dialogue.note_message_success]
        split
        · exact good_finish _ (.inl ⟨halone.trd, halone.trd2⟩)
        · refine good_register env w ⟨halone.trd, halone.trd2, halone.client⟩ ?_ (ready_message hreading)
          exact { hquiet with length_taken := by simp [hquiet.length_taken] }
      · rw [if_pos hret]
        exact good_finish _ (.inl ⟨halone.trd, halone.trd2⟩)

theorem good_handshake {r : MessageReading} (halone : c.Alone) (hquiet : Quiet d 0 .opening [])
    (hreading : Underway d.taken d.stream (d.readFailed = true) r) : Good d (c.handshake env w r) := by
  have hrefusal : ∀ (d' : Dialogue) (b : UInt8), d'.writer = .opening → b = 0 ∨ b = 2 →
      ∀ ok, d'.writer.next (frameKind (sendHandshake w.now b), ok) ≠ .broken := by
    intro d' b hwriter hb ok
    rw [hwriter, frameKind_sendHandshake]
    rcases hb with rfl | rfl <;> cases ok <;> decide
  have hpresented : ∀ msg, ∀ e ∈ [Effect.presented msg], Neutral e := by
    intro msg e he
    rw [List.mem_singleton.mp he]
    trivial
  cases r with
  | need size resume => exact good_stop (.handshake _ rfl ⟨halone.trd, halone.trd2, halone.client⟩ hquiet hreading)
  | abort => exact hreading.not_abort.elim
  | done result =>
      obtain ⟨ret, lpc, b⟩ := result
      simp only [handshake]
      rw [good_after_cons, good_after_nil]
      refine ⟨legal_message hreading, ?_⟩
      by_cases hret : ret = errorSuccess
      · subst hret
        rw [if_neg (by simp), Dialogue.note_message_success]
        have hwriter : ({ d with taken := d.taken ++ [lpc] } : Dialogue).writer = .opening := hquiet.writer_eq
        have hready := ready_message hreading
        split
        · exact good_die Fault.noConfusion
        · split
          · exact good_stop (.refusing _ _ rfl ⟨halone.trd, halone.trd2, halone.client⟩
              (hrefusal _ 0 hwriter (.inl rfl)))
          · split
            · exact good_neutral (hpresented _) (.refusing _ _ rfl ⟨halone.trd, halone.trd2, halone.client⟩
                (hrefusal _ 2 hwriter (.inr rfl)))
            · refine good_neutral (hpresented _)
                (.accepting _ rfl ⟨halone.trd, halone.trd2, halone.client⟩ ?_ rfl hready)
              exact { hquiet with length_taken := by simp [hquiet.length_taken] }
      · rw [if_pos hret]
        refine good_stop (.refusing _ _ rfl ⟨halone.trd, halone.trd2, halone.client⟩ (hrefusal _ 0 ?_ (.inl rfl)))
        rw [Dialogue.note_message_error d lpc hret]
        exact hquiet.writer_eq

/-- A read during a call of `readMessage`. -/
theorem underway_received {size : Nat} {resume : Delivery SocketError UInt8 → MessageReading}
    (h : Underway d.taken d.stream (d.readFailed = true) (.need size resume))
    {delivery : Delivery SocketError UInt8} (hallowed : delivery.Allowed size) :
    Underway (d.note (.received delivery)).taken (d.note (.received delivery)).stream
      ((d.note (.received delivery)).readFailed = true) (resume delivery) := by
  obtain ⟨b, history, hb, hnb, hensures, hfailed, hframes⟩ := h.resume hallowed
  rw [Dialogue.note_received]
  refine ⟨b, history, hb, hnb, hensures, fun hread => hfailed ?_, hframes⟩
  rcases (Bool.or_eq_true _ _).mp hread with hbefore | hnow
  · exact .inl hbefore
  · cases delivery with
    | error e => exact .inr ⟨e, List.mem_singleton.mpr rfl⟩
    | ok piece => exact (Bool.false_ne_true hnow).elim

theorem legal_wrote {chunk : LPushChunk} {ok : Bool} (h : d.writer.next (frameKind chunk, ok) ≠ .broken) :
    d.Legal (.wrote chunk ok none) :=
  ⟨h, fun _ _ hwork => (Option.some_ne_none _ hwork.symm).elim⟩

/-- Before the threads are started the writer is where the frames so far have taken it. -/
theorem Quiet.legal_wrote {frames : Nat} {writer : Writer} {queue : List LPushWorkerMessage} {chunk : LPushChunk}
    {ok : Bool} (hquiet : Quiet d frames writer queue) (h : writer.next (frameKind chunk, ok) ≠ .broken) :
    d.Legal (.wrote chunk ok none) :=
  LPushConn.legal_wrote (by rwa [hquiet.writer_eq])

theorem Quiet.wrote {frames : Nat} {writer writer' : Writer} {queue : List LPushWorkerMessage} {chunk : LPushChunk}
    {ok : Bool} (hquiet : Quiet d frames writer queue) (h : writer.next (frameKind chunk, ok) = writer') :
    Quiet { d with written := d.written ++ [(chunk, ok)] } frames writer' queue := by
  refine { hquiet with writer_eq := ?_ }
  rw [Dialogue.writer_of_written rfl, hquiet.writer_eq, h]

theorem good_withProtocol {next : MessageReading → Progress} (hready : Ready d c.lpushProtocol)
    (hnext : ∀ r, Underway d.taken d.stream (d.readFailed = true) r → Good d (next r)) :
    Good d (c.withProtocol next) := by
  obtain ⟨hclean, b, hprotocol, hbetween⟩ := hready
  rw [withProtocol, hprotocol]
  exact hnext _ (hbetween.start (Bool.eq_false_iff.mp hclean))

theorem good_cycle {p : Progress} (h : Coherent d c) (hstep : c.cycle env w = some p) : Good d p := by
  have hcycle : c.cycle env w = some p := hstep
  unfold cycle at hstep
  cases h with
  | opening hpoint halone hquiet hready =>
      rcases hpoint with hpoint | hpoint
      · rw [hpoint] at hstep
        cases hstep
      · rw [hpoint] at hstep
        obtain rfl := Option.some.inj hstep
        exact good_withProtocol hready fun r hr => good_handshake env w halone hquiet hr
  | handshake r hpoint halone hquiet hreading =>
      obtain ⟨size, resume, rfl, hallowed, rfl⟩ := handshake_of_cycle hpoint hcycle
      rw [good_after_cons, good_after_nil]
      refine ⟨trivial, good_handshake env w halone ?_ (underway_received hreading hallowed)⟩
      rw [Dialogue.note_received]
      exact { hquiet with }
  | refusing chunk ret hpoint halone hwrite =>
      rw [hpoint] at hstep
      obtain rfl := Option.some.inj hstep
      rw [good_after_cons, good_after_nil]
      exact ⟨legal_wrote (hwrite _), good_finish _ (.inl ⟨halone.trd, halone.trd2⟩)⟩
  | accepting chunk hpoint halone hquiet hkind hready =>
      rw [hpoint] at hstep
      obtain rfl := Option.some.inj hstep
      rw [good_after_cons, good_after_nil]
      cases hwrite : w.writeError with
      | some e =>
          refine ⟨hquiet.legal_wrote ?_, good_finish _ (.inl ⟨halone.trd, halone.trd2⟩)⟩
          rw [hkind]
          exact Writer.noConfusion
      | none =>
          have hnext : Writer.opening.next (frameKind chunk, true) = .accepted := by rw [hkind]; rfl
          refine ⟨hquiet.legal_wrote (by simp [hnext]), ?_⟩
          rw [Dialogue.note_wrote_none]
          have hready' : Ready { d with written := d.written ++ [(chunk, true)] } c.lpushProtocol := hready
          exact good_withProtocol hready' fun r hr => good_createConnection env w halone (hquiet.wrote hnext) hr
  | createConnection r hpoint halone hquiet hreading =>
      obtain ⟨size, resume, rfl, hallowed, rfl⟩ := createConnection_of_cycle hpoint hcycle
      rw [good_after_cons, good_after_nil]
      refine ⟨trivial, good_createConnection env w halone ?_ (underway_received hreading hallowed)⟩
      rw [Dialogue.note_received]
      exact { hquiet with }
  | connecting chunk client hpoint htrd htrd2 hclient hquiet hkind hready =>
      rw [hpoint] at hstep
      obtain rfl := Option.some.inj hstep
      rw [good_after_cons, good_after_nil]
      cases hwrite : w.writeError with
      | some e =>
          refine ⟨hquiet.legal_wrote ?_, good_finish _ (.inl ⟨htrd, htrd2⟩)⟩
          rw [hkind]
          exact Writer.noConfusion
      | none =>
          have hnext : Writer.accepted.next (frameKind chunk, true) = .connected := by rw [hkind]; rfl
          refine ⟨hquiet.legal_wrote (by simp [hnext]), ?_⟩
          rw [Dialogue.note_wrote_none]
          refine good_connected env w hclient (hquiet.wrote hnext) ?_ hready
          simp [Dialogue.Connected, Dialogue.kinds, hkind]
  | running t u client hpoint hactive =>
      cases hp : c.point with
      | startRecv =>
          rw [hp] at hstep
          simp only [hactive.trd] at hstep
          split at hstep
          · obtain rfl := Option.some.inj hstep
            refine good_startTrd2 w ⟨rfl, hactive.trd2, hactive.client_eq, ?_, hactive.consum⟩
            exact ⟨hactive.recv.connected, hactive.recv.handed_eq, hactive.recv.two_le, hactive.recv.reading⟩
          · obtain rfl := Option.some.inj hstep
            exact good_stop (.running t u client hpoint hactive)
      | startConsum =>
          rw [hp] at hstep
          simp only [hactive.trd2] at hstep
          split at hstep
          · obtain rfl := Option.some.inj hstep
            exact good_started w ⟨hactive.trd, rfl, hactive.client_eq, hactive.recv, hactive.consum⟩
          · obtain rfl := Option.some.inj hstep
            exact good_stop (.running t u client hpoint hactive)
      | polling =>
          rw [hp] at hstep
          obtain rfl := Option.some.inj hstep
          exact good_poll hactive
      | joinRecv =>
          rw [hp] at hstep
          simp only [hactive.trd] at hstep
          split at hstep
          · obtain rfl := Option.some.inj hstep
            exact good_deleteTrd2 rfl (.inr ⟨u, client, hactive.trd2, hactive.client_eq, hactive.consum⟩)
          · cases hstep
      | _ =>
          rw [hp] at hpoint
          exact hpoint.elim
  | joinConsum u client hpoint htrd htrd2 hclient hconsum =>
      rw [hpoint] at hstep
      dsimp only at hstep
      split at hstep
      · obtain rfl := Option.some.inj hstep
        exact good_release htrd
      · cases hstep
  | closed hpoint halone =>
      rw [hpoint] at hstep
      cases hstep

end cycle

/-! ### The recv thread -/

/-- Handling a frame leaves the user, the threads and the buffer alone. -/
structure Untouched (c c' : LPushConn) : Prop where
  stfd : c'.stfd = c.stfd
  lphandshakeMsg : c'.lphandshakeMsg = c.lphandshakeMsg
  point : c'.point = c.point
  trd : c'.trd = c.trd
  trd2 : c'.trd2 = c.trd2
  client : c'.client = c.client
  lpushProtocol : c'.lpushProtocol = c.lpushProtocol

theorem Untouched.refl (c : LPushConn) : c.Untouched c := ⟨rfl, rfl, rfl, rfl, rfl, rfl, rfl⟩

def OnlyRedis (effects : List Effect) : Prop := ∀ e ∈ effects, ∃ command, e = .redis command

theorem OnlyRedis.neutral {effects : List Effect} (h : OnlyRedis effects) : ∀ e ∈ effects, Neutral e := by
  intro e he
  obtain ⟨command, rfl⟩ := h e he
  trivial

theorem doDispose_spec {c c' : LPushConn} {effects : List Effect} (h : c.doDispose = some (c', effects)) :
    c.Untouched c' ∧ OnlyRedis effects := by
  unfold doDispose at h
  split at h
  · cases h
    refine ⟨⟨rfl, rfl, rfl, rfl, rfl, rfl, rfl⟩, fun e he => ?_⟩
    simp only [List.mem_cons, List.not_mem_nil, or_false] at he
    rcases he with rfl | rfl | rfl <;> exact ⟨_, rfl⟩
  · cases h

theorem hreatbeat_redis {c : LPushConn} {effects : List Effect} (h : c.hreatbeat = some effects) :
    OnlyRedis effects := by
  unfold hreatbeat at h
  split at h
  · cases h
    intro e he
    simp only [List.mem_cons, List.not_mem_nil, or_false] at he
    rcases he with rfl | rfl | rfl <;> exact ⟨_, rfl⟩
  · cases h

/-- A handler came back, having sent commands to Redis at most, or it ended the process. -/
def Handled (c : LPushConn) : Except Fault (Int × Progress) → Prop
  | .error fault => fault ≠ .emptyPop
  | .ok (_, c', effects) => c.Untouched c' ∧ OnlyRedis effects

theorem handled_dispatch (env : Env) (beyond : Nat → UInt8) (c : LPushConn) (message : LPushChunk) :
    Handled c (dispatch env beyond c message) := by
  unfold dispatch
  split
  · cases heffects : c.hreatbeat with
    | none => exact Fault.noConfusion
    | some effects => exact ⟨.refl c, hreatbeat_redis heffects⟩
  · split
    · cases hprogress : c.doDispose with
      | none => exact Fault.noConfusion
      | some progress => exact doDispose_spec hprogress
    · split
      · cases hresult : (recvPushCallback env.conf env.platform beyond message).result with
        | none => exact Fault.noConfusion
        | some result =>
            refine ⟨.refl c, fun e he => ?_⟩
            obtain ⟨command, -, rfl⟩ := List.mem_map.mp he
            exact ⟨command, rfl⟩
      · exact ⟨.refl c, fun e he => (List.not_mem_nil he).elim⟩

theorem handled_forwardServer (env : Env) (beyond : Nat → UInt8) (c : LPushConn) (message : LPushChunk) :
    Handled c (forwardServer env beyond c message) := by
  have hdispatch := handled_dispatch env beyond c message
  unfold forwardServer
  cases hresult : dispatch env beyond c message with
  | error fault => rwa [hresult] at hdispatch
  | ok result =>
      rw [hresult] at hdispatch
      obtain ⟨hsame, hredis⟩ := hdispatch
      exact ⟨⟨hsame.stfd, hsame.lphandshakeMsg, hsame.point, hsame.trd, hsame.trd2, hsame.client,
        hsame.lpushProtocol⟩, hredis⟩

section recv

variable {d : Dialogue} {c : LPushConn} {t : LPushRecvThread} {u : LPushConsumThread}
  {client : LPushClient} (env : Env) (w : World)

/-- What the recv thread finds around it whenever it runs. -/
structure Listening (d : Dialogue) (c : LPushConn) (u : LPushConsumThread) (client : LPushClient) :
    Prop where
  point : Running c.point
  trd : c.trd.isSome = true
  trd2 : c.trd2 = some u
  client_eq : c.client = some client
  connected : d.Connected
  handed_eq : d.handed = d.taken.drop 2
  two_le : 2 ≤ d.taken.length
  consum : ConsumOk d u client

theorem Listening.untouched {c' : LPushConn} (h : Listening d c u client) (hsame : c.Untouched c') :
    Listening d c' u client :=
  { h with
    point := by rw [hsame.point]; exact h.point
    trd := by rw [hsame.trd]; exact h.trd
    trd2 := hsame.trd2.trans h.trd2
    client_eq := hsame.client.trans h.client_eq }

/-- The recv thread stops at a point where it is in order. -/
theorem Listening.good_stop (h : Listening d c u client)
    (hreading : match t.point with
      | .reading r => Underway d.taken d.stream (d.readFailed = true) r
      | .ended => True
      | _ => Ready d c.lpushProtocol) :
    Good d ({ c with trd := some t }, []) :=
  LPushConn.good_stop (.running t u client h.point
    ⟨rfl, h.trd2, h.client_eq, ⟨h.connected, h.handed_eq, h.two_le, hreading⟩, h.consum⟩)

theorem good_recvCycled (h : Listening d c u client) (hready : Ready d c.lpushProtocol) :
    Good d (c.recvCycled t) := by
  unfold recvCycled
  split
  · exact h.good_stop hready
  · exact h.good_stop trivial

theorem good_recvFailed (h : Listening d c u client) : Good d (c.recvFailed t) := by
  unfold recvFailed
  cases hdispose : c.doDispose with
  | none => exact good_die Fault.noConfusion
  | some progress =>
      obtain ⟨hsame, hredis⟩ := doDispose_spec hdispose
      apply good_after_neutral hredis.neutral
      -- `loop` is false, so the thread ends
      exact (h.untouched hsame).good_stop trivial

theorem good_recvRead {r : MessageReading} (h : Listening d c u client)
    (hreading : Underway d.taken d.stream (d.readFailed = true) r) : Good d (c.recvRead env w t r) := by
  cases r with
  | need size resume => exact h.good_stop hreading
  | abort => exact hreading.not_abort.elim
  | done result =>
      obtain ⟨ret, lpc, b⟩ := result
      simp only [recvRead]
      have hactive : ({ c with lpushProtocol := some b } : LPushConn).isActive = true := by
        simp only [isActive, h.trd, h.trd2, Option.isSome_some, Bool.and_self]
      rw [good_after_cons, good_after_nil, if_pos hactive]
      refine ⟨legal_message hreading, ?_⟩
      by_cases hret : ret = errorSuccess
      · subst hret
        have hready := ready_message hreading
        have htwo := h.two_le
        have hhanded : d.handed ++ [lpc] = (d.taken ++ [lpc]).drop 2 := by
          rw [h.handed_eq, List.drop_append_of_le_length htwo]
        have hlistening : Listening { d with taken := d.taken ++ [lpc], handed := d.handed ++ [lpc] }
            { c with lpushProtocol := some b } u client :=
          { h with
            handed_eq := hhanded
            two_le := by simp only [List.length_append]; omega }
        rw [if_neg (by simp), Dialogue.note_message_success, good_after_cons, good_after_nil,
          Dialogue.note_forward]
        refine ⟨⟨h.connected, hready.1, hhanded⟩, ?_⟩
        have hhandled := handled_forwardServer env w.beyond { c with lpushProtocol := some b } lpc
        cases hresult : forwardServer env w.beyond { c with lpushProtocol := some b } lpc with
        | error fault =>
            rw [hresult] at hhandled
            exact good_die hhandled
        | ok result =>
            obtain ⟨ret, c', effects⟩ := result
            rw [hresult] at hhandled
            obtain ⟨hsame, hredis⟩ := hhandled
            have hlistening' := hlistening.untouched hsame
            obtain ⟨hclean, b', hprotocol, hbetween⟩ := hready
            dsimp only
            rw [← after_after]
            apply good_after_neutral hredis.neutral
            rw [good_after_cons, good_after_nil, Dialogue.note_forwardReturned]
            refine ⟨trivial, ?_⟩
            split
            · exact good_recvFailed { hlistening' with }
            · rename_i hret
              refine Listening.good_stop { hlistening' with } ⟨?_, b', ?_, hbetween⟩
              · rw [not_not.mp hret]
                exact (Bool.or_false _).trans hclean
              · exact hsame.lpushProtocol.trans hprotocol
      · rw [if_pos hret, Dialogue.note_message_error d lpc hret]
        exact good_recvFailed { h with }

theorem good_recvCycle (h : Listening d c u client) (hready : Ready d c.lpushProtocol) :
    Good d (c.recvCycle env w t) := by
  unfold recvCycle
  split
  · obtain ⟨hclean, b, hprotocol, hbetween⟩ := hready
    rw [hprotocol]
    exact good_recvRead env w h (hbetween.start (Bool.eq_false_iff.mp hclean))
  · exact good_recvCycled h hready

theorem good_recvThreadCycle (h : Listening d c u client) (hready : Ready d c.lpushProtocol) :
    Good d (c.recvThreadCycle env w t) := by
  unfold recvThreadCycle
  split
  · exact good_recvCycle env w h hready
  · exact h.good_stop trivial

theorem good_recvWait (h : Listening d c u client) (hready : Ready d c.lpushProtocol) :
    Good d (c.recvWait env w t) := by
  unfold recvWait
  split
  · exact h.good_stop hready
  · exact good_recvThreadCycle env w h hready

/-- Only while both helper threads exist can the recv thread run. -/
theorem Coherent.of_trd (h : Coherent d c) (htrd : c.trd = some t) :
    ∃ u client, Running c.point ∧ Active d c t u client := by
  cases h with
  | running t' u client hpoint hactive =>
      obtain rfl := Option.some.inj (htrd.symm.trans hactive.trd)
      exact ⟨u, client, hpoint, hactive⟩
  | opening _ halone | handshake _ _ halone | refusing _ _ _ halone | accepting _ _ halone
  | createConnection _ _ halone | closed _ halone => cases htrd.symm.trans halone.trd
  | connecting _ _ _ hnone | joinConsum _ _ _ hnone => cases htrd.symm.trans hnone

theorem good_recv {p : Progress} (h : Coherent d c) (hstep : c.recv env w = some p) : Good d p := by
  obtain ⟨t, htrd, -, hturn⟩ := recv_spec hstep
  obtain ⟨u, client, hpoint, hactive⟩ := h.of_trd htrd
  have hlistening : Listening d c u client :=
    ⟨hpoint, by rw [htrd]; rfl, hactive.trd2, hactive.client_eq, hactive.recv.connected,
      hactive.recv.handed_eq, hactive.recv.two_le, hactive.consum⟩
  have hreading := hactive.recv.reading
  cases hturn with
  | created hp | waiting hp =>
      rw [hp] at hreading
      exact good_recvWait env w hlistening hreading
  | reading size resume hp hallowed =>
      rw [hp] at hreading
      have hresumed := underway_received hreading hallowed
      rw [good_after_cons, good_after_nil]
      refine ⟨trivial, ?_⟩
      rw [Dialogue.note_received] at hresumed ⊢
      exact good_recvRead env w { hlistening with } hresumed
  | sleeping hp =>
      rw [hp] at hreading
      exact good_recvCycle env w hlistening hreading
  | resting hp =>
      rw [hp] at hreading
      exact good_recvThreadCycle env w hlistening hreading

end recv

/-! ### The consum thread -/

/-- The reading side has not moved. -/
structure SameReading (d d' : Dialogue) : Prop where
  stream : d'.stream = d.stream
  taken : d'.taken = d.taken
  handed : d'.handed = d.handed
  readFailed : d'.readFailed = d.readFailed
  connected : d.Connected → d'.Connected

section consum

variable {d d' : Dialogue} {c c' : LPushConn} {t : LPushRecvThread} {u : LPushConsumThread}
  {client : LPushClient} (env : Env) (w : World)

theorem RecvOk.sameReading {protocol : Option LPushFastBuffer} (h : RecvOk d t protocol)
    (hsame : SameReading d d') : RecvOk d' t protocol := by
  obtain ⟨hstream, htaken, hhanded, hfailed, hconnected⟩ := hsame
  refine ⟨hconnected h.connected, ?_, ?_, ?_⟩
  · rw [hhanded, htaken, h.handed_eq]
  · rw [htaken]
    exact h.two_le
  · have hreading := h.reading
    simp only [Ready, htaken, hstream, hfailed] at hreading ⊢
    exact hreading

/-- Wherever the consum thread stops in order, the connection is coherent. -/
def Consuming (d : Dialogue) (c : LPushConn) : Prop :=
  ∀ u client, ConsumOk d u client → Coherent d { c with trd2 := some u, client := some client }

/-- The consum thread runs beside the recv thread, or is being joined after it. -/
theorem Coherent.of_trd2 (h : Coherent d c) (htrd2 : c.trd2 = some u) :
    ∃ client, c.client = some client ∧ ConsumOk d u client ∧
      ((Running c.point ∧ ∃ t, Active d c t u client) ∨ (c.point = .joinConsum ∧ c.trd = none)) := by
  cases h with
  | running t u' client hpoint hactive =>
      obtain rfl := Option.some.inj (htrd2.symm.trans hactive.trd2)
      exact ⟨client, hactive.client_eq, hactive.consum, .inl ⟨hpoint, t, hactive⟩⟩
  | joinConsum u' client hpoint htrd htrd2' hclient hconsum =>
      obtain rfl := Option.some.inj (htrd2.symm.trans htrd2')
      exact ⟨client, hclient, hconsum, .inr ⟨hpoint, htrd⟩⟩
  | opening _ halone | handshake _ _ halone | refusing _ _ _ halone | accepting _ _ halone
  | createConnection _ _ halone | closed _ halone => cases htrd2.symm.trans halone.trd2
  | connecting _ _ _ _ hnone => cases htrd2.symm.trans hnone

theorem Coherent.consuming (h : Coherent d c) (htrd2 : c.trd2 = some u) (hsame : SameReading d d') :
    Consuming d' c := by
  intro u' client' hconsum'
  obtain ⟨client, -, -, ⟨hpoint, t, hactive⟩ | ⟨hpoint, htrd⟩⟩ := h.of_trd2 htrd2
  · exact .running t u' client' hpoint ⟨hactive.trd, rfl, rfl, hactive.recv.sameReading hsame, hconsum'⟩
  · exact .joinConsum u' client' hpoint htrd rfl rfl hconsum'

theorem Consuming.good_stop (h : Consuming d c) (hclient : c.client = some client)
    (hconsum : ConsumOk d u client) : Good d ({ c with trd2 := some u }, []) := by
  have hcoherent := h u client hconsum
  rw [← hclient] at hcoherent
  exact LPushConn.good_stop hcoherent

/-- What the consum thread leaves behind between two messages. -/
def Idle (d : Dialogue) (client : LPushClient) : Prop :=
  d.writer = .connected ∧ d.pushFailed = false ∧ d.pushed = d.delivered ++ client.queue

theorem frameKind_sendForward {platform : Platform} {now : Int} {work : LPushWorkerMessage}
    {chunk : LPushChunk} (h : sendForward platform now work = some chunk) : frameKind chunk = .push := by
  unfold sendForward LPushChunk.setData at h
  dsimp only at h
  split at h
  · obtain rfl := Option.some.inj h
    rfl
  · cases h

theorem good_consumCycled (h : Consuming d c) (hclient : c.client = some client) (hidle : Idle d client) :
    Good d (c.consumCycled u) := by
  unfold consumCycled
  split
  · exact h.good_stop hclient hidle
  · exact h.good_stop hclient (.inr hidle)

theorem good_playing (h : Consuming d c) (hidle : Idle d client) (hloop : client.canLoop = true) :
    Good d (c.playing env w u client) := by
  unfold playing
  cases hqueue : client.queue with
  | nil =>
      rw [LPushClient.canLoop, hqueue] at hloop
      exact (Bool.false_ne_true hloop).elim
  | cons work queue =>
      dsimp only [LPushFastQueue.pop]
      split
      · exact good_die Fault.noConfusion
      · rename_i chunk hchunk
        obtain ⟨hwriter, hclean, hpushed⟩ := hidle
        refine LPushConn.good_stop (h ⟨u.trd, u.canRun, .writing work chunk⟩ _
          ⟨hwriter, hclean, frameKind_sendForward hchunk, ?_⟩)
        rw [hpushed, hqueue]

theorem good_consumCycle (h : Consuming d c) (hclient : c.client = some client) (hidle : Idle d client) :
    Good d (c.consumCycle env w u) := by
  unfold consumCycle
  split
  · rw [hclient]
    dsimp only
    split
    · rename_i hloop
      exact good_playing env w h hidle hloop
    · rw [← hclient]
      exact h.good_stop hclient hidle
  · exact good_consumCycled h hclient hidle

theorem good_consumThreadCycle (h : Consuming d c) (hclient : c.client = some client)
    (hidle : Idle d client) : Good d (c.consumThreadCycle env w u) := by
  unfold consumThreadCycle
  split
  · exact good_consumCycle env w h hclient hidle
  · exact h.good_stop hclient (.inr hidle)

theorem good_consumWait (h : Consuming d c) (hclient : c.client = some client) (hidle : Idle d client) :
    Good d (c.consumWait env w u) := by
  unfold consumWait
  split
  · exact h.good_stop hclient hidle
  · exact good_consumThreadCycle env w h hclient hidle

theorem Alone.untouched (h : c.Alone) (hsame : c.Untouched c') : c'.Alone :=
  ⟨hsame.trd.trans h.trd, hsame.trd2.trans h.trd2, hsame.client.trans h.client⟩

theorem Coherent.untouched (h : Coherent d c) (hsame : c.Untouched c') : Coherent d c' := by
  obtain ⟨-, -, hp, ht, ht2, hc, hl⟩ := id hsame
  cases h with
  | opening hpoint halone hquiet hready =>
      exact .opening (by rwa [hp]) (halone.untouched hsame) hquiet (by rwa [hl])
  | handshake r hpoint halone hquiet hreading =>
      exact .handshake r (hp.trans hpoint) (halone.untouched hsame) hquiet hreading
  | refusing chunk ret hpoint halone hwrite =>
      exact .refusing chunk ret (hp.trans hpoint) (halone.untouched hsame) hwrite
  | accepting chunk hpoint halone hquiet hkind hready =>
      exact .accepting chunk (hp.trans hpoint) (halone.untouched hsame) hquiet hkind (by rwa [hl])
  | createConnection r hpoint halone hquiet hreading =>
      exact .createConnection r (hp.trans hpoint) (halone.untouched hsame) hquiet hreading
  | connecting chunk client hpoint htrd htrd2 hclient hquiet hkind hready =>
      exact .connecting chunk client (hp.trans hpoint) (ht.trans htrd) (ht2.trans htrd2) (hc.trans hclient)
        hquiet hkind (by rwa [hl])
  | running t u client hpoint hactive =>
      exact .running t u client (by rwa [hp]) ⟨ht.trans hactive.trd, ht2.trans hactive.trd2,
        hc.trans hactive.client_eq, by rw [hl]; exact hactive.recv, hactive.consum⟩
  | joinConsum u client hpoint htrd htrd2 hclient hconsum =>
      exact .joinConsum u client (hp.trans hpoint) (ht.trans htrd) (ht2.trans htrd2) (hc.trans hclient)
        hconsum
  | closed hpoint halone => exact .closed (hp.trans hpoint) (halone.untouched hsame)

theorem good_consumFailed (h : Consuming d c) (hclient : c.client = some client)
    (hover : d.writer = .finished ∧ d.pushFailed = true) : Good d (c.consumFailed u) := by
  unfold consumFailed
  cases hdispose : c.doDispose with
  | none => exact good_die Fault.noConfusion
  | some progress =>
      obtain ⟨hsame, hredis⟩ := doDispose_spec hdispose
      apply good_after_neutral hredis.neutral
      -- `loop` is false, so the thread ends
      have hconsuming : Consuming d progress.1 := fun u client hconsum =>
        (h u client hconsum).untouched ⟨hsame.stfd, hsame.lphandshakeMsg, hsame.point, hsame.trd, rfl, rfl,
          hsame.lpushProtocol⟩
      exact hconsuming.good_stop (hsame.client.trans hclient) (.inl hover)

theorem sameReading_refl (d : Dialogue) : SameReading d d := ⟨rfl, rfl, rfl, rfl, id⟩

/-- Writing does not move the reading side. -/
theorem sameReading_wrote (d : Dialogue) (chunk : LPushChunk) (ok : Bool) (work : LPushWorkerMessage) :
    SameReading d (d.note (.wrote chunk ok (some work))) := by
  refine ⟨?_, ?_, ?_, ?_, fun h => ?_⟩
  · cases ok <;> simp
  · cases ok <;> simp
  · cases ok <;> simp
  · cases ok <;> simp
  · simp only [Dialogue.Connected, Dialogue.kinds, Dialogue.note, List.map_append]
    exact List.mem_append_left _ h

/-- Whoever waits in the write of a push is connected until it fails. -/
theorem ConsumOk.writer_next {work : LPushWorkerMessage} {chunk : LPushChunk} (h : ConsumOk d u client)
    (hpoint : u.point = .writing work chunk) (ok : Bool) :
    d.writer.next (frameKind chunk, ok) = if ok then .connected else .finished := by
  rw [ConsumOk, hpoint] at h
  obtain ⟨hwriter, -, hkind, -⟩ := h
  rw [hwriter, hkind]
  rfl

theorem ConsumOk.legal_wrote {work : LPushWorkerMessage} {chunk : LPushChunk} (h : ConsumOk d u client)
    (hpoint : u.point = .writing work chunk) (ok : Bool) : d.Legal (.wrote chunk ok (some work)) := by
  refine ⟨?_, ?_⟩
  · rw [h.writer_next hpoint]
    split <;> exact Writer.noConfusion
  · intro _ msg hmsg
    obtain rfl := Option.some.inj hmsg
    rw [ConsumOk, hpoint] at h
    obtain ⟨-, -, -, hpushed⟩ := h
    refine ⟨client.queue, ?_⟩
    rw [hpushed, List.append_assoc, List.singleton_append]

theorem good_consum {p : Progress} (h : Coherent d c) (hstep : c.consum env w = some p) : Good d p := by
  obtain ⟨u, htrd2, -, hturn⟩ := consum_spec hstep
  obtain ⟨client, hclient, hconsum, -⟩ := h.of_trd2 htrd2
  have hconsuming := h.consuming htrd2 (sameReading_refl d)
  cases hturn with
  | created hp | waiting hp =>
      rw [ConsumOk, hp] at hconsum
      exact good_consumWait env w hconsuming hclient hconsum
  | sleeping hp =>
      rw [ConsumOk, hp] at hconsum
      exact good_consumCycle env w hconsuming hclient hconsum
  | resting hp =>
      rw [ConsumOk, hp] at hconsum
      exact good_consumThreadCycle env w hconsuming hclient hconsum
  | failed work chunk e hp =>
      have hnext := hconsum.writer_next hp
      rw [good_after_cons, good_after_nil]
      refine ⟨hconsum.legal_wrote hp false, ?_⟩
      refine good_consumFailed (h.consuming htrd2 (sameReading_wrote d chunk false work)) hclient ⟨?_, ?_⟩
      · rw [Dialogue.writer_note_wrote, hnext]
        rfl
      · exact congrArg Dialogue.pushFailed (Dialogue.note_wrote_push_failed d chunk work)
  | written work chunk hp =>
      have hnext := hconsum.writer_next hp
      have hlegal := hconsum.legal_wrote hp true
      rw [ConsumOk, hp] at hconsum
      obtain ⟨-, hclean, -, hpushed⟩ := hconsum
      rw [good_after_cons, good_after_nil]
      refine ⟨hlegal, ?_⟩
      have hconsuming' := h.consuming htrd2 (sameReading_wrote d chunk true work)
      refine good_consumCycle env w hconsuming' hclient ⟨?_, ?_, ?_⟩
      · rw [Dialogue.writer_note_wrote, hnext]
        rfl
      · rw [Dialogue.note_wrote_push]
        exact hclean
      · rw [Dialogue.note_wrote_push]
        dsimp only
        rw [hpushed, List.append_assoc, List.singleton_append]

end consum

/-! ### Whole runs -/

section run

variable {d : Dialogue} {c c' : LPushConn} {trace effects : List Effect}

theorem good_step {env : Env} {w : World} {thread : ThreadName} {p : Progress} (h : Coherent d c)
    (hstep : c.step env w thread = some p) : Good d p := by
  unfold step at hstep
  split at hstep
  · cases hstep
  · cases thread with
    | cycle => exact good_cycle env w h hstep
    | recv => exact good_recv env w h hstep
    | consum => exact good_consum env w h hstep

theorem crashed_of_step {env : Env} {w : World} {thread : ThreadName} {p : Progress}
    (hstep : c.step env w thread = some p) : c.crashed = false := by
  unfold step at hstep
  split at hstep
  · cases hstep
  · rename_i hrunning
    exact Bool.eq_false_iff.mpr hrunning

theorem ConsumOk.push {u : LPushConsumThread} {client : LPushClient} (h : ConsumOk d u client)
    (msg : LPushWorkerMessage) : ConsumOk { d with pushed := d.pushed ++ [msg] } u (client.push msg) := by
  unfold ConsumOk at h ⊢
  have hqueue : (client.push msg).queue = client.queue ++ [msg] := rfl
  cases hp : u.point with
  | writing work chunk =>
      rw [hp] at h
      refine ⟨h.1, h.2.1, h.2.2.1, ?_⟩
      rw [h.2.2.2, hqueue, List.append_assoc, List.cons_append]
  | ended =>
      rw [hp] at h
      rcases h with hover | ⟨hwriter, hclean, hpushed⟩
      · exact .inl hover
      · refine .inr ⟨hwriter, hclean, ?_⟩
        rw [hpushed, hqueue, List.append_assoc]
  | _ =>
      rw [hp] at h
      refine ⟨h.1, h.2.1, ?_⟩
      rw [h.2.2, hqueue, List.append_assoc]

/-- A push from outside lengthens the queue. -/
theorem good_push {msg : LPushWorkerMessage} (h : Coherent d c) (hpush : c.push msg = some c') :
    Coherent (d.note (.queued msg)) c' := by
  unfold push at hpush
  obtain ⟨client, hclient, rfl⟩ := Option.map_eq_some_iff.mp hpush
  rw [Dialogue.note_queued]
  cases h with
  | connecting chunk client' hpoint htrd htrd2 hclient' hquiet hkind hready =>
      obtain rfl := Option.some.inj (hclient.symm.trans hclient')
      refine .connecting chunk (client.push msg) hpoint htrd htrd2 rfl ?_ hkind hready
      exact { hquiet with pushed := congrArg (· ++ [msg]) hquiet.pushed }
  | running t u client' hpoint hactive =>
      obtain rfl := Option.some.inj (hclient.symm.trans hactive.client_eq)
      refine .running t u (client.push msg) hpoint
        ⟨hactive.trd, hactive.trd2, rfl, ?_, hactive.consum.push msg⟩
      exact hactive.recv.sameReading ⟨rfl, rfl, rfl, rfl, id⟩
  | joinConsum u client' hpoint htrd htrd2 hclient' hconsum =>
      obtain rfl := Option.some.inj (hclient.symm.trans hclient')
      exact .joinConsum u (client.push msg) hpoint htrd htrd2 rfl (hconsum.push msg)
  | opening _ halone | handshake _ _ halone | refusing _ _ _ halone | accepting _ _ halone
  | createConnection _ _ halone | closed _ halone => cases hclient.symm.trans halone.client

/-- **The threads keep to the contract.** -/
theorem history_proper {surroundings : Env → Prop} (hrun : History surroundings trace c) :
    Proper trace ∧ (c.crashed = false → Coherent (dialogue trace) c) := by
  refine hrun.invariant
    (fun trace c => Proper trace ∧ (c.crashed = false → Coherent (dialogue trace) c)) ?_ ?_
  · rintro c ⟨stfd, beyond, rfl | rfl⟩
    · refine ⟨throughout_nil, fun _ => .opening (.inr rfl) ⟨rfl, rfl, rfl⟩ ⟨rfl, rfl, rfl, rfl, rfl, rfl⟩ ?_⟩
      exact ⟨rfl, _, rfl, between_fresh beyond⟩
    · refine ⟨throughout_nil, fun _ => .opening (.inl rfl) ⟨rfl, rfl, rfl⟩ ⟨rfl, rfl, rfl, rfl, rfl, rfl⟩ ?_⟩
      exact ⟨rfl, _, rfl, between_fresh beyond⟩
  · rintro trace c effects c' ⟨hproper, hcoherent⟩ hstep
    cases hstep with
    | thread env w thread henv hstep =>
        obtain ⟨hfollows, hnext⟩ := good_step (hcoherent (crashed_of_step hstep)) hstep
        rw [dialogue_append_list]
        exact ⟨hproper.append hfollows, hnext⟩
    | queued msg hrunning hpush =>
        rw [dialogue_append]
        exact ⟨hproper.append ⟨trivial, trivial⟩, fun _ => good_push (hcoherent hrunning) hpush⟩

end run

end LPushConn

end LinkedonPush
