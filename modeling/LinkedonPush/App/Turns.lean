import LinkedonPush.App.Arrival

/-!
# The turns of a consum thread

How long a message waits in the queue of its client. Every turn that the thread has in the loop of
`LPushConsumThread::cycle` takes one message, so a message waits for those in front of it and for nothing
else, whatever the other threads do meanwhile.
-/

namespace LinkedonPush

open Theory

namespace LPushConn

/-- The consum thread is in the loop of `cycle`, and nobody has told it to stop. -/
structure AtWork (c : LPushConn) (u : LPushConsumThread) : Prop where
  running : c.crashed = false
  trd2 : c.trd2 = some u
  tid : u.trd.tid = true
  canRun : u.canRun = true
  point : u.point = .sleeping ∨ ∃ work chunk, u.point = .writing work chunk

/-- The messages in the queue of the client. -/
def waiting (c : LPushConn) : List LPushWorkerMessage := (c.client.map LPushClient.queue).getD []

/-- Why a thread is no longer at work: the connection deletes it, or the process has died. -/
def Ending (c : LPushConn) : Prop := c.crashed = true ∨ c.point = .joinConsum ∨ c.point = .closed

/-- A step leaves the thread at work and its queue alone, or ends its work. -/
def Minds (c c' : LPushConn) : Prop :=
  (c'.client = c.client ∧ ∃ u, c'.AtWork u) ∨ (c'.Ending ∧ ∀ u, ¬ c'.AtWork u)

section atWork

variable {env : Env} {w : World} {c c' : LPushConn} {p : Progress} {d : Dialogue} {u u' : LPushConsumThread}
  {t : LPushRecvThread} {client : LPushClient}

theorem waiting_of_client (hclient : c.client = some client) : c.waiting = client.queue := by
  rw [waiting, hclient]
  rfl

theorem not_atWork_die (c : LPushConn) (fault : Fault) (u : LPushConsumThread) : ¬ (c.die fault).1.AtWork u :=
  fun h => Bool.noConfusion h.running

/-- All that was pushed has been delivered, is being written or waits. -/
theorem AtWork.balance (h : c.AtWork u) (hcoherent : Coherent d c) :
    d.pushed.length = d.delivered.length + c.pushing.toList.length + c.waiting.length := by
  obtain ⟨client, hclient, hconsum, -⟩ := hcoherent.of_trd2 h.trd2
  have hclean : d.pushFailed = false := by
    rcases h.point with hpoint | ⟨work, chunk, hpoint⟩
    · rw [ConsumOk, hpoint] at hconsum
      exact hconsum.2.1
    · rw [ConsumOk, hpoint] at hconsum
      exact hconsum.2.1
  rw [hcoherent.balance hclient hclean, waiting_of_client hclient, List.length_append, List.length_append]
  cases c.pushing <;> rfl

/-! ### The cycle thread -/

theorem Minds.of_client {c'' : LPushConn} (h : Minds c' c'') (hclient : c'.client = c.client) : Minds c c'' :=
  h.imp_left fun hsame => ⟨hsame.1.trans hclient, hsame.2⟩

theorem minds_die (c c' : LPushConn) (fault : Fault) : Minds c (c'.die fault).1 :=
  .inr ⟨.inl rfl, not_atWork_die c' fault⟩

theorem minds_release (c c' : LPushConn) : Minds c c'.release.1 :=
  .inr ⟨.inr (.inr rfl), fun u h => Option.some_ne_none u h.trd2.symm⟩

theorem minds_deleteTrd2 (c c' : LPushConn) : Minds c c'.deleteTrd2.1 := by
  unfold deleteTrd2
  split
  · exact minds_release c c'
  · dsimp only
    split
    · exact minds_release c c'
    · exact minds_release c c'
    · refine .inr ⟨.inr (.inl rfl), fun u h => ?_⟩
      -- `stop` has cleared `can_run`
      have hu := Option.some.inj h.trd2
      have hcanRun := h.canRun
      rw [← hu] at hcanRun
      cases hcanRun

theorem AtWork.deleteTrd (h : c.AtWork u) : Minds c c.deleteTrd.1 := by
  unfold LPushConn.deleteTrd
  split
  · exact minds_deleteTrd2 c c
  · dsimp only
    split
    · exact minds_deleteTrd2 c _
    · exact minds_deleteTrd2 c _
    · exact .inl ⟨rfl, u, h.running, h.trd2, h.tid, h.canRun, h.point⟩

theorem AtWork.poll (h : c.AtWork u) : Minds c c.poll.1 := by
  unfold LPushConn.poll
  split
  · exact h.deleteTrd
  · split
    · exact h.deleteTrd
    · exact .inl ⟨rfl, u, h.running, h.trd2, h.tid, h.canRun, h.point⟩

theorem AtWork.started (h : c.AtWork u) : Minds c (c.started w).1 := by
  have hstarted : ({ c with beforeDataTime := w.now, nowDataTime := w.now } : LPushConn).AtWork u :=
    ⟨h.running, h.trd2, h.tid, h.canRun, h.point⟩
  exact hstarted.poll.of_client rfl

theorem AtWork.startTrd2 (h : c.AtWork u) : Minds c (c.startTrd2 w).1 := by
  simp only [LPushConn.startTrd2, h.trd2]
  split
  · exact .inl ⟨rfl, _, h.running, rfl, rfl, rfl, h.point⟩
  · have hcanRun : ({ c with trd2 := some { u with canRun := true } } : LPushConn).AtWork { u with canRun := true } :=
      ⟨h.running, rfl, h.tid, rfl, h.point⟩
    exact hcanRun.started.of_client rfl

/-- While there is a consum thread, the cycle thread is past the opening of the connection. -/
theorem AtWork.cycle (h : c.AtWork u) (hcoherent : Coherent d c) (hstep : c.cycle env w = some p) :
    Minds c p.1 := by
  obtain ⟨client, -, -, hplace⟩ := hcoherent.of_trd2 h.trd2
  have hpast : Running c.point ∨ c.point = .joinConsum := by
    rcases hplace with ⟨hrunning, -⟩ | ⟨hjoin, -⟩
    · exact .inl hrunning
    · exact .inr hjoin
  cases cycle_spec hstep with
  | created hpoint | handshake _ _ hpoint | refusing _ _ hpoint | accepting _ hpoint
  | createConnection _ _ hpoint | connecting _ hpoint =>
      rw [hpoint] at hpast
      rcases hpast with hrunning | hjoin
      · exact hrunning.elim
      · cases hjoin
  | unwritten chunk e hpoint hwrite => exact h.deleteTrd
  | noThread hpoint => exact minds_die c c .nullPointer
  | unready hpoint => exact .inl ⟨rfl, u, h⟩
  | startRecv t hpoint htrd hcid =>
      have hready : ({ c with trd := some { t with trd := { t.trd with canRun := true } } } : LPushConn).AtWork u :=
        ⟨h.running, h.trd2, h.tid, h.canRun, h.point⟩
      exact hready.startTrd2.of_client rfl
  | startConsum u' hpoint htrd2 hcid =>
      obtain rfl := Option.some.inj (h.trd2.symm.trans htrd2)
      have hready : ({ c with trd2 := some { u with trd := { u.trd with canRun := true } } } : LPushConn).AtWork
          { u with trd := { u.trd with canRun := true } } :=
        ⟨h.running, rfl, h.tid, h.canRun, h.point⟩
      exact hready.started.of_client rfl
  | polling hpoint => exact h.poll
  | joinRecv t hpoint htrd hended => exact minds_deleteTrd2 c _
  | joinConsum u' hpoint htrd2 hended => exact minds_release c c

/-! ### The recv thread -/

/-- The consum thread and its queue stay as they are. -/
structure Beside (c c' : LPushConn) : Prop where
  trd2 : c'.trd2 = c.trd2
  client : c'.client = c.client

theorem Beside.trans {c'' : LPushConn} (h : c.Beside c') (h' : c'.Beside c'') : c.Beside c'' :=
  ⟨h'.trd2.trans h.trd2, h'.client.trans h.client⟩

theorem Beside.of_untouched (h : c.Untouched c') : c.Beside c' := ⟨h.trd2, h.client⟩

theorem RecvStopped.beside (h : RecvStopped c c') : c.Beside c' := by
  obtain ⟨t, rfl⟩ := h
  exact ⟨rfl, rfl⟩

theorem beside_rests (h : Rests RecvStopped c p) : c.Beside p.1 := by
  cases h with
  | stops hstopped => exact hstopped.beside
  | disposes hdispose hstopped => exact (Beside.of_untouched (doDispose_spec hdispose).1).trans hstopped.beside
  | undisposed => exact ⟨rfl, rfl⟩

theorem beside_recv (h : RecvDone env w c p) : c.Beside p.1 := by
  have hread : ∀ b, c.Beside { c with lpushProtocol := some b } := fun _ => ⟨rfl, rfl⟩
  induction h with
  | rests h => exact beside_rests h
  | received h ih => exact ih
  | aborted | failed => exact ⟨rfl, rfl⟩
  | refused ret lpc b h =>
      have hrests := beside_rests h
      exact (hread b).trans hrests
  | forwarded ret lpc b ret' hresult h =>
      have hhandled := handled_forwardServer env w.beyond { c with lpushProtocol := some b } lpc
      rw [hresult] at hhandled
      have hrests := beside_rests h
      exact (hread b).trans ((Beside.of_untouched hhandled.1).trans hrests)

/-! ### The consum thread -/

/-- A turn found the queue empty, or has taken its first message. -/
def Takes (c c' : LPushConn) : Prop :=
  (c.waiting = [] ∧ c'.waiting = [] ∧ c'.pushing = none) ∨
    ∃ work chunk, c.waiting = work :: c'.waiting ∧ c'.pushing = some (work, chunk)

/-- What a turn comes to. -/
inductive Turned (env : Env) (w : World) (c : LPushConn) (p : Progress) : Prop where
  | took (u : LPushConsumThread) (htakes : c.Takes p.1) (hwork : p.1.AtWork u)
  | unwritten (e : WriteError) (hwrite : w.writeError = some e) (hfailure : p.2.any Effect.pushFailure = true)
      (hnot : ∀ u, ¬ p.1.AtWork u)
  | died (work : LPushWorkerMessage) (rest : List LPushWorkerMessage) (hwaiting : c.waiting = work :: rest)
      (hchunk : sendForward env.platform w.now work = none) (hcrashed : p.1.crashed = true)

theorem Turned.after {effects : List Effect} (h : Turned env w c p) : Turned env w c (p.after effects) := by
  cases h with
  | took u htakes hwork => exact .took u htakes hwork
  | unwritten e hwrite hfailure hnot =>
      refine .unwritten e hwrite ?_ hnot
      rw [Progress.after, List.any_append, hfailure, Bool.or_true]
  | died work rest hwaiting hchunk hcrashed => exact .died work rest hwaiting hchunk hcrashed

theorem AtWork.consumCycle (h : c.AtWork u) (hclient : c.client = some client) :
    Turned env w c (c.consumCycle env w u) := by
  unfold LPushConn.consumCycle
  rw [if_pos h.canRun, hclient]
  dsimp only
  cases hqueue : client.queue with
  | nil =>
      have hempty : client.canLoop = false := by
        rw [LPushClient.canLoop, hqueue]
        rfl
      rw [hempty, if_neg Bool.false_ne_true]
      refine .took { u with point := .sleeping } (.inl ⟨?_, hqueue, rfl⟩) ⟨h.running, rfl, h.tid, h.canRun, .inl rfl⟩
      rw [waiting_of_client hclient, hqueue]
  | cons work queue =>
      have hloop : client.canLoop = true := by
        rw [LPushClient.canLoop, hqueue]
        rfl
      have hwaiting : c.waiting = work :: queue := (waiting_of_client hclient).trans hqueue
      rw [if_pos hloop]
      simp only [playing, hqueue, LPushFastQueue.pop]
      cases hchunk : sendForward env.platform w.now work with
      | none => exact .died work queue hwaiting hchunk rfl
      | some chunk =>
          exact .took { u with point := .writing work chunk } (.inr ⟨work, chunk, hwaiting, rfl⟩)
            ⟨h.running, rfl, h.tid, h.canRun, .inr ⟨work, chunk, rfl⟩⟩

/-- A thread whose write has failed ends. -/
theorem not_atWork_consumFailed (c : LPushConn) (u u' : LPushConsumThread) : ¬ (c.consumFailed u).1.AtWork u' := by
  unfold consumFailed
  split
  · exact not_atWork_die c .nullPointer u'
  · intro hwork
    have hu := Option.some.inj hwork.trd2
    rcases hwork.point with hpoint | ⟨work, chunk, hpoint⟩
    · rw [← hu] at hpoint
      cases hpoint
    · rw [← hu] at hpoint
      cases hpoint

theorem AtWork.consum (h : c.AtWork u) (hcoherent : Coherent d c) (hstep : c.consum env w = some p) :
    Turned env w c p := by
  obtain ⟨client, hclient, -, -⟩ := hcoherent.of_trd2 h.trd2
  obtain ⟨t, htrd2, -, hturn⟩ := consum_spec hstep
  obtain rfl := Option.some.inj (h.trd2.symm.trans htrd2)
  cases hturn with
  | created hpoint | waiting hpoint | resting hpoint =>
      rcases h.point with hsleeping | ⟨work, chunk, hwriting⟩
      · cases hpoint.symm.trans hsleeping
      · cases hpoint.symm.trans hwriting
  | sleeping hpoint => exact h.consumCycle hclient
  | failed work chunk e hpoint hwrite => exact .unwritten e hwrite rfl (not_atWork_consumFailed c u)
  | written work chunk hpoint hwrite => exact (h.consumCycle hclient).after

/-- The thread can always have its turn. -/
theorem AtWork.exists_consum (h : c.AtWork u) (env : Env) (w : World) : ∃ p, c.consum env w = some p := by
  simp only [LPushConn.consum, h.trd2, h.tid, if_true]
  rcases h.point with hpoint | ⟨work, chunk, hpoint⟩
  · rw [hpoint]
    exact ⟨_, rfl⟩
  · rw [hpoint]
    exact ⟨_, rfl⟩

theorem Takes.length_le (h : Takes c c') : c'.waiting.length ≤ c.waiting.length := by
  rcases h with ⟨hbefore, hafter, -⟩ | ⟨work, chunk, hbefore, -⟩
  · rw [hbefore, hafter]
  · rw [hbefore]
    exact Nat.le_succ _

theorem Takes.subset (h : Takes c c') : c'.waiting ⊆ c.waiting := by
  rcases h with ⟨-, hafter, -⟩ | ⟨work, chunk, hbefore, -⟩
  · rw [hafter]
    exact List.nil_subset _
  · rw [hbefore]
    exact List.subset_cons_self _ _

/-- What a step of a thread leaves of the work. -/
structure Onward (c : LPushConn) (p : Progress) : Prop where
  atWork : (∃ u, p.1.AtWork u) ∨ p.1.Ending ∨ p.2.any Effect.pushFailure = true
  /-- No thread puts anything into the queue. -/
  length_le : ∀ u, p.1.AtWork u → p.1.waiting.length ≤ c.waiting.length

theorem AtWork.step {thread : ThreadName} (h : c.AtWork u) (hcoherent : Coherent d c)
    (hstep : c.step env w thread = some p) : Onward c p := by
  unfold LPushConn.step at hstep
  rw [h.running, if_neg Bool.false_ne_true] at hstep
  cases thread with
  | cycle =>
      rcases h.cycle hcoherent hstep with ⟨hclient, hwork⟩ | ⟨hending, hnot⟩
      · refine ⟨.inl hwork, fun _ _ => ?_⟩
        rw [waiting, hclient]
        rfl
      · exact ⟨.inr (.inl hending), fun u hwork => (hnot u hwork).elim⟩
  | recv =>
      obtain ⟨htrd2, hclient⟩ := beside_recv (recv_done hstep)
      refine ⟨?_, fun _ _ => ?_⟩
      · cases hcrashed : p.1.crashed with
        | true => exact .inr (.inl (.inl hcrashed))
        | false => exact .inl ⟨u, hcrashed, htrd2.trans h.trd2, h.tid, h.canRun, h.point⟩
      · rw [waiting, hclient]
        rfl
  | consum =>
      cases h.consum hcoherent hstep with
      | took u' htakes hwork => exact ⟨.inl ⟨u', hwork⟩, fun _ _ => htakes.length_le⟩
      | unwritten e hwrite hfailure hnot => exact ⟨.inr (.inr hfailure), fun u hwork => (hnot u hwork).elim⟩
      | died work rest hwaiting hchunk hcrashed =>
          refine ⟨.inr (.inl (.inl hcrashed)), fun u hwork => ?_⟩
          cases hcrashed.symm.trans hwork.running

end atWork

end LPushConn

/-! ### Stretches of work -/

namespace Server

/-- The consum thread of connection `id` is at work. -/
def AtWork (s : Server) (id : Nat) : Prop := ∃ c u, s.conns id = some c ∧ c.AtWork u

/-- A part of a run in which the thread stays at work, and the number of its turns. -/
inductive Stretch (setup : Setup) (id : Nat) (s : Server) : Nat → List Observation → Server → Prop where
  | begins (h : s.AtWork id) : Stretch setup id s 0 [] s
  | turn {k : Nat} {shown more : List Observation} {s₁ s₂ : Server} (w : World)
      (hbefore : Stretch setup id s k shown s₁) (hmove : s₁.move setup (.thread id .consum w) = some (s₂, more))
      (hwork : s₂.AtWork id) : Stretch setup id s (k + 1) (shown ++ more) s₂
  /-- Anybody else's step. -/
  | other {k : Nat} {shown more : List Observation} {s₁ s₂ : Server} (hbefore : Stretch setup id s k shown s₁)
      (hstep : Step setup s₁ more s₂) (hwork : s₂.AtWork id) : Stretch setup id s k (shown ++ more) s₂

section stretch

variable {setup : Setup} {tasks : List Bytes} {trace shown : List Observation} {s s' : Server} {id k n : Nat}
  {c c' : LPushConn} {u u' : LPushConsumThread}

theorem Reached.conn_coherent (hrun : Reached setup tasks trace s) (hc : s.conns id = some c)
    (hrunning : c.crashed = false) : LPushConn.Coherent (dialogue (view id trace)) c :=
  (LPushConn.history_proper (hrun.history hc)).2 hrunning

/-- Pushes add to the queue what is pushed, and change nothing else. -/
structure Fed (c : LPushConn) (effects : List Effect) (c' : LPushConn) : Prop where
  waiting : c'.waiting = c.waiting ++ pushed effects
  trd2 : c'.trd2 = c.trd2
  crashed : c'.crashed = c.crashed

theorem fed_self (c : LPushConn) : Fed c [] c := ⟨(List.append_nil _).symm, rfl, rfl⟩

theorem pushed_append (trace effects : List Effect) : pushed (trace ++ effects) = pushed trace ++ pushed effects :=
  List.filterMap_append

theorem fed_delivering {address : LPushWorkerMessage → Bytes × Bytes × Bytes}
    (hrun : Run (· = s) (Delivering address) shown s') (hc : s.conns id = some c) :
    ∃ c', s'.conns id = some c' ∧ Fed c (view id shown) c' := by
  refine hrun.invariant (fun shown s' => ∃ c', s'.conns id = some c' ∧ Fed c (view id shown) c') ?_ ?_
  · rintro _ rfl
    exact ⟨c, hc, fed_self c⟩
  · rintro shown s' more s'' ⟨c', hc', hfed⟩ hstep
    have hquiet : view id more = [] → Fed c (view id (shown ++ more)) c' := by
      intro hnone
      rwa [view_append, hnone, List.append_nil]
    cases hstep with
    | dispatched element | document json => exact ⟨c', hc', hquiet rfl⟩
    | queued id' msg hinstance hpush =>
        obtain ⟨c₀, c₁, hc₀, hqueued, rfl⟩ := push_spec hpush
        by_cases hid : id' = id
        · subst hid
          obtain rfl := Option.some.inj (hc₀.symm.trans hc')
          obtain ⟨client, hclient, rfl⟩ := Option.map_eq_some_iff.mp hqueued
          refine ⟨_, Function.update_self .., ?_, hfed.trd2, hfed.crashed⟩
          have hwaiting := hfed.waiting
          rw [LPushConn.waiting_of_client hclient] at hwaiting
          rw [view_append, pushed_append, view_conn_self, ← List.append_assoc, ← hwaiting]
          rfl
        · exact ⟨c', (Function.update_of_ne (Ne.symm hid) ..).trans hc', hquiet (view_conn_ne hid [])⟩

/-- What a step of the server is to one of its connections: a step of a thread, or pushes. -/
theorem Step.conn_cases (hrun : Reached setup tasks trace s) (hstep : Step setup s shown s')
    (hc : s.conns id = some c) : ∃ c', s'.conns id = some c' ∧
      ((s'.crashed = c'.crashed ∧ ∃ w thread, c.step (s.env setup) w thread = some (c', view id shown)) ∨
        Fed c (view id shown) c') := by
  have haside : s'.conns id = s.conns id → view id shown = [] → ∃ c', s'.conns id = some c' ∧
      ((s'.crashed = c'.crashed ∧ ∃ w thread, c.step (s.env setup) w thread = some (c', view id shown)) ∨
        Fed c (view id shown) c') := by
    intro hconns hnone
    rw [hnone]
    exact ⟨c, hconns.trans hc, .inr (fed_self c)⟩
  cases hstep with
  | thread id' thread w hrunning hfree haddress hthread =>
      obtain ⟨c₀, c₁, effects, hc₀, hconn, rfl⟩ := threadStep_spec hthread
      obtain ⟨hconns, -, hcrashed, -⟩ := performAll_frame id'
        { s with conns := Function.update s.conns id' (some c₁), crashed := c₁.crashed } effects
      by_cases hid : id' = id
      · subst hid
        obtain rfl := Option.some.inj (hc₀.symm.trans hc)
        refine ⟨c₁, ?_, .inl ⟨hcrashed, w, thread, ?_⟩⟩
        · rw [hconns]
          exact Function.update_self ..
        · rw [view_performAll_self]
          exact hconn
      · refine haside ?_ (view_performAll_ne id' _ hid effects)
        rw [hconns]
        exact Function.update_of_ne (Ne.symm hid) ..
  | accept stfd beyond fcntl created hrunning hfree hfd =>
      rcases acceptClient_spec setup.conf stfd beyond fcntl created s with heq | ⟨c₀, -, heq⟩
      · rw [heq] at haside ⊢
        exact haside rfl rfl
      · have hne : id ≠ s.accepted := by
          rintro rfl
          exact Option.some_ne_none c (hc.symm.trans (hrun.projects.fresh _ le_rfl))
        rw [heq] at haside ⊢
        exact haside (Function.update_of_ne hne ..) rfl
  | lrange hrunning hfree hcycle =>
      obtain ⟨⟨s₁, index, shown₁⟩, hdispatch, rfl⟩ := Option.map_eq_some_iff.mp hcycle
      obtain ⟨c', hc', hfed⟩ := fed_delivering (dispatchAll_run hdispatch) hc
      exact ⟨c', hc', .inr hfed⟩
  | page mie result hrunning hloading hpage =>
      obtain ⟨c', hc', hfed⟩ := fed_delivering (selectMongoHistoryLimit_run hpage) hc
      exact ⟨c', hc', .inr hfed⟩
  | rpush | ltrim | request | loaded => exact haside rfl rfl

/-- Only pushes lengthen the queue. -/
theorem Step.length_waiting_le (hrun : Reached setup tasks trace s) (hstep : Step setup s shown s')
    (hc : s.conns id = some c) (hwork : c.AtWork u) (hc' : s'.conns id = some c') (hwork' : c'.AtWork u') :
    c'.waiting.length ≤ c.waiting.length + (pushed (view id shown)).length := by
  obtain ⟨c₁, hc₁, ⟨-, w, thread, hconn⟩ | hfed⟩ := hstep.conn_cases hrun hc
  · obtain rfl := Option.some.inj (hc₁.symm.trans hc')
    have honward := hwork.step (hrun.conn_coherent hc hwork.running) hconn
    exact (honward.length_le u' hwork').trans (Nat.le_add_right _ _)
  · obtain rfl := Option.some.inj (hc₁.symm.trans hc')
    rw [hfed.waiting, List.length_append]

/-- The thread stays at work until the connection ends, a write fails or the process dies. -/
theorem AtWork.stays (h : s.AtWork id) (hrun : Reached setup tasks trace s) (hstep : Step setup s shown s') :
    s'.AtWork id ∨ (view id shown).any Effect.pushFailure = true ∨ ∃ c, s'.conns id = some c ∧ c.Ending := by
  obtain ⟨c, u, hc, hwork⟩ := h
  obtain ⟨c', hc', ⟨-, w, thread, hconn⟩ | hfed⟩ := hstep.conn_cases hrun hc
  · rcases (hwork.step (hrun.conn_coherent hc hwork.running) hconn).atWork with ⟨u', hwork'⟩ | hending | hfailure
    · exact .inl ⟨c', u', hc', hwork'⟩
    · exact .inr (.inr ⟨c', hc', hending⟩)
    · exact .inr (.inl hfailure)
  · exact .inl ⟨c', u, hc', hfed.crashed.trans hwork.running, hfed.trd2.trans hwork.trd2, hwork.tid, hwork.canRun,
      hwork.point⟩

/-- What a turn of the thread makes of its connection. -/
theorem turned_of_move {w : World} (hrun : Reached setup tasks trace s)
    (hmove : s.move setup (.thread id .consum w) = some (s', shown)) (hc : s.conns id = some c) (hwork : c.AtWork u) :
    ∃ c', s'.conns id = some c' ∧ s'.crashed = c'.crashed ∧ s'.processor = s.processor ∧
      LPushConn.Turned (s.env setup) w c (c', view id shown) := by
  rw [move] at hmove
  split at hmove
  · obtain ⟨c₀, c₁, effects, hc₀, hconn, hnext⟩ := threadStep_spec hmove
    obtain rfl := Option.some.inj (hc₀.symm.trans hc)
    obtain ⟨hconns, -, hcrashed, -, hprocessor⟩ := performAll_frame id
      { s with conns := Function.update s.conns id (some c₁), crashed := c₁.crashed } effects
    have hview := view_performAll_self id
      { s with conns := Function.update s.conns id (some c₁), crashed := c₁.crashed } effects
    rw [← hnext] at hconns hcrashed hprocessor hview
    unfold LPushConn.step at hconn
    rw [hwork.running, if_neg Bool.false_ne_true] at hconn
    refine ⟨c₁, ?_, hcrashed, hprocessor, ?_⟩
    · rw [hconns]
      exact Function.update_self ..
    · rw [hview]
      exact hwork.consum (hrun.conn_coherent hc hwork.running) hconn
  · cases hmove

/-- A turn takes the first message, if there is one. -/
theorem takes_of_move {w : World} (hrun : Reached setup tasks trace s)
    (hmove : s.move setup (.thread id .consum w) = some (s', shown)) (hc : s.conns id = some c) (hwork : c.AtWork u)
    (hc' : s'.conns id = some c') (hwork' : c'.AtWork u') : c.Takes c' := by
  obtain ⟨c₁, hc₁, -, -, hturned⟩ := turned_of_move hrun hmove hc hwork
  obtain rfl := Option.some.inj (hc₁.symm.trans hc')
  cases hturned with
  | took u htakes hwork => exact htakes
  | unwritten e hwrite hfailure hnot => exact (hnot u' hwork').elim
  | died work rest hwaiting hchunk hcrashed => cases hcrashed.symm.trans hwork'.running

theorem Reached.balance (hrun : Reached setup tasks trace s) (hc : s.conns id = some c) (hwork : c.AtWork u) :
    (pushed (view id trace)).length =
      (delivered (view id trace)).length + c.pushing.toList.length + c.waiting.length :=
  hwork.balance (hrun.conn_coherent hc hwork.running)

/-- What a stretch with `k` turns comes to: how many messages have left the queue and how many have been
delivered, where `p` were pushed and `d` delivered before it. -/
structure Advanced (id p d k : Nat) (trace : List Observation) (s : Server) : Prop where
  pushed_le : p ≤ (pushed (view id trace)).length
  taken : ∀ c, s.conns id = some c → c.waiting.length + min (d + k) p ≤ (pushed (view id trace)).length
  given : min (d + k) (p + 1) ≤ (delivered (view id trace)).length + 1

theorem Advanced.turn {p d : Nat} {more : List Observation} (h : Advanced id p d k trace s)
    (hrun : Reached setup tasks (trace ++ more) s') (hc : s.conns id = some c) (hc' : s'.conns id = some c')
    (hwork' : c'.AtWork u') (htakes : c.Takes c') : Advanced id p d (k + 1) (trace ++ more) s' := by
  have hmore : (pushed (view id trace)).length ≤ (pushed (view id (trace ++ more))).length := by
    rw [view_append, pushed_append, List.length_append]
    exact Nat.le_add_right _ _
  have hpushed := h.pushed_le
  have htaken := h.taken c hc
  have hbalance := hrun.balance hc' hwork'
  rcases htakes with ⟨hbefore, hafter, hpushing⟩ | ⟨work, chunk, hbefore, hpushing⟩
  · rw [hpushing, hafter] at hbalance
    simp only [Option.toList_none, List.length_nil, Nat.add_zero] at hbalance
    refine ⟨by omega, fun c'' hc'' => ?_, by omega⟩
    obtain rfl := Option.some.inj (hc'.symm.trans hc'')
    rw [hafter, List.length_nil]
    omega
  · rw [hpushing] at hbalance
    simp only [Option.toList_some, List.length_singleton] at hbalance
    rw [hbefore, List.length_cons] at htaken
    refine ⟨by omega, fun c'' hc'' => ?_, by omega⟩
    obtain rfl := Option.some.inj (hc'.symm.trans hc'')
    omega

theorem Advanced.other {p d : Nat} {more : List Observation} (h : Advanced id p d k trace s)
    (hle : ∀ c', s'.conns id = some c' → ∃ c, s.conns id = some c ∧
      c'.waiting.length ≤ c.waiting.length + (pushed (view id more)).length) :
    Advanced id p d k (trace ++ more) s' := by
  have hmore : (pushed (view id (trace ++ more))).length =
      (pushed (view id trace)).length + (pushed (view id more)).length := by
    rw [view_append, pushed_append, List.length_append]
  have hgiven : (delivered (view id trace)).length ≤ (delivered (view id (trace ++ more))).length := by
    rw [view_append, delivered, delivered, List.filterMap_append, List.length_append]
    exact Nat.le_add_right _ _
  have hpushed := h.pushed_le
  have hdelivered := h.given
  refine ⟨by omega, fun c' hc' => ?_, by omega⟩
  obtain ⟨c, hc, hwaiting⟩ := hle c' hc'
  have htaken := h.taken c hc
  omega

theorem Stretch.atWork (h : Stretch setup id s k shown s') : s'.AtWork id := by
  cases h with
  | begins hwork | turn _ _ _ hwork | other _ _ hwork => exact hwork

/-- Every turn brings the messages that had been pushed before one further. -/
theorem Stretch.advanced (h : Stretch setup id s k shown s') (hrun : Reached setup tasks trace s) :
    Reached setup tasks (trace ++ shown) s' ∧
      Advanced id (pushed (view id trace)).length (delivered (view id trace)).length k (trace ++ shown) s' := by
  induction h with
  | begins hwork =>
      obtain ⟨c, u, hc, hwork⟩ := hwork
      have hbalance := hrun.balance hc hwork
      rw [List.append_nil]
      refine ⟨hrun, le_rfl, fun c' hc' => ?_, by omega⟩
      obtain rfl := Option.some.inj (hc.symm.trans hc')
      omega
  | @turn k shown more s₁ s₂ w hbefore hmove hwork' ih =>
      obtain ⟨hrun₁, hadvanced⟩ := ih
      obtain ⟨c, u, hc, hwork⟩ := hbefore.atWork
      obtain ⟨c', u', hc', hwork'⟩ := hwork'
      have hrun₂ := hrun₁.next (hrun₁.step_of_move hmove)
      rw [← List.append_assoc]
      exact ⟨hrun₂, hadvanced.turn hrun₂ hc hc' hwork' (takes_of_move hrun₁ hmove hc hwork hc' hwork')⟩
  | @other k shown more s₁ s₂ hbefore hstep hwork' ih =>
      obtain ⟨hrun₁, hadvanced⟩ := ih
      obtain ⟨c, u, hc, hwork⟩ := hbefore.atWork
      obtain ⟨c₂, u', hc₂, hwork'⟩ := hwork'
      rw [← List.append_assoc]
      refine ⟨hrun₁.next hstep, hadvanced.other fun c' hc' => ⟨c, hc, ?_⟩⟩
      obtain rfl := Option.some.inj (hc₂.symm.trans hc')
      exact hstep.length_waiting_le hrun₁ hc hwork hc' hwork'

/-- A turn is enough for each message in front, and one more to begin with. -/
theorem Stretch.delivered (h : Stretch setup id s k shown s') (hrun : Reached setup tasks trace s)
    (hn : n ≤ (pushed (view id trace)).length) (hk : n < (delivered (view id trace)).length + k) :
    (pushed (view id trace)).take n <+: delivered (view id (trace ++ shown)) := by
  obtain ⟨hrun', hadvanced⟩ := h.advanced hrun
  obtain ⟨c', u', hc', -⟩ := h.atWork
  have hgiven := hadvanced.given
  have hprefix : LinkedonPush.delivered (view id (trace ++ shown)) <+: pushed (view id (trace ++ shown)) :=
    (LPushConn.history_proper (hrun'.history hc')).1.prefix_delivered
  have hearlier : (pushed (view id trace)).take n <+: pushed (view id (trace ++ shown)) := by
    rw [view_append, pushed_append]
    exact (List.take_prefix n _).trans (List.prefix_append _ _)
  apply List.prefix_of_prefix_length_le hearlier hprefix
  rw [List.length_take]
  omega

/-- There is always an address that no entry of the loader's queue has. -/
theorem exists_address (history : List (Nat × MongoIOEntity)) : ∃ address, ∀ entry ∈ history, entry.1 < address := by
  induction history with
  | nil => exact ⟨0, fun _ h => (List.not_mem_nil h).elim⟩
  | cons first history ih =>
      obtain ⟨address, hbelow⟩ := ih
      refine ⟨max address (first.1 + 1), List.forall_mem_cons.mpr ⟨by omega, fun entry hentry => ?_⟩⟩
      have hlt := hbelow entry hentry
      omega

/-- A stretch of any number of turns can begin where the processor is free. -/
theorem exists_stretch (hrun : Reached setup tasks trace s) (hrunning : s.crashed = false)
    (hfree : s.processor = .free) (hc : s.conns id = some c) (hwork : c.AtWork u)
    (hfits : ∀ work ∈ c.waiting, (work.toJsonString setup.platform).length < 2 ^ 31 - 5) (k : Nat) :
    ∃ shown s' c' u', Stretch setup id s k shown s' ∧ s'.crashed = false ∧ s'.processor = .free ∧
      s'.conns id = some c' ∧ c'.AtWork u' ∧ c'.waiting ⊆ c.waiting := by
  induction k with
  | zero => exact ⟨[], s, c, u, .begins ⟨c, u, hc, hwork⟩, hrunning, hfree, hc, hwork, fun _ h => h⟩
  | succ k ih =>
      obtain ⟨shown, s₁, c₁, u₁, hstretch, hrunning₁, hfree₁, hc₁, hwork₁, hsubset⟩ := ih
      have hrun₁ := (hstretch.advanced hrun).1
      obtain ⟨address, hbelow⟩ := exists_address s₁.history
      have haddress : ∀ entry ∈ s₁.history, entry.1 ≠ address := fun entry hentry => (hbelow entry hentry).ne
      obtain ⟨p, hconsum⟩ := hwork₁.exists_consum (s₁.env setup) (calm address)
      have hstep : c₁.step (s₁.env setup) (calm address) .consum = some p := by
        unfold LPushConn.step
        rw [hwork₁.running, if_neg Bool.false_ne_true]
        exact hconsum
      have hmove : s₁.move setup (.thread id .consum (calm address)) = some (performAll id
          { s₁ with conns := Function.update s₁.conns id (some p.1), crashed := p.1.crashed } p.2) := by
        rw [move, if_pos ⟨hrunning₁, hfree₁, haddress⟩, threadStep, hc₁]
        dsimp only
        rw [hstep]
      obtain ⟨c₂, hc₂, hcrashed, hprocessor, hturned⟩ := turned_of_move hrun₁ hmove hc₁ hwork₁
      cases hturned with
      | took u₂ htakes hwork₂ =>
          exact ⟨_, _, c₂, u₂, hstretch.turn _ hmove ⟨c₂, u₂, hc₂, hwork₂⟩, hcrashed.trans hwork₂.running,
            hprocessor.trans hfree₁, hc₂, hwork₂, fun _ h => hsubset (htakes.subset h)⟩
      | unwritten e hwrite hfailure hnot => cases hwrite
      | died work rest hwaiting hchunk hdied =>
          have hmem : work ∈ c₁.waiting := by
            rw [hwaiting]
            exact List.mem_cons_self
          obtain ⟨chunk, hsome, -⟩ := sendForward_spec (calm address).now (hfits work (hsubset hmem))
          cases hchunk.symm.trans hsome

/-! ### Nobody waits for long -/

/-- What the messages of a connection at work can rely on. -/
structure ServedInTurn (setup : Setup) (id : Nat) (trace : List Observation) (s : Server) : Prop where
  /-- So many turns are enough for so many messages. -/
  delivered : ∀ k shown s', Stretch setup id s k shown s' → ∀ n, n ≤ (pushed (view id trace)).length →
    n < (delivered (view id trace)).length + k →
      (pushed (view id trace)).take n <+: delivered (view id (trace ++ shown))
  /-- The thread waits for nothing but the processor. -/
  turns : s.crashed = false → s.processor = .free →
    (∀ c, s.conns id = some c → ∀ work ∈ c.waiting, (work.toJsonString setup.platform).length < 2 ^ 31 - 5) →
      ∀ k, ∃ shown s', Stretch setup id s k shown s'
  /-- Only a failed write, the end of the connection or of the process ends its work. -/
  stays : ∀ shown s', Step setup s shown s' → s'.AtWork id ∨ (view id shown).any Effect.pushFailure = true ∨
    ∃ c, s'.conns id = some c ∧ c.Ending

/-- **Messages are served in turn.** -/
theorem served_in_turn (hrun : Reached setup tasks trace s) (hwork : s.AtWork id) :
    ServedInTurn setup id trace s where
  delivered := fun _ _ _ hstretch _ hn hk => hstretch.delivered hrun hn hk
  turns := by
    intro hrunning hfree hfits k
    obtain ⟨c, u, hc, hcwork⟩ := hwork
    obtain ⟨shown, s', -, -, hstretch, -⟩ := exists_stretch hrun hrunning hfree hc hcwork (hfits c hc) k
    exact ⟨shown, s', hstretch⟩
  stays := fun _ _ hstep => hwork.stays hrun hstep

end stretch

/-! ### One message -/

/-- The thread is at work and has nothing to write. -/
def idles (c : LPushConn) : Bool :=
  match c.trd2 with
  | some ⟨trd, canRun, .sleeping⟩ => trd.tid && canRun && !c.crashed
  | _ => false

theorem atWork_of_idles {c : LPushConn} (h : idles c = true) : ∃ u, c.AtWork u := by
  unfold idles at h
  split at h
  · rename_i trd canRun htrd2
    simp only [Bool.and_eq_true, Bool.not_eq_true'] at h
    exact ⟨_, h.2, htrd2, h.1.1, h.1.2, .inl rfl⟩
  · cases h

/-- User 7 becomes active and a task is dispatched to it. -/
def dispatchesOnce : List Move :=
  enters 0 7 1 (opening userSeven) ++ activates 0 1 2 ++
    [.thread 0 .consum (calm 2), .rpush taskJson, .lrange, .ltrim]

/-- Two turns deliver it. -/
theorem served_in_turn_dispatchesOnce : ∃ trace s, Reached taskSetup [] trace s ∧ s.AtWork 0 ∧
    delivered (view 0 trace) = [] ∧ ∃ shown s', Stretch taskSetup 0 s 2 shown s' ∧
      [taskMessage] <+: delivered (view 0 (trace ++ shown)) := by
  obtain ⟨trace, s, hrun, hwanted⟩ := reached_of_play taskSetup [] dispatchesOnce
    (fun next => (next.1.conns 0).any (fun c => idles c && c.waiting == [taskMessage]) &&
      (!next.1.crashed && decide (next.1.processor = .free)) &&
      (pushed (view 0 next.2) == [taskMessage] && delivered (view 0 next.2) == [])) (by decide +kernel)
  simp only [Bool.and_eq_true, Bool.not_eq_true', decide_eq_true_eq, beq_iff_eq] at hwanted
  obtain ⟨⟨hconn, hrunning, hfree⟩, hpushed, hdelivered⟩ := hwanted
  obtain ⟨c, hc, hidles⟩ := (Option.any_eq_true _ _).mp hconn
  obtain ⟨hidle, hwaiting⟩ := Bool.and_eq_true_iff.mp hidles
  obtain ⟨u, hwork⟩ := atWork_of_idles hidle
  have hserved := served_in_turn hrun ⟨c, u, hc, hwork⟩
  have hfits : ∀ c', s.conns 0 = some c' → ∀ work ∈ c'.waiting,
      (work.toJsonString taskSetup.platform).length < 2 ^ 31 - 5 := by
    intro c' hc' work hmem
    obtain rfl := Option.some.inj (hc.symm.trans hc')
    rw [beq_iff_eq.mp hwaiting] at hmem
    rw [List.mem_singleton.mp hmem]
    exact transmissible_task.length
  obtain ⟨shown, s', hstretch⟩ := hserved.turns hrunning hfree hfits 2
  have hgiven := hserved.delivered 2 shown s' hstretch 1 (by rw [hpushed]; rfl) (by rw [hdelivered]; decide)
  rw [hpushed] at hgiven
  exact ⟨trace, s, hrun, ⟨c, u, hc, hwork⟩, hdelivered, shown, s', hstretch, hgiven⟩

end Server

end LinkedonPush
