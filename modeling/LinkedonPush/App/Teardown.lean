import LinkedonPush.App.Schedule
import LinkedonPush.App.Stages

/-!
# Teardown

The destructor of a connection stops at each helper thread while everything else goes on. A helper
thread that can still run finds every object it uses, and a lookup finds only clients that are
there.
-/

namespace LinkedonPush

open Theory

namespace LPushConn

/-- The objects that the helper threads use. -/
structure Equipped (c : LPushConn) : Prop where
  lpushProtocol : c.lpushProtocol.isSome = true
  client : c.client.isSome = true
  redisApp : c.redisApp.isSome = true
  redisPlatform : c.redisPlatform.isSome = true
  /-- The descriptor of `skt` is open. -/
  skt : c.point ≠ .closed

/-- The thread used no object that was not there. -/
def Unharmed (p : Progress) : Prop := .died .nullPointer ∉ p.2

section equipped

variable {conf : LPushConfig} {stfd : Nat} {c c' : LPushConn} {p : Progress} {effects : List Effect}

/-- From its registration to its end a connection has all its objects. -/
theorem Stage.equipped (h : Stage conf stfd c.point.phase c.record)
    (hactive : c.point.phase = .running ∨ c.point.phase = .leaving) : c.Equipped := by
  have hopen : c.point ≠ .closed := by
    intro hclosed
    rw [hclosed] at hactive
    rcases hactive with hphase | hphase <;> cases hphase
  have hrecord : ∀ msg address dispose,
      c.record = { Record.enrolled conf stfd msg with mie := some address, dispose := dispose } → c.Equipped := by
    intro msg address dispose hrecord
    have hprotocol : c.lpushProtocol.isSome = true := congrArg Record.protocol hrecord
    have hclient : c.client.map LPushClient.bare = some (.create stfd msg) := congrArg Record.client hrecord
    have happ := congrArg Record.redisApp hrecord
    have hplatform := congrArg Record.redisPlatform hrecord
    dsimp only [record, Record.enrolled, Record.registered] at happ hplatform
    refine ⟨hprotocol, ?_, by rw [happ]; rfl, by rw [hplatform]; rfl, hopen⟩
    rw [← Option.isSome_map, hclient, Option.isSome_some]
  generalize hphase : c.point.phase = phase at h hactive
  generalize hr : c.record = r at h
  cases h with
  | running msg address dispose => exact hrecord msg address dispose hr
  | leaving msg address dispose => exact hrecord msg address dispose hr
  | _ => rcases hactive with hactive | hactive <;> cases hactive

theorem Equipped.of_eq (h : c.Equipped) (happ : c'.redisApp = c.redisApp)
    (hplatform : c'.redisPlatform = c.redisPlatform) (hclient : c'.client.isSome = c.client.isSome)
    (hprotocol : c'.lpushProtocol.isSome = c.lpushProtocol.isSome) (hskt : c'.point ≠ .closed) : c'.Equipped where
  lpushProtocol := hprotocol.trans h.lpushProtocol
  client := hclient.trans h.client
  redisApp := by rw [happ]; exact h.redisApp
  redisPlatform := by rw [hplatform]; exact h.redisPlatform
  skt := hskt

/-- A helper thread deletes nothing. -/
theorem Equipped.asking (h : c.Equipped) (hasking : Asking c p) : p.1.Equipped := by
  have hrecord := hasking.record
  have hclient : p.1.client.map LPushClient.bare = c.client.map LPushClient.bare := congrArg Record.client hrecord
  have hprotocol : p.1.lpushProtocol.isSome = c.lpushProtocol.isSome := congrArg Record.protocol hrecord
  have happ : p.1.redisApp = c.redisApp := congrArg Record.redisApp hrecord
  have hplatform : p.1.redisPlatform = c.redisPlatform := congrArg Record.redisPlatform hrecord
  apply h.of_eq happ hplatform ?_ hprotocol
  · show p.1.point ≠ .closed
    intro hclosed
    have hphase := hasking.phase
    rw [hclosed] at hphase
    exact h.skt (CyclePoint.eq_closed hphase.symm)
  · rw [← Option.isSome_map, hclient, Option.isSome_map]

theorem Unharmed.after (h : Unharmed p) (heffects : ∀ e ∈ effects, e ≠ .died .nullPointer) :
    Unharmed (p.after effects) := by
  intro hmem
  rcases List.mem_append.mp hmem with hmem | hmem
  · exact heffects _ hmem rfl
  · exact h hmem

theorem Unharmed.after_singleton {e : Effect} (h : Unharmed p) (he : e ≠ .died .nullPointer) :
    Unharmed (p.after [e]) :=
  h.after (List.forall_mem_singleton.mpr he)

theorem unharmed_stop (c : LPushConn) : Unharmed (c, []) := List.not_mem_nil

theorem unharmed_die {fault : Fault} (h : fault ≠ .nullPointer) : Unharmed (c.die fault) := by
  intro hmem
  exact h (Effect.died.inj (List.mem_singleton.mp hmem)).symm

theorem OnlyRedis.unharmed (h : OnlyRedis effects) : ∀ e ∈ effects, e ≠ .died .nullPointer := by
  intro e he heq
  obtain ⟨command, rfl⟩ := h e he
  cases heq

theorem Equipped.doDispose (h : c.Equipped) : ∃ p, c.doDispose = some p := by
  obtain ⟨redisApp, happ⟩ := Option.isSome_iff_exists.mp h.redisApp
  obtain ⟨redisPlatform, hplatform⟩ := Option.isSome_iff_exists.mp h.redisPlatform
  simp only [LPushConn.doDispose, happ, hplatform]
  exact ⟨_, rfl⟩

theorem Equipped.hreatbeat (h : c.Equipped) : ∃ effects, c.hreatbeat = some effects := by
  obtain ⟨redisApp, happ⟩ := Option.isSome_iff_exists.mp h.redisApp
  obtain ⟨redisPlatform, hplatform⟩ := Option.isSome_iff_exists.mp h.redisPlatform
  simp only [LPushConn.hreatbeat, happ, hplatform]
  exact ⟨_, rfl⟩

end equipped

/-! ### The helper threads -/

section helpers

variable {env : Env} {w : World} {c : LPushConn} {p : Progress}

/-- The handlers of a client frame. -/
theorem Equipped.forwardServer (h : c.Equipped) {beyond : Nat → UInt8} {message : LPushChunk} {fault : Fault}
    (hresult : LPushConn.forwardServer env beyond c message = .error fault) : fault ≠ .nullPointer := by
  obtain ⟨progress, hdispose⟩ := h.doDispose
  obtain ⟨effects, hbeat⟩ := h.hreatbeat
  unfold LPushConn.forwardServer at hresult
  cases hdispatch : dispatch env beyond c message with
  | ok result =>
      rw [hdispatch] at hresult
      cases hresult
  | error fault' =>
      rw [hdispatch] at hresult
      cases hresult
      unfold dispatch at hdispatch
      simp only [hdispose, hbeat] at hdispatch
      split at hdispatch
      · cases hdispatch
      · split at hdispatch
        · cases hdispatch
        · split at hdispatch
          · split at hdispatch
            · cases hdispatch
              exact Fault.noConfusion
            · cases hdispatch
          · cases hdispatch

theorem Equipped.rests {stopped : LPushConn → LPushConn → Prop} (h : c.Equipped) (hrests : Rests stopped c p) :
    Unharmed p := by
  cases hrests with
  | stops hstopped => exact unharmed_stop _
  | disposes hdispose hstopped => exact (unharmed_stop _).after (doDispose_spec hdispose).2.unharmed
  | undisposed hdispose =>
      obtain ⟨progress, hsome⟩ := h.doDispose
      cases hdispose.symm.trans hsome

theorem Equipped.recv (h : c.Equipped) (hdone : RecvDone env w c p) : Unharmed p := by
  have hnext : ∀ b, ({ c with lpushProtocol := some b } : LPushConn).Equipped := fun _ =>
    h.of_eq rfl rfl rfl (by rw [h.lpushProtocol]; rfl) h.skt
  induction hdone with
  | rests hrests => exact h.rests hrests
  | received hdone ih => exact ih.after_singleton Effect.noConfusion
  | aborted => exact unharmed_die Fault.noConfusion
  | refused ret lpc b hrests => exact ((hnext b).rests hrests).after_singleton Effect.noConfusion
  | failed ret lpc b fault hresult =>
      have hdied := unharmed_die (c := { c with lpushProtocol := some b }) ((hnext b).forwardServer hresult)
      exact (hdied.after_singleton Effect.noConfusion).after_singleton Effect.noConfusion
  | @forwarded ret lpc b ret' c' effects p hresult hrests =>
      have hhandled := handled_forwardServer env w.beyond { c with lpushProtocol := some b } lpc
      rw [hresult] at hhandled
      have hc' : c'.Equipped := (hnext b).asking (asking_forwardServer hresult)
      have heffects : ∀ e ∈ effects ++ [.forwardReturned ret'], e ≠ .died .nullPointer := by
        rw [List.forall_mem_append, List.forall_mem_singleton]
        exact ⟨OnlyRedis.unharmed hhandled.2, Effect.noConfusion⟩
      exact (((hc'.rests hrests).after heffects).after_singleton Effect.noConfusion).after_singleton
        Effect.noConfusion

theorem Equipped.consum (h : c.Equipped) (hdone : ConsumDone env w c p) : Unharmed p := by
  induction hdone with
  | rests hrests => exact h.rests hrests
  | wrote u work chunk ok htrd2 hpoint hdone ih => exact ih.after_singleton Effect.noConfusion
  | popped => exact unharmed_stop _
  | died fault hfault => exact unharmed_die hfault

/-- A helper thread belongs to a connection that has all its objects. -/
theorem Filed.equipped {conf : LPushConfig} {trace : List Effect} {d : Dialogue} (h : Filed conf trace c)
    (hcoherent : Coherent d c) (hthreads : c.trd.isSome = true ∨ c.trd2.isSome = true) : c.Equipped :=
  h.stage.equipped (hcoherent.active_of_threads hthreads)

/-- **What a step of a helper thread finds and leaves.** -/
theorem Filed.helper {conf : LPushConfig} {trace : List Effect} {d : Dialogue} {thread : ThreadName}
    (h : Filed conf trace c) (hcoherent : Coherent d c) (hthread : thread ≠ .cycle)
    (hstep : c.step env w thread = some p) : c.Equipped ∧ p.1.Equipped ∧ Unharmed p := by
  unfold step at hstep
  split at hstep
  · cases hstep
  · cases thread with
    | cycle => exact (hthread rfl).elim
    | recv =>
        have hequipped : c.Equipped := by
          refine h.equipped hcoherent (.inl ?_)
          by_contra hnone
          simp [LPushConn.recv, Option.not_isSome_iff_eq_none.mp hnone] at hstep
        have hasking := asking_recv hequipped.lpushProtocol (recv_done hstep)
        exact ⟨hequipped, hequipped.asking hasking, hequipped.recv (recv_done hstep)⟩
    | consum =>
        have hequipped : c.Equipped := by
          refine h.equipped hcoherent (.inr ?_)
          by_contra hnone
          simp [LPushConn.consum, Option.not_isSome_iff_eq_none.mp hnone] at hstep
        have hasking := asking_consum (consum_done hstep)
        exact ⟨hequipped, hequipped.asking hasking, hequipped.consum (consum_done hstep)⟩

end helpers

end LPushConn

namespace Server

/-- A client that was deleted is pushed to no more. -/
def PushesToTheLiving (before : List Observation) : Observation → Prop
  | .conn id (.queued _) => ∀ cstfd, .conn id (.deleteClient cstfd) ∉ before
  | _ => True

/-- What the destructors of the connections leave to the threads that still run. -/
structure TeardownSafe (setup : Setup) (trace : List Observation) (s : Server) : Prop where
  /-- The recv and consum threads, wherever they are. -/
  helpers : ∀ id c thread w p, s.conns id = some c → thread ≠ .cycle →
    c.step (s.env setup) w thread = some p → c.Equipped ∧ p.1.Equipped ∧ LPushConn.Unharmed p
  /-- A lookup by `cycle_all` or by the loader. -/
  lookups : ∀ userId appId screteKey id, s.sourceInstance userId appId screteKey = some id →
    ∃ c, s.conns id = some c ∧ c.client.isSome = true ∧ c.point ≠ .closed
  pushes : Throughout PushesToTheLiving trace

section teardown

variable {setup : Setup} {tasks : List Bytes} {trace shown : List Observation} {s s' : Server}

/-- Whose client was deleted has none. -/
def Mourned (trace : List Observation) (s : Server) : Prop :=
  ∀ id cstfd c, .conn id (.deleteClient cstfd) ∈ trace → s.conns id = some c → c.client = none

theorem Reached.mourned (hrun : Reached setup tasks trace s) : Mourned trace s := by
  intro id cstfd c hmem hc
  have hdeleted : .deleteClient cstfd ∈ LPushConn.registrations (view id trace) :=
    List.mem_filter.mpr ⟨mem_view.mpr hmem, rfl⟩
  cases (LPushConn.history_vetted (hrun.history hc)).standing with
  | unknown hclient => exact hclient
  | known msg client _ _ _ _ _ htrace =>
      rw [htrace] at hdeleted
      simp at hdeleted
  | forgotten _ hclient => exact hclient

/-- The pushes of `cycle_all` or of the loader. -/
theorem pushes_delivering {address : LPushWorkerMessage → Bytes × Bytes × Bytes} (hmourned : Mourned trace s)
    (hpast : Throughout PushesToTheLiving trace) (hrun : Run (· = s) (Delivering address) shown s') :
    Throughout PushesToTheLiving (trace ++ shown) := by
  refine (hrun.invariant (fun shown s' => Mourned (trace ++ shown) s' ∧
    Throughout PushesToTheLiving (trace ++ shown)) ?_ ?_).2
  · intro s' hs'
    rw [hs', List.append_nil]
    exact ⟨hmourned, hpast⟩
  · intro shown s' more s'' h hstep
    obtain ⟨hmourned, hpast⟩ := h
    rw [← List.append_assoc]
    cases hstep with
    | dispatched element =>
        refine ⟨fun id cstfd c hmem hc => ?_, throughout_append_singleton.mpr ⟨hpast, trivial⟩⟩
        exact hmourned id cstfd c (by simpa using hmem) hc
    | document json =>
        refine ⟨fun id cstfd c hmem hc => ?_, throughout_append_singleton.mpr ⟨hpast, trivial⟩⟩
        exact hmourned id cstfd c (by simpa using hmem) hc
    | queued id msg hinstance hpush =>
        obtain ⟨c, c', hc, hqueued, rfl⟩ := push_spec hpush
        obtain ⟨client, hclient, -⟩ := Option.map_eq_some_iff.mp hqueued
        have hliving : ∀ cstfd, .conn id (.deleteClient cstfd) ∉ trace ++ shown := by
          intro cstfd hmem
          cases (hmourned id cstfd c hmem hc).symm.trans hclient
        refine ⟨fun id' cstfd c'' hmem hc'' => ?_, throughout_append_singleton.mpr ⟨hpast, hliving⟩⟩
        have hmem' : .conn id' (.deleteClient cstfd) ∈ trace ++ shown := by simpa using hmem
        rcases update_eq_some.mp hc'' with ⟨rfl, -⟩ | ⟨-, hc''⟩
        · exact (hliving cstfd hmem').elim
        · exact hmourned id' cstfd c'' hmem' hc''

/-- A step that pushes nothing. -/
theorem pushes_aside (hpast : Throughout PushesToTheLiving trace)
    (hquiet : ∀ id msg, .conn id (.queued msg) ∉ shown) : Throughout PushesToTheLiving (trace ++ shown) := by
  refine throughout_append.mpr ⟨hpast, fun before o after hshown => ?_⟩
  have hmem : o ∈ shown := by
    rw [hshown]
    exact List.mem_append_right _ List.mem_cons_self
  cases o with
  | conn id e =>
      cases e with
      | queued msg => exact (hquiet id msg hmem).elim
      | _ => trivial
  | _ => trivial

theorem Reached.pushes (hrun : Reached setup tasks trace s) : Throughout PushesToTheLiving trace := by
  induction hrun with
  | start hinit => exact throughout_nil
  | next hbefore hstep ih =>
      have hbefore : Reached setup tasks _ _ := hbefore
      cases hstep with
      | thread id thread w hrunning hfree haddress hthread =>
          obtain ⟨c, c', effects, hc, hstep, rfl⟩ := threadStep_spec hthread
          have hcoherent := hbefore.coherent hc hstep
          refine pushes_aside ih fun id' msg hmem => ?_
          exact (LPushConn.outcome_step hcoherent hstep).not_queued msg (mem_of_conn_mem_performAll _ _ hmem).2
      | accept stfd beyond fcntl created hrunning hfree hfd =>
          refine pushes_aside ih fun id msg hmem => ?_
          rcases acceptClient_spec setup.conf stfd beyond fcntl created _ with hsame | ⟨c, -, haccepted⟩
          · rw [hsame] at hmem
            exact List.not_mem_nil hmem
          · rw [haccepted] at hmem
            cases List.mem_singleton.mp hmem
      | rpush element hrunning => exact pushes_aside ih fun id msg hmem => by simp at hmem
      | lrange hrunning hfree hcycle =>
          obtain ⟨⟨s', index, shown⟩, hdispatch, rfl⟩ := Option.map_eq_some_iff.mp hcycle
          exact pushes_delivering hbefore.mourned ih (dispatchAll_run hdispatch)
      | ltrim index hrunning hcycling => exact pushes_aside ih fun id msg hmem => by simp [ltrim] at hmem
      | request address mie rest hrunning hfree hhistory => exact pushes_aside ih fun id msg hmem => by simp at hmem
      | page mie result hrunning hloading hpage =>
          exact pushes_delivering hbefore.mourned ih (selectMongoHistoryLimit_run hpage)
      | loaded mie hrunning hloading => exact pushes_aside ih fun id msg hmem => List.not_mem_nil hmem

/-- **Nothing that a destructor deleted is used again.** -/
theorem teardown_safe (hrun : Reached setup tasks trace s) : TeardownSafe setup trace s where
  helpers := by
    intro id c thread w p hc hthread hstep
    exact (hrun.filed hc).helper (hrun.coherent hc hstep) hthread hstep
  lookups := by
    intro userId appId screteKey id hfound
    obtain ⟨c, client, hc, hclient, -⟩ := (hrun.clients_iff _ id).mp hfound
    refine ⟨c, hc, by rw [hclient, Option.isSome_some], fun hclosed => ?_⟩
    cases (hrun.client_of_closed hc hclosed).symm.trans hclient
  pushes := hrun.pushes

end teardown

/-- A connection is deleted while its helper threads and the main loop go on. -/
def hangsUp : List Move :=
  enters 0 7 5 (opening userSeven) ++ activates 0 5 1 ++
    [.thread 0 .recv (calm 1), .thread 0 .cycle (calm 1), .rpush [], .lrange, .ltrim,
      .thread 0 .consum (calm 1)]

/-- The destructor waits for the consum thread, which finds all objects. -/
theorem teardown_safe_joining : ∃ trace s, Reached (visitorSetup [userSeven]) [] trace s ∧
    (s.conns 0).map (fun c => c.point.phase) = some .leaving ∧ TeardownSafe (visitorSetup [userSeven]) trace s := by
  obtain ⟨trace, s, hrun, hwanted⟩ := reached_of_play (visitorSetup [userSeven]) [] hangsUp
    (fun next => (next.1.conns 0).map (fun c => c.point.phase) = some .leaving) (by decide +kernel)
  exact ⟨trace, s, hrun, of_decide_eq_true hwanted, teardown_safe hrun⟩

end Server

end LinkedonPush
