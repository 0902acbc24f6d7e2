import LinkedonPush.App.Server
import LinkedonPush.Theory.Index

/-!
# What one connection sees of a run

The run of a server shows the effects of all its connections. Those of one connection, in order, are
a history of that connection: the server adds nothing to what a connection may do.
-/

namespace LinkedonPush

open Theory

namespace Server

/-- The effect of connection `id`. -/
def Observation.effect? (id : Nat) : Observation → Option Effect
  | .conn id' effect => if id' = id then some effect else none
  | _ => none

/-- The effects of connection `id`. -/
def view (id : Nat) (trace : List Observation) : List Effect := trace.filterMap (Observation.effect? id)

section view

variable {id id' : Nat} {e : Effect}

@[simp] theorem view_append (id : Nat) (trace shown : List Observation) :
    view id (trace ++ shown) = view id trace ++ view id shown :=
  List.filterMap_append

@[simp] theorem view_conn_self (id : Nat) (e : Effect) (shown : List Observation) :
    view id (.conn id e :: shown) = e :: view id shown := by
  simp [view, Observation.effect?]

theorem view_conn_ne (h : id' ≠ id) (shown : List Observation) :
    view id (.conn id' e :: shown) = view id shown := by
  simp [view, Observation.effect?, h]

theorem mem_view {trace : List Observation} : e ∈ view id trace ↔ .conn id e ∈ trace := by
  simp only [view, List.mem_filterMap]
  constructor
  · rintro ⟨o, ho, heffect⟩
    cases o with
    | conn id' e' =>
        simp only [Observation.effect?, Option.ite_none_right_eq_some, Option.some.injEq] at heffect
        obtain ⟨rfl, rfl⟩ := heffect
        exact ho
    | _ => cases heffect
  · intro h
    exact ⟨_, h, by simp [Observation.effect?]⟩

end view

/-! ### The effects of a thread -/

section performAll

variable (id : Nat) (s : Server)

theorem perform_frame (e : Effect) : (perform id s e).1.conns = s.conns ∧
    (perform id s e).1.accepted = s.accepted ∧ (perform id s e).1.crashed = s.crashed ∧
      (perform id s e).1.tasks = s.tasks ∧ (perform id s e).1.processor = s.processor := by
  cases e with
  | deleteClient cstfd =>
      simp only [perform]
      cases s.sources cstfd <;> exact ⟨rfl, rfl, rfl, rfl, rfl⟩
  | _ => exact ⟨rfl, rfl, rfl, rfl, rfl⟩

theorem performAll_frame (effects : List Effect) : (performAll id s effects).1.conns = s.conns ∧
    (performAll id s effects).1.accepted = s.accepted ∧ (performAll id s effects).1.crashed = s.crashed ∧
      (performAll id s effects).1.tasks = s.tasks ∧ (performAll id s effects).1.processor = s.processor := by
  induction effects generalizing s with
  | nil => exact ⟨rfl, rfl, rfl, rfl, rfl⟩
  | cons e effects ih =>
      obtain ⟨hconns, haccepted, hcrashed, htasks, hprocessor⟩ := ih (perform id s e).1
      obtain ⟨hconns', haccepted', hcrashed', htasks', hprocessor'⟩ := perform_frame id s e
      exact ⟨hconns.trans hconns', haccepted.trans haccepted', hcrashed.trans hcrashed',
        htasks.trans htasks', hprocessor.trans hprocessor'⟩

/-- An effect shows no effect of its own. -/
theorem view_perform (id' : Nat) (e : Effect) : view id' (perform id s e).2 = [] := by
  cases e with
  | deleteClient cstfd =>
      simp only [perform]
      cases s.sources cstfd <;> rfl
  | _ => rfl

theorem view_performAll_self (effects : List Effect) : view id (performAll id s effects).2 = effects := by
  induction effects generalizing s with
  | nil => rfl
  | cons e effects ih =>
      simp only [performAll, List.cons_append, view_conn_self, view_append, view_perform, ih, List.nil_append]

theorem view_performAll_ne {id' : Nat} (h : id ≠ id') (effects : List Effect) :
    view id' (performAll id s effects).2 = [] := by
  induction effects generalizing s with
  | nil => rfl
  | cons e effects ih =>
      simp only [performAll, List.cons_append, view_conn_ne h, view_append, view_perform, ih, List.nil_append]

/-- What is shown are the effects themselves, and the sources they delete. -/
theorem mem_performAll {effects : List Effect} {o : Observation} (h : o ∈ (performAll id s effects).2) :
    (∃ e ∈ effects, o = .conn id e) ∨ ∃ source, o = .sourceDeleted source := by
  induction effects generalizing s with
  | nil => exact (List.not_mem_nil h).elim
  | cons e effects ih =>
      simp only [performAll, List.cons_append, List.mem_cons, List.mem_append] at h
      rcases h with rfl | hperform | hmore
      · exact .inl ⟨e, List.mem_cons_self, rfl⟩
      · cases e with
        | deleteClient cstfd =>
            simp only [perform] at hperform
            split at hperform
            · exact (List.not_mem_nil hperform).elim
            · exact .inr ⟨_, List.mem_singleton.mp hperform⟩
        | _ => exact (List.not_mem_nil hperform).elim
      · rcases ih _ hmore with ⟨e', he', rfl⟩ | hdeleted
        · exact .inl ⟨e', List.mem_cons_of_mem _ he', rfl⟩
        · exact .inr hdeleted

theorem mem_of_conn_mem_performAll {effects : List Effect} {id' : Nat} {e : Effect}
    (h : .conn id' e ∈ (performAll id s effects).2) : id' = id ∧ e ∈ effects := by
  rcases mem_performAll id s h with ⟨e', he', heq⟩ | ⟨source, heq⟩
  · obtain ⟨rfl, rfl⟩ := Observation.conn.inj heq
    exact ⟨rfl, he'⟩
  · cases heq

end performAll

/-! ### Pushes by the main loop and by the loader -/

/-- What `cycle_all` and the loader do step by step; `address` is the triple they look the client up
with. -/
inductive Delivering (address : LPushWorkerMessage → Bytes × Bytes × Bytes) :
    Server → List Observation → Server → Prop where
  | dispatched {s : Server} (element : Bytes) : Delivering address s [.dispatched element] s
  | document {s : Server} (json : Bytes) : Delivering address s [.document json] s
  | queued {s s' : Server} (id : Nat) (msg : LPushWorkerMessage)
      (hinstance : s.sourceInstance (address msg).1 (address msg).2.1 (address msg).2.2 = some id)
      (h : s.push id msg = some s') : Delivering address s [.conn id (.queued msg)] s'

/-- The triple a message names. -/
def addressee (msg : LPushWorkerMessage) : Bytes × Bytes × Bytes := (msg.userId, msg.appKey, msg.appSecret)

/-- The triple a request names. -/
def requester (mie : MongoIOEntity) : Bytes × Bytes × Bytes := (mie.userId, mie.appKey, mie.secreteKey)

section delivering

variable {address : LPushWorkerMessage → Bytes × Bytes × Bytes} {platform : Platform} {s s' : Server}
  {shown : List Observation} {id : Nat} {msg : LPushWorkerMessage}

theorem push_spec (h : s.push id msg = some s') : ∃ c c', s.conns id = some c ∧ c.push msg = some c' ∧
    s' = { s with conns := Function.update s.conns id (some c') } := by
  unfold push at h
  cases hc : s.conns id with
  | none =>
      rw [hc] at h
      cases h
  | some c =>
      rw [hc] at h
      obtain ⟨c', hpush, rfl⟩ := Option.map_eq_some_iff.mp h
      exact ⟨c, c', rfl, hpush, rfl⟩

theorem delivering_queued (element : Bytes)
    (hinstance : s.sourceInstance (address msg).1 (address msg).2.1 (address msg).2.2 = some id)
    (h : s.push id msg = some s') :
    Run (· = s) (Delivering address) [.dispatched element, .conn id (.queued msg)] s' := by
  have hdispatched : Delivering address s [.dispatched element] s := .dispatched element
  exact (Run.single hdispatched).append (Run.single (.queued id msg hinstance h))

theorem dispatchAll_run {index index' : Nat} {works : List Bytes}
    (h : dispatchAll platform s index works = some (s', index', shown)) :
    Run (· = s) (Delivering addressee) shown s' := by
  induction works generalizing s index shown with
  | nil =>
      cases h
      exact .start rfl
  | cons element works ih =>
      rw [dispatchAll] at h
      split at h
      · cases h
      · rename_i lwm hlwm
        split at h
        · split at h
          · cases h
          · rename_i hrest
            cases h
            exact (Run.single (.dispatched element)).append (ih hrest)
        · rename_i id hinstance
          split at h
          · cases h
          · rename_i hpush
            split at h
            · cases h
            · rename_i hrest
              cases h
              have hmsg : s.sourceInstance (addressee lwm).1 (addressee lwm).2.1 (addressee lwm).2.2 =
                some id := hinstance
              exact (delivering_queued element hmsg hpush).append (ih hrest)

theorem loadAll_run {platform : Platform} {target : Bytes × Bytes × Bytes} {result : List Bytes}
    (hinstance : s.sourceInstance target.1 target.2.1 target.2.2 = some id)
    (h : loadAll platform id s result = some (s', shown)) : Run (· = s) (Delivering fun _ => target) shown s' := by
  induction result generalizing s shown with
  | nil =>
      cases h
      exact .start rfl
  | cons json result ih =>
      rw [loadAll] at h
      split at h
      · cases h
      · rename_i lpwm hlpwm
        split at h
        · cases h
        · rename_i next hpush
          split at h
          · cases h
          · rename_i hrest
            cases h
            have hdocument : Delivering (fun _ => target) s [.document json] s := .document json
            have hqueued := (Run.single hdocument).append (Run.single (.queued id lpwm hinstance hpush))
            have hsame : next.sourceInstance target.1 target.2.1 target.2.2 = some id := by
              obtain ⟨c, c', -, -, rfl⟩ := push_spec hpush
              exact hinstance
            exact hqueued.append (ih hsame hrest)

theorem selectMongoHistoryLimit_run {platform : Platform} {mie : MongoIOEntity} {result : List Bytes}
    (h : selectMongoHistoryLimit platform mie result s = some (s', shown)) :
    Run (· = s) (Delivering fun _ => requester mie) shown s' := by
  unfold selectMongoHistoryLimit at h
  split at h
  · cases h
    exact .start rfl
  · rename_i id hinstance
    have htarget : s.sourceInstance (requester mie).1 (requester mie).2.1 (requester mie).2.2 = some id :=
      hinstance
    exact loadAll_run htarget h

/-- Pushes move the queues and nothing else of the server. -/
theorem delivering_frame (hrun : Run (· = s) (Delivering address) shown s') :
    s' = { s with conns := s'.conns } := by
  refine hrun.invariant_state (fun s' => s' = { s with conns := s'.conns }) ?_ ?_
  · rintro _ rfl
    rfl
  · intro s' shown s'' h hstep
    cases hstep with
    | queued id msg hinstance hpush =>
        obtain ⟨c, c', -, -, rfl⟩ := push_spec hpush
        rw [h]
    | _ => exact h

end delivering

/-! ### Histories -/

/-- What a connection of this server may see of it. -/
def Surroundings (setup : Setup) (env : Env) : Prop :=
  env.conf = setup.conf ∧ env.platform = setup.platform ∧ env.hashes = setup.hashes

/-- Every connection has its own history so far. -/
structure Projects (setup : Setup) (trace : List Observation) (s : Server) : Prop where
  history : ∀ id c, s.conns id = some c → LPushConn.History (Surroundings setup) (view id trace) c
  fresh : ∀ id, s.accepted ≤ id → s.conns id = none
  unseen : ∀ id, s.conns id = none → view id trace = []
  running : s.crashed = false → ∀ id c, s.conns id = some c → c.crashed = false

section projects

variable {setup : Setup} {tasks : List Bytes} {trace shown : List Observation} {s s' : Server}

/-- A step that leaves every connection alone. -/
theorem Projects.quiet (h : Projects setup trace s) (hview : ∀ id, view id shown = [])
    (hconns : s'.conns = s.conns) (haccepted : s'.accepted = s.accepted) (hcrashed : s'.crashed = s.crashed) :
    Projects setup (trace ++ shown) s' := by
  refine ⟨fun id c hc => ?_, fun id hid => ?_, fun id hid => ?_, fun hrunning id c hc => ?_⟩
  · rw [view_append, hview, List.append_nil]
    exact h.history id c (by rwa [← hconns])
  · rw [hconns]
    exact h.fresh id (by rwa [← haccepted])
  · rw [view_append, hview, List.append_nil]
    exact h.unseen id (by rwa [← hconns])
  · exact h.running (by rwa [← hcrashed]) id c (by rwa [← hconns])

/-- A step of connection `id` alone. -/
theorem Projects.moves {id : Nat} {c c' : LPushConn} {effects : List Effect} (h : Projects setup trace s)
    (hc : s.conns id = some c) (hstep : LPushConn.Step (Surroundings setup) c effects c')
    (hconns : s'.conns = Function.update s.conns id (some c')) (haccepted : s'.accepted = s.accepted)
    (hcrashed : s'.crashed = c'.crashed) (hrunning : s.crashed = false)
    (hself : view id shown = effects) (hother : ∀ id', id ≠ id' → view id' shown = []) :
    Projects setup (trace ++ shown) s' := by
  have hlt : id < s.accepted := by
    by_contra hge
    exact Option.some_ne_none c (hc.symm.trans (h.fresh id (not_lt.mp hge)))
  refine ⟨fun id' c'' hc'' => ?_, fun id' hid' => ?_, fun id' hid' => ?_, fun hrunning' id' c'' hc'' => ?_⟩
  · rw [hconns] at hc''
    rw [view_append]
    rcases update_eq_some.mp hc'' with ⟨rfl, rfl⟩ | ⟨hne, hc''⟩
    · rw [hself]
      exact (h.history id' c hc).next hstep
    · rw [hother id' (Ne.symm hne), List.append_nil]
      exact h.history id' c'' hc''
  · rw [hconns, update_eq_none]
    exact ⟨by omega, h.fresh id' (by omega)⟩
  · rw [hconns] at hid'
    obtain ⟨hne, hid'⟩ := update_eq_none.mp hid'
    rw [view_append, h.unseen id' hid', hother id' (Ne.symm hne), List.append_nil]
  · rw [hconns] at hc''
    rcases update_eq_some.mp hc'' with ⟨-, rfl⟩ | ⟨-, hc''⟩
    · rw [← hcrashed]
      exact hrunning'
    · exact h.running hrunning id' c'' hc''

/-- A client is turned away, or a connection for it enters the table. -/
theorem acceptClient_spec (conf : LPushConfig) (stfd : Nat) (beyond : Bytes) (fcntl created : Bool) (s : Server) :
    acceptClient conf stfd beyond fcntl created s = (s, []) ∨
      ∃ c, (c = .create stfd beyond ∨ c = { LPushConn.create stfd beyond with point := .unstarted }) ∧
        acceptClient conf stfd beyond fcntl created s =
          ({ s with
              conns := Function.update s.conns s.accepted (some c)
              accepted := s.accepted + 1
              table := s.table ++ [s.accepted] },
            [.accepted s.accepted]) := by
  unfold acceptClient
  split
  · exact .inl rfl
  · split
    · exact .inl rfl
    · cases created with
      | true => exact .inr ⟨.create stfd beyond, .inl rfl, rfl⟩
      | false => exact .inr ⟨{ LPushConn.create stfd beyond with point := .unstarted }, .inr rfl, rfl⟩

theorem Projects.accept (h : Projects setup trace s) (stfd : Nat) (beyond : Bytes) (fcntl created : Bool) :
    Projects setup (trace ++ (acceptClient setup.conf stfd beyond fcntl created s).2)
      (acceptClient setup.conf stfd beyond fcntl created s).1 := by
  rcases acceptClient_spec setup.conf stfd beyond fcntl created s with hsame | ⟨c, hnew, haccepted⟩
  · rw [hsame]
    exact h.quiet (fun _ => rfl) rfl rfl rfl
  · rw [haccepted]
    have hview : ∀ id, view id [Observation.accepted s.accepted] = [] := fun _ => rfl
    have hrunning' : c.crashed = false := by rcases hnew with rfl | rfl <;> rfl
    refine ⟨fun id c' hc' => ?_, fun id hid => ?_, fun id hid => ?_, fun hrunning id c' hc' => ?_⟩
    · rw [view_append, hview, List.append_nil]
      rcases update_eq_some.mp hc' with ⟨rfl, rfl⟩ | ⟨-, hc'⟩
      · rw [h.unseen s.accepted (h.fresh s.accepted le_rfl)]
        exact .start ⟨stfd, beyond, hnew⟩
      · exact h.history id c' hc'
    · have hlt : s.accepted < id := hid
      exact update_eq_none.mpr ⟨by omega, h.fresh id (by omega)⟩
    · rw [view_append, hview, List.append_nil]
      exact h.unseen id (update_eq_none.mp hid).2
    · rcases update_eq_some.mp hc' with ⟨-, rfl⟩ | ⟨-, hc'⟩
      · exact hrunning'
      · exact h.running hrunning id c' hc'

theorem Projects.delivered {address : LPushWorkerMessage → Bytes × Bytes × Bytes}
    (h : Projects setup trace s) (hrunning : s.crashed = false)
    (hrun : Run (· = s) (Delivering address) shown s') :
    Projects setup (trace ++ shown) s' := by
  have hboth := hrun.invariant
    (fun shown s' => Projects setup (trace ++ shown) s' ∧ s'.crashed = false) ?_ ?_
  · exact hboth.1
  · rintro _ rfl
    rw [List.append_nil]
    exact ⟨h, hrunning⟩
  · rintro shown s' more s'' ⟨hprojects, hrunning⟩ hstep
    rw [← List.append_assoc]
    cases hstep with
    | dispatched element => exact ⟨hprojects.quiet (fun _ => rfl) rfl rfl rfl, hrunning⟩
    | document json => exact ⟨hprojects.quiet (fun _ => rfl) rfl rfl rfl, hrunning⟩
    | queued id msg hinstance hpush =>
        obtain ⟨c, c', hc, hqueued, rfl⟩ := push_spec hpush
        have hc' : c'.crashed = false := by
          obtain ⟨client, -, rfl⟩ := Option.map_eq_some_iff.mp hqueued
          exact hprojects.running hrunning id c hc
        refine ⟨hprojects.moves hc (.queued msg (hprojects.running hrunning id c hc) hqueued) rfl rfl ?_
          hrunning (view_conn_self id _ []) fun id' hne => view_conn_ne hne [], hrunning⟩
        rw [hc']
        exact hrunning

/-- What a thread step is made of. -/
theorem threadStep_spec {id : Nat} {thread : LPushConn.ThreadName} {w : World}
    {next : Server × List Observation} (h : threadStep setup id thread w s = some next) :
    ∃ c c' effects, s.conns id = some c ∧ c.step (s.env setup) w thread = some (c', effects) ∧
      next = performAll id
        { s with conns := Function.update s.conns id (some c'), crashed := c'.crashed } effects := by
  unfold threadStep at h
  cases hc : s.conns id with
  | none =>
      rw [hc] at h
      cases h
  | some c =>
      simp only [hc] at h
      cases hstep : c.step (s.env setup) w thread with
      | none =>
          rw [hstep] at h
          cases h
      | some progress =>
          rw [hstep] at h
          exact ⟨c, progress.1, progress.2, rfl, hstep, (Option.some.inj h).symm⟩

theorem Projects.step (h : Projects setup trace s) (hstep : Step setup s shown s') :
    Projects setup (trace ++ shown) s' := by
  cases hstep with
  | thread id thread w hrunning hfree haddress hthread =>
      obtain ⟨c, c', effects, hc, hstep, rfl⟩ := threadStep_spec hthread
      obtain ⟨hconns, haccepted, hcrashed, -, -⟩ := performAll_frame id
        { s with conns := Function.update s.conns id (some c'), crashed := c'.crashed } effects
      exact h.moves hc (.thread (s.env setup) w thread ⟨rfl, rfl, rfl⟩ hstep) hconns haccepted hcrashed
        hrunning (view_performAll_self id _ effects) fun id' hne => view_performAll_ne id _ hne effects
  | accept stfd beyond fcntl created hrunning hfree hfd => exact h.accept stfd beyond fcntl created
  | rpush element hrunning => exact h.quiet (fun _ => rfl) rfl rfl rfl
  | lrange hrunning hfree hcycle =>
      obtain ⟨⟨s', index, shown⟩, hdispatch, rfl⟩ := Option.map_eq_some_iff.mp hcycle
      have hdelivered := h.delivered hrunning (dispatchAll_run hdispatch)
      exact ⟨hdelivered.history, hdelivered.fresh, hdelivered.unseen, hdelivered.running⟩
  | ltrim index hrunning hcycling => exact h.quiet (fun _ => rfl) rfl rfl rfl
  | request address mie rest hrunning hfree hhistory => exact h.quiet (fun _ => rfl) rfl rfl rfl
  | page mie result hrunning hloading hpage =>
      exact h.delivered hrunning (selectMongoHistoryLimit_run hpage)
  | loaded mie hrunning hloading => exact h.quiet (fun _ => rfl) rfl rfl rfl

theorem Reached.projects (hrun : Reached setup tasks trace s) : Projects setup trace s := by
  refine hrun.invariant (Projects setup) ?_ fun _ _ _ _ => Projects.step
  rintro _ rfl
  exact ⟨fun _ _ hc => (Option.some_ne_none _ hc.symm).elim, fun _ _ => rfl, fun _ _ => rfl,
    fun _ _ _ hc => (Option.some_ne_none _ hc.symm).elim⟩

/-- **Every connection of a run has a history of its own.** -/
theorem Reached.history (hrun : Reached setup tasks trace s) {id : Nat} {c : LPushConn}
    (hc : s.conns id = some c) : LPushConn.History (Surroundings setup) (view id trace) c :=
  hrun.projects.history id c hc

end projects

end Server

end LinkedonPush
