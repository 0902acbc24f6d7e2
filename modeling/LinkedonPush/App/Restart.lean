import LinkedonPush.App.Arrival
import LinkedonPush.App.Containment
import LinkedonPush.App.Dispatch
import LinkedonPush.Theory.Lives

/-!
# Restarts

The process may be killed at any moment and started again. What it keeps in memory is lost with it;
the Redis list it reads is not. Between the LRANGE of a pass and its LTRIM no other thread runs, so
what an unfinished pass has queued is not delivered, and the next process dispatches it again.
-/

namespace LinkedonPush

open Theory

namespace Server

/-- What an observation says about an effect of some connection. -/
def Observation.of? {β : Type} (f : Effect → Option β) : Observation → Option (Nat × β)
  | .conn id e => (f e).map fun b => (id, b)
  | _ => none

/-- The message of a push frame that was written. -/
def Observation.delivered? (o : Observation) : Option LPushWorkerMessage := (o.of? Effect.delivered?).map Prod.snd

def Observation.queued? (o : Observation) : Option LPushWorkerMessage := (o.of? Effect.pushed?).map Prod.snd

/-- The message of a document of the history. -/
def Observation.document? (platform : Platform) : Observation → Option LPushWorkerMessage
  | .document json => LPushWorkerMessage.ofBson platform json
  | _ => none

/-- The message of an element of the list. -/
def message? (platform : Platform) (element : Bytes) : Option LPushWorkerMessage :=
  LPushWorkerMessage.ofJson platform (cStr element)

/-- The message that an observation is about to queue. -/
def Observation.owed? (platform : Platform) : Observation → Option LPushWorkerMessage
  | .dispatched element => message? platform element
  | .document json => LPushWorkerMessage.ofBson platform json
  | _ => none

/-- The server as a consumer of the list under its task key. -/
def service (setup : Setup) : Consumer Server Observation Bytes LPushWorkerMessage where
  start := initial
  step := Step setup
  queue := tasks
  adds? := Observation.pushed?
  removes := fun o => o.trimmed?.getD 0
  does? := Observation.delivered?

section owed

variable {setup : Setup} {found : List Bytes} {trace shown : List Observation} {s s' : Server} {platform : Platform}

theorem sum_removes (setup : Setup) (trace : List Observation) :
    (trace.map (service setup).removes).sum = trimmed trace := by
  induction trace with
  | nil => rfl
  | cons o trace ih =>
      have hcons : trimmed (o :: trace) = o.trimmed?.toList.sum + trimmed trace := by
        rw [trimmed, filterMap_cons_toList, List.sum_append]
        rfl
      rw [List.map_cons, List.sum_cons, ih, hcons]
      cases o <;> rfl

/-! ### Deliveries -/

/-- One connection's share of what all of them show. -/
theorem count_of {β : Type} [DecidableEq β] (f : Effect → Option β) (trace : List Observation) (id : Nat) (b : β) :
    (trace.filterMap (Observation.of? f)).count (id, b) = ((view id trace).filterMap f).count b := by
  induction trace with
  | nil => rfl
  | cons o trace ih =>
      rw [filterMap_cons_toList, List.count_append, ih]
      cases o with
      | conn id' e =>
          by_cases hid : id' = id
          · subst hid
            rw [view_conn_self, filterMap_cons_toList, List.count_append]
            congr 1
            cases hf : f e <;> simp [Observation.of?, hf, List.count_singleton]
          · rw [view_conn_ne hid]
            cases hf : f e <;> simp [Observation.of?, hf, hid]
      | _ => exact Nat.zero_add _

/-- Every delivery is owed to a push of its own. -/
theorem Reached.delivered_subperm (hrun : Reached setup found trace s) :
    (trace.filterMap Observation.delivered?).Subperm (trace.filterMap Observation.queued?) := by
  have hpairs : (trace.filterMap (Observation.of? Effect.delivered?)).Subperm
      (trace.filterMap (Observation.of? Effect.pushed?)) := by
    rw [List.subperm_ext_iff]
    intro pair _
    obtain ⟨id, msg⟩ := pair
    rw [count_of, count_of]
    cases hc : s.conns id with
    | none =>
        rw [hrun.projects.unseen id hc]
        exact Nat.le_refl _
    | some c =>
        obtain ⟨hproper, -⟩ := LPushConn.history_proper (hrun.history hc)
        exact hproper.prefix_delivered.sublist.count_le msg
  obtain ⟨own, hperm, hsublist⟩ := hpairs
  have hmap := hperm.map Prod.snd
  have hsubmap := hsublist.map Prod.snd
  rw [List.map_filterMap] at hmap hsubmap
  exact ⟨_, hmap, hsubmap⟩

/-! ### Pushes -/

theorem queued?_queued (id : Nat) (msg : LPushWorkerMessage) :
    Observation.queued? (.conn id (.queued msg)) = some msg :=
  rfl

theorem filterMap_queued_eq_nil (h : ∀ id msg, .conn id (.queued msg) ∉ shown) :
    shown.filterMap Observation.queued? = [] := by
  rw [List.filterMap_eq_nil_iff]
  intro o ho
  cases o with
  | conn id e =>
      cases e with
      | queued msg => exact (h id msg ho).elim
      | _ => rfl
  | _ => rfl

theorem dispatchAll_owed {index index' : Nat} {works : List Bytes}
    (h : dispatchAll platform s index works = some (s', index', shown)) :
    (shown.filterMap Observation.queued?).Sublist (shown.filterMap (Observation.owed? platform)) := by
  induction works generalizing s index shown with
  | nil =>
      cases h
      exact List.Sublist.refl _
  | cons element works ih =>
      rw [dispatchAll] at h
      split at h
      · cases h
      · rename_i lwm hlwm
        have howed : Observation.owed? platform (.dispatched element) = some lwm := hlwm
        split at h
        · split at h
          · cases h
          · rename_i hrest
            cases h
            rw [List.filterMap_cons_none rfl, List.filterMap_cons_some howed]
            exact (ih hrest).cons lwm
        · split at h
          · cases h
          · split at h
            · cases h
            · rename_i hrest
              cases h
              rw [List.filterMap_cons_none rfl, List.filterMap_cons_some howed,
                List.filterMap_cons_some (queued?_queued _ lwm), List.filterMap_cons_none rfl]
              exact (ih hrest).cons_cons lwm

theorem loadAll_owed {id : Nat} {result : List Bytes} (h : loadAll platform id s result = some (s', shown)) :
    (shown.filterMap Observation.queued?).Sublist (shown.filterMap (Observation.owed? platform)) := by
  induction result generalizing s shown with
  | nil =>
      cases h
      exact List.Sublist.refl _
  | cons json result ih =>
      rw [loadAll] at h
      split at h
      · cases h
      · rename_i lpwm hlpwm
        have howed : Observation.owed? platform (.document json) = some lpwm := hlpwm
        split at h
        · cases h
        · split at h
          · cases h
          · rename_i hrest
            cases h
            rw [List.filterMap_cons_none rfl, List.filterMap_cons_some howed,
              List.filterMap_cons_some (queued?_queued id lpwm), List.filterMap_cons_none rfl]
            exact (ih hrest).cons_cons lpwm

/-- Every push is owed to an element or a document of its own. -/
theorem Reached.queued_sublist (hrun : Reached setup found trace s) :
    (trace.filterMap Observation.queued?).Sublist (trace.filterMap (Observation.owed? setup.platform)) := by
  induction hrun with
  | start hinit => exact List.Sublist.refl _
  | next hbefore hstep ih =>
      have hbefore : Reached setup found _ _ := hbefore
      rw [List.filterMap_append, List.filterMap_append]
      refine ih.append ?_
      have hquiet : ∀ shown : List Observation, (∀ id msg, .conn id (.queued msg) ∉ shown) →
          (shown.filterMap Observation.queued?).Sublist (shown.filterMap (Observation.owed? setup.platform)) := by
        intro shown hshown
        rw [filterMap_queued_eq_nil hshown]
        exact List.nil_sublist _
      cases hstep with
      | thread id thread w hrunning hfree haddress hthread =>
          obtain ⟨c, c', effects, hc, hstep, rfl⟩ := threadStep_spec hthread
          have houtcome := LPushConn.outcome_step (hbefore.coherent hc hstep) hstep
          exact hquiet _ fun id msg hmem => houtcome.not_queued msg (mem_of_conn_mem_performAll _ _ hmem).2
      | lrange hrunning hfree hcycle =>
          obtain ⟨⟨s', index, shown⟩, hdispatch, rfl⟩ := Option.map_eq_some_iff.mp hcycle
          exact dispatchAll_owed hdispatch
      | page mie result hrunning hloading hpage =>
          unfold selectMongoHistoryLimit at hpage
          split at hpage
          · cases hpage
            exact List.Sublist.refl _
          · exact loadAll_owed hpage
      | accept stfd beyond fcntl created hrunning hfree hfd =>
          rcases acceptClient_spec setup.conf stfd beyond fcntl created _ with hsame | ⟨c, -, haccepted⟩
          · rw [hsame]
            exact List.Sublist.refl _
          · rw [haccepted]
            exact hquiet _ (by simp)
      | rpush | ltrim | request | loaded => exact hquiet _ (by simp [ltrim])

theorem filterMap_owed (trace : List Observation) : (trace.filterMap (Observation.owed? platform)).Perm
    ((dispatched trace).filterMap (message? platform) ++ trace.filterMap (Observation.document? platform)) := by
  induction trace with
  | nil => exact List.Perm.refl _
  | cons o trace ih =>
      rw [dispatched, filterMap_cons_toList, filterMap_cons_toList, filterMap_cons_toList, List.filterMap_append]
      cases o with
      | dispatched element =>
          have hone : [element].filterMap (message? platform) = (message? platform element).toList := by
            rw [filterMap_cons_toList]
            exact List.append_nil _
          change ((message? platform element).toList ++ _).Perm
            ([element].filterMap (message? platform) ++ (dispatched trace).filterMap (message? platform) ++
              trace.filterMap (Observation.document? platform))
          rw [hone, List.append_assoc]
          exact ih.append_left _
      | document json =>
          change ((LPushWorkerMessage.ofBson platform json).toList ++ _).Perm
            ((dispatched trace).filterMap (message? platform) ++
              ((LPushWorkerMessage.ofBson platform json).toList ++ trace.filterMap (Observation.document? platform)))
          refine (ih.append_left _).trans ?_
          rw [← List.append_assoc, ← List.append_assoc]
          exact List.perm_append_comm.append_right _
      | _ => exact ih

/-! ### Unfinished passes -/

/-- No pass is under way. -/
def Between (s : Server) : Prop := ∀ index, s.processor ≠ .cycling index

/-- A run, and where the pass that it is in has begun. -/
structure Settled (setup : Setup) (found : List Bytes) (trace : List Observation) (s : Server)
    (before more : List Observation) (s' : Server) : Prop where
  split : trace = before ++ more
  reached : Reached setup found before s'
  between : s'.Between
  silent : more.filterMap Observation.delivered? = []
  untrimmed : trimmed more = 0
  nothing : s.Between → more = []

theorem Reached.settled (hrun : Reached setup found trace s) (hbetween : s.Between) :
    ∃ before more s', Settled setup found trace s before more s' :=
  ⟨trace, [], s, (List.append_nil _).symm, hrun, hbetween, rfl, rfl, fun _ => rfl⟩

/-- Neither the main loop nor the loader writes to a client. -/
theorem delivering_undelivered {address : LPushWorkerMessage → Bytes × Bytes × Bytes}
    (hrun : Run (· = s) (Delivering address) shown s') : shown.filterMap Observation.delivered? = [] := by
  refine hrun.invariant (fun shown _ => shown.filterMap Observation.delivered? = []) (fun _ _ => rfl) ?_
  intro shown s more s' h hstep
  rw [List.filterMap_append, h]
  cases hstep <;> rfl

/-- No thread of a connection runs during a pass. -/
theorem Reached.settles (hrun : Reached setup found trace s) :
    ∃ before more s', Settled setup found trace s before more s' := by
  induction hrun with
  | start hinit =>
      have hstart : Reached setup found [] _ := .start hinit
      refine hstart.settled fun index hcycling => ?_
      rw [hinit] at hcycling
      cases hcycling
  | @next trace shown s s' hbefore hstep ih =>
      have hbefore : Reached setup found trace s := hbefore
      have hafter : Reached setup found (trace ++ shown) s' := hbefore.next hstep
      cases hstep with
      | thread id thread w hrunning hfree haddress hthread =>
          obtain ⟨c, c', effects, hc, hstep, rfl⟩ := threadStep_spec hthread
          refine hafter.settled fun index hcycling => ?_
          rw [(performAll_frame ..).2.2.2.2] at hcycling
          cases hfree.symm.trans hcycling
      | accept stfd beyond fcntl created hrunning hfree hfd =>
          refine hafter.settled fun index hcycling => ?_
          rcases acceptClient_spec setup.conf stfd beyond fcntl created s with hsame | ⟨c, -, haccepted⟩
          · rw [hsame] at hcycling
            cases hfree.symm.trans hcycling
          · rw [haccepted] at hcycling
            cases hfree.symm.trans hcycling
      | rpush element hrunning =>
          by_cases hbetween : s.Between
          · exact hafter.settled hbetween
          · obtain ⟨before, more, s₀, hsettled⟩ := ih
            refine ⟨before, more ++ [.pushed element], s₀, ?_, hsettled.reached, hsettled.between, ?_, ?_,
              fun h => (hbetween h).elim⟩
            · rw [hsettled.split, List.append_assoc]
            · rw [List.filterMap_append, hsettled.silent]
              rfl
            · rw [trimmed_append, hsettled.untrimmed]
              rfl
      | lrange hrunning hfree hcycle =>
          obtain ⟨⟨s', index, shown⟩, hdispatch, rfl⟩ := Option.map_eq_some_iff.mp hcycle
          obtain ⟨-, htrimmed⟩ := delivering_shown (dispatchAll_run hdispatch)
          have hbetween : s.Between := fun index hcycling => by cases hfree.symm.trans hcycling
          exact ⟨trace, shown, s, rfl, hbefore, hbetween,
            delivering_undelivered (dispatchAll_run hdispatch), htrimmed,
            fun h => (h index rfl).elim⟩
      | page mie result hrunning hloading hpage =>
          refine hafter.settled fun index hcycling => ?_
          rw [delivering_frame (selectMongoHistoryLimit_run hpage)] at hcycling
          cases hloading.symm.trans hcycling
      | ltrim | request | loaded => exact hafter.settled fun _ => Processor.noConfusion

/-- The elements dispatched by the passes that are over are those that were removed. -/
theorem Accounted.dispatched_eq (h : Accounted found trace s) (hbetween : s.Between) :
    Server.dispatched trace = (found ++ produced trace).take (trimmed trace) := by
  have hpending : s.pending = 0 := by
    unfold Server.pending
    split
    · rename_i index hcycling
      exact (hbetween index hcycling).elim
    · rfl
  have hlength := h.pending
  rw [hpending, Nat.add_zero] at hlength
  rw [hlength]
  exact List.prefix_iff_eq_take.mp h.dispatched

/-- **One life keeps the balance**: each message it delivers is owed to a removed element or to a
document of its own. -/
theorem service_sound (setup : Setup) :
    (service setup).Sound (message? setup.platform) (Observation.document? setup.platform) := by
  intro found trace s hrun
  have hrun : Reached setup found trace s := hrun
  have haccounted := hrun.accounted
  rw [sum_removes]
  refine ⟨haccounted.tasks, ?_, ?_⟩
  · have hpending := haccounted.pending
    have hlength := haccounted.dispatched.length_le
    change trimmed trace ≤ (found ++ produced trace).length
    omega
  · obtain ⟨before, more, s', hsettled⟩ := hrun.settles
    have hdelivered : trace.filterMap Observation.delivered? = before.filterMap Observation.delivered? := by
      rw [hsettled.split, List.filterMap_append, hsettled.silent, List.append_nil]
    have htrimmed : trimmed trace = trimmed before := by
      rw [hsettled.split, trimmed_append, hsettled.untrimmed, Nat.add_zero]
    have hbalance := hsettled.reached.accounted
    have htake : (found ++ produced trace).take (trimmed trace) = dispatched before := by
      rw [hbalance.dispatched_eq hsettled.between, htrimmed, hsettled.split, produced_append, ← List.append_assoc]
      refine List.take_append_of_le_length ?_
      have hpending := hbalance.pending
      have hlength := hbalance.dispatched.length_le
      omega
    change (trace.filterMap Observation.delivered?).Subperm
      (((found ++ produced trace).take (trimmed trace)).filterMap (message? setup.platform) ++
        trace.filterMap (Observation.document? setup.platform))
    rw [hdelivered, htake]
    refine hsettled.reached.delivered_subperm.trans (hsettled.reached.queued_sublist.subperm.trans ?_)
    refine (filterMap_owed before).subperm.trans ?_
    rw [List.subperm_append_left, hsettled.split, List.filterMap_append]
    exact (List.sublist_append_left _ _).subperm

end owed

section service

variable {setup : Setup} {trace shown : List (Incident Observation Bytes)} {p p' : Life Server Bytes}

/-- **Delivered at most once, whenever the process is killed.** Over any number of lives, the list is
what was pushed behind the elements that were removed; each process goes on behind the last pass that
was finished; and each message that was ever written to a client is owed to a removed element or to a
document of the history of its own. -/
theorem delivered_at_most_once (hrun : (service setup).Reached trace p) :
    (service setup).left p = ((service setup).given trace).drop ((service setup).taken trace) ∧
      ((service setup).done trace).Subperm
        ((((service setup).given trace).take ((service setup).taken trace)).filterMap (message? setup.platform) ++
          trace.filterMap (Consumer.aside? (Observation.document? setup.platform))) ∧
      ∀ s, p = .up s → ∃ before own, trace = before ++ .started :: own.map .shows ∧
        dispatched own <+: ((service setup).given trace).drop ((service setup).taken before) := by
  have hsound := service_sound setup
  have hbalanced := Consumer.Reached.balanced hrun hsound
  refine ⟨hbalanced.rest, hbalanced.owed, ?_⟩
  rintro s rfl
  cases Consumer.Reached.lived hrun hsound with
  | @up before found own s hbefore hlife =>
      refine ⟨before, own, rfl, ?_⟩
      have hlife : Reached setup found own s := hlife
      rw [Consumer.given_append, Consumer.given_life, List.drop_append_of_le_length hbefore.within, ← hbefore.rest]
      exact hlife.accounted.dispatched

/-- User 7 comes in, and the task that waits on the list is delivered. -/
def deliversOnce : List Move :=
  enters 0 7 1 (opening userSeven) ++ activates 0 1 2 ++
    [.lrange, .ltrim, .thread 0 .consum (calm 2), .thread 0 .consum (calm 2)]

/-- The process is killed after the task has been delivered, and the next one finds nothing. -/
theorem delivered_at_most_once_killed : ∃ trace, (service taskSetup).Reached trace (.up (initial [])) ∧
    (service taskSetup).done trace = [taskMessage] ∧ [taskMessage].Subperm
      ((((service taskSetup).given trace).take ((service taskSetup).taken trace)).filterMap (message? taskPlatform) ++
        trace.filterMap (Consumer.aside? (Observation.document? taskPlatform))) := by
  obtain ⟨own, s, hown, hwanted⟩ := reached_of_play taskSetup [taskJson] deliversOnce
    (fun next => next.1.tasks == [] && next.2.filterMap Observation.delivered? == [taskMessage]) (by decide +kernel)
  obtain ⟨htasks, hdelivered⟩ := Bool.and_eq_true_iff.mp hwanted
  have hwaits : (service taskSetup).Reached [.waited taskJson] (.down [taskJson]) :=
    Run.single (Consumer.Step.waits [] taskJson)
  have hlife : (service taskSetup).Reached ([.waited taskJson] ++ (.started :: own.map .shows)) (.up s) :=
    (hwaits.next (.starts _)).append (Consumer.run_lives hown)
  have hrun := (hlife.next (.ends s)).next (.starts _)
  have hnext : (service taskSetup).queue s = [] := beq_iff_eq.mp htasks
  rw [hnext] at hrun
  have htask : own.filterMap (service taskSetup).does? = [taskMessage] := beq_iff_eq.mp hdelivered
  have hdone :
      (service taskSetup).done ([.waited taskJson] ++ (.started :: own.map .shows) ++ [.ended] ++ [.started]) =
      [taskMessage] := by
    rw [Consumer.done_append, Consumer.done_append, Consumer.done_append, Consumer.done_life, htask]
    rfl
  obtain ⟨-, howed, -⟩ := delivered_at_most_once hrun
  rw [hdone] at howed
  exact ⟨_, hrun, hdone, howed⟩

/-! ### An element that cannot be decoded -/

def Idle : Life Server Bytes → Prop
  | .up s => s.Between
  | .down _ => True

/-- No pass is under way, and one of the elements of the next one makes a constructor raise. -/
structure Poisoned (setup : Setup) (p : Life Server Bytes) : Prop where
  idle : Idle p
  raises : ∃ element ∈ batch ((service setup).left p), message? setup.platform element = none

theorem dispatchAll_decodes {platform : Platform} {s : Server} {index : Nat} {works : List Bytes}
    {next : Server × Nat × List Observation} (h : dispatchAll platform s index works = some next) :
    ∀ element ∈ works, message? platform element ≠ none := by
  induction works generalizing s index next with
  | nil => exact fun _ helement => (List.not_mem_nil helement).elim
  | cons element works ih =>
      rw [dispatchAll] at h
      split at h
      · cases h
      · rename_i lwm hlwm
        have hfirst : message? platform element ≠ none := by
          rw [message?, hlwm]
          exact Option.some_ne_none lwm
        split at h
        · split at h
          · cases h
          · rename_i hrest
            exact List.forall_mem_cons.mpr ⟨hfirst, ih hrest⟩
        · split at h
          · cases h
          · split at h
            · cases h
            · rename_i hrest
              exact List.forall_mem_cons.mpr ⟨hfirst, ih hrest⟩

theorem mem_batch_append {tasks more : List Bytes} {element : Bytes} (h : element ∈ batch tasks) :
    element ∈ batch (tasks ++ more) := by
  rw [batch, List.take_append]
  exact List.mem_append_left _ h

/-- The same list, and no pass. -/
theorem Poisoned.same (h : Poisoned setup p) (hidle : Idle p')
    (hleft : (service setup).left p <+: (service setup).left p') : Poisoned setup p' := by
  obtain ⟨element, helement, hraises⟩ := h.raises
  obtain ⟨more, hmore⟩ := hleft
  refine ⟨hidle, element, ?_, hraises⟩
  rw [← hmore]
  exact mem_batch_append helement

theorem taken_shows (shown : List Observation) :
    (service setup).taken (shown.map .shows) = trimmed shown := by
  rw [← sum_removes setup, Consumer.taken, List.map_map]
  rfl

/-- A step of the server that no pass takes part in. -/
theorem Poisoned.step_up {s s' : Server} {shown : List Observation} (h : Poisoned setup (.up s))
    (hstep : Step setup s shown s') : Poisoned setup (.up s') ∧ trimmed shown = 0 := by
  have hidle : s.Between := h.idle
  have hkeeps : s'.Between → s.tasks <+: s'.tasks → Poisoned setup (.up s') := fun hbetween hleft =>
    h.same hbetween hleft
  have haside : (∀ o ∈ shown, o.Aside) → trimmed shown = 0 := by
    intro hshown
    have hnone : shown.filterMap Observation.trimmed? = [] := by
      apply filterMap_eq_nil_of_aside _ hshown
      intro o ho
      cases o with
      | trimmed count => exact ho.elim
      | _ => rfl
    rw [trimmed, hnone]
    rfl
  cases hstep with
  | thread id thread w hrunning hfree haddress hthread =>
      obtain ⟨c, c', effects, hc, hstep, rfl⟩ := threadStep_spec hthread
      obtain ⟨-, -, -, htasks, hprocessor⟩ := performAll_frame id
        { s with conns := Function.update s.conns id (some c'), crashed := c'.crashed } effects
      refine ⟨hkeeps (fun index hcycling => ?_) (by rw [htasks]), haside (performAll_aside id _ effects)⟩
      exact hidle index (hprocessor.symm.trans hcycling)
  | accept stfd beyond fcntl created hrunning hfree hfd =>
      rcases acceptClient_spec setup.conf stfd beyond fcntl created s with hsame | ⟨c, -, haccepted⟩
      · rw [hsame]
        exact ⟨h, rfl⟩
      · rw [haccepted] at hkeeps ⊢
        exact ⟨hkeeps hidle List.prefix_rfl, rfl⟩
  | rpush element hrunning => exact ⟨hkeeps hidle (List.prefix_append _ _), rfl⟩
  | lrange hrunning hfree hcycle =>
      obtain ⟨next, hdispatch, -⟩ := Option.map_eq_some_iff.mp hcycle
      obtain ⟨element, helement, hraises⟩ := h.raises
      exact (dispatchAll_decodes hdispatch element helement hraises).elim
  | ltrim index hrunning hcycling => exact (hidle index hcycling).elim
  | page mie result hrunning hloading hpage =>
      have hrun := selectMongoHistoryLimit_run hpage
      have hframe := delivering_frame hrun
      refine ⟨hkeeps (fun index hcycling => ?_) (by rw [hframe]), (delivering_shown hrun).2⟩
      rw [hframe] at hcycling
      exact hidle index hcycling
  | request | loaded => exact ⟨hkeeps (fun _ => Processor.noConfusion) List.prefix_rfl, rfl⟩

theorem Poisoned.step (h : Poisoned setup p) (hstep : (service setup).Step p shown p') :
    Poisoned setup p' ∧ (service setup).taken shown = 0 := by
  cases hstep with
  | lives hlife =>
      rw [taken_shows]
      exact h.step_up hlife
  | ends s => exact ⟨h.same trivial List.prefix_rfl, rfl⟩
  | waits queue element => exact ⟨h.same trivial (List.prefix_append _ _), rfl⟩
  | starts queue =>
      have hstarted : Idle (.up (initial queue)) := fun _ => Processor.noConfusion
      exact ⟨h.same hstarted List.prefix_rfl, rfl⟩

/-- It stays, through all lives to come. -/
theorem Poisoned.forever (h : Poisoned setup p) (hrun : Run (· = p) (service setup).Step shown p') :
    Poisoned setup p' ∧ (service setup).taken shown = 0 := by
  refine hrun.invariant (fun shown p' => Poisoned setup p' ∧ (service setup).taken shown = 0) ?_ ?_
  · rintro _ rfl
    exact ⟨h, rfl⟩
  · intro shown p more p' hbefore hstep
    obtain ⟨hpoisoned, htaken⟩ := hbefore.1.step hstep
    rw [Consumer.taken_append, hbefore.2, htaken]
    exact ⟨hpoisoned, rfl⟩

/-- A fresh process does one pass over a list whose elements can all be decoded. -/
theorem pass_of_decodes {tasks : List Bytes}
    (hdecodes : ∀ element ∈ batch tasks, ∃ lwm, message? setup.platform element = some lwm) :
    ∃ shown s', Run (· = initial tasks) (Step setup) shown s' ∧ trimmed shown = (batch tasks).length := by
  have hstart : Reached setup tasks [] (initial tasks) := .start rfl
  have hindexes : Indexes (initial tasks).clients Entry.key (initial tasks).entries := hstart.registered.clients
  have hreadable : ∀ element ∈ batch tasks, ∀ root,
      setup.platform.reader (cStr element) = some root → root.Readable :=
    fun element helement => LPushWorkerMessage.ofJson_iff_readable.mp (hdecodes element helement)
  obtain ⟨⟨s', index, shown⟩, hdispatch⟩ :
      ∃ next, dispatchAll setup.platform (initial tasks) 0 (batch tasks) = some next :=
    dispatchAll_of_readable hindexes hreadable
  obtain ⟨hstate, hindex, -⟩ := dispatchAll_spec hindexes hdispatch
  have hcycle : cycleAll setup.platform (initial tasks) =
      some ({ s' with processor := .cycling (batch tasks).length }, shown) := by
    rw [cycleAll]
    change (dispatchAll setup.platform (initial tasks) 0 (batch tasks)).map _ = _
    rw [hdispatch, Option.map_some, hindex, Nat.zero_add]
  have hlrange : Step setup (initial tasks) shown { s' with processor := .cycling (batch tasks).length } :=
    .lrange rfl rfl hcycle
  have hcrashed : s'.crashed = false := by
    rw [hstate]
    rfl
  have hltrim : Step setup { s' with processor := .cycling (batch tasks).length }
      (ltrim { s' with processor := .cycling (batch tasks).length } (batch tasks).length).2
      (ltrim { s' with processor := .cycling (batch tasks).length } (batch tasks).length).1 :=
    .ltrim (batch tasks).length hcrashed rfl
  refine ⟨_, _, (Run.single hlrange).append (.single hltrim), ?_⟩
  obtain ⟨-, htrimmed⟩ := delivering_shown (dispatchAll_run hdispatch)
  have hle : (batch tasks).length ≤ s'.tasks.length := by
    rw [hstate]
    exact List.length_take_le' _ _
  rw [trimmed_append, htrimmed, Nat.zero_add]
  exact min_eq_left hle

/-- **One element stops a service for good.** From any state between two passes, with something on the
list, the service can come to remove an element, by whatever pushes, kills and restarts, if and only
if each of the elements that the next pass would read can be decoded. -/
theorem goes_on_iff (hidle : Idle p) (hleft : (service setup).left p ≠ []) :
    (∃ shown p', Run (· = p) (service setup).Step shown p' ∧ (service setup).taken shown ≠ 0) ↔
      ∀ element ∈ batch ((service setup).left p), ∃ lwm, message? setup.platform element = some lwm := by
  constructor
  · intro hgoes element helement
    obtain ⟨shown, p', hrun, htaken⟩ := hgoes
    rw [← Option.ne_none_iff_exists']
    intro hraises
    have hpoisoned : Poisoned setup p := ⟨hidle, element, helement, hraises⟩
    exact htaken (hpoisoned.forever hrun).2
  · intro hdecodes
    obtain ⟨shown, s', hpass, htrimmed⟩ := pass_of_decodes hdecodes
    -- whatever state it is in, the process ends and a new one does a pass
    obtain ⟨before, hdown⟩ : ∃ before,
        Run (· = p) (service setup).Step before (.down ((service setup).left p)) := by
      cases p with
      | up s => exact ⟨_, .single (.ends s)⟩
      | down queue => exact ⟨[], .start rfl⟩
    have hstarts : (service setup).Step (.down ((service setup).left p)) [.started]
        (.up (initial ((service setup).left p))) := .starts _
    refine ⟨_, _, (hdown.append (.single hstarts)).append (Consumer.run_lives hpass), ?_⟩
    rw [Consumer.taken_append, taken_shows, htrimmed]
    have hlength : (batch ((service setup).left p)).length ≠ 0 := by
      rw [batch, List.length_take]
      have hpos := List.length_pos_iff.mpr hleft
      omega
    omega

/-- An array on the list: no process will ever remove anything. -/
theorem goes_on_iff_array : ¬ ∃ shown p',
    Run (· = .down [text "[]", text "?"]) (service arraySetup).Step shown p' ∧
      (service arraySetup).taken shown ≠ 0 := by
  have hidle : Idle (.down [text "[]", text "?"]) := trivial
  have hleft : (service arraySetup).left (.down [text "[]", text "?"]) ≠ [] := List.cons_ne_nil _ _
  rw [goes_on_iff hidle hleft]
  intro hdecodes
  obtain ⟨lwm, hlwm⟩ := hdecodes (text "[]") List.mem_cons_self
  cases hlwm

end service

end Server

end LinkedonPush
