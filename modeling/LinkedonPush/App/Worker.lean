import LinkedonPush.App.LPushConn
import LinkedonPush.Theory.Run

/-!
# A worker and its owner

An `LPushThread` under its `LPushReusableThread`, with the three loops the server runs on one. The
owner starts the worker and stops it; a stop interrupts the worker at ST and waits for its end. The
interval between two calls of `cycle` is never zero.
-/

namespace LinkedonPush

open Theory

/-- Whose `cycle` the worker runs. -/
inductive Handler where
  | recv
  | consum
  | mongo
deriving DecidableEq

/-- Where the worker is. -/
inductive WorkerPoint where
  | unborn
  | created
  /-- In the loop of `thread_cycle` that waits for `can_run`. -/
  | waiting
  /-- Blocked in `readMessage` or in `playing`. -/
  | inside
  /-- In an `st_usleep` of the loop of `cycle`. -/
  | napping
  /-- In the `st_usleep` between two calls of `cycle`. -/
  | resting
  /-- In `stop`, called by itself: it cannot join itself and waits for its own end. -/
  | stoppingItself
  | ended
deriving DecidableEq

inductive StarterPoint where
  | idle
  /-- In `start`, waiting for the cid. -/
  | starting
  | done
deriving DecidableEq

inductive StopperPoint where
  | idle
  /-- In `st_thread_join`. -/
  | joining
  | done
deriving DecidableEq

structure Worker where
  trd : LPushThread
  reallyTerminated : Bool
  disposed : Bool
  /-- `can_run` of an `LPushConsumThread`. -/
  handlerCanRun : Bool
  /-- The interrupt flag of the ST thread. -/
  flagged : Bool
  point : WorkerPoint
  starter : StarterPoint
  stopper : StopperPoint

inductive WorkerEvent where
  /-- The owner's `stop` has cleared `loop`; the worker is at the point. -/
  | stop (point : WorkerPoint)
  /-- The worker has cleared its own `loop`. -/
  | interrupt
  /-- `interrupted()` was asked. -/
  | checked (interrupted : Bool)
  /-- The body of the loop of `cycle` begins. -/
  | iteration
  /-- `readMessage`, `playing` or `do_cycle` begins. -/
  | call
deriving DecidableEq

/-- What a worker finds when it goes on. -/
structure Findings where
  /-- The call succeeds. -/
  ok : Bool
  /-- `readMessage` waits for more bytes. -/
  more : Bool
  /-- There is an entry in the queue. -/
  queued : Bool

namespace Worker

/-- After both constructors. -/
def fresh : Worker := ⟨.init, true, false, false, false, .unborn, .idle, .idle⟩

abbrev Progress := Worker × List WorkerEvent

def Progress.after (events : List WorkerEvent) (p : Progress) : Progress := (p.1, events ++ p.2)

/-! ### `thread_cycle` -/

/-- Behind the loop of `thread_cycle`. -/
def finish (s : Worker) : Progress :=
  ({ s with reallyTerminated := true, disposed := true, point := .ended }, [])

/-- `cycle` has returned. -/
def returned (s : Worker) : Progress :=
  if s.trd.loop then ({ s with point := .resting }, []) else s.finish

/-- `interrupt`, after which `cycle` returns. -/
def failed (s : Worker) : Progress :=
  Progress.after [.interrupt] { s with trd := { s.trd with loop := false } }.returned

/-- `stop` behind `dispose`. -/
def stopped (s : Worker) : Worker :=
  { s with trd := { s.trd with cid := false, canRun := false, tid := false } }

/-- `stop`, called by the worker. -/
def stopItself (s : Worker) : Progress :=
  let s := { s with trd := { s.trd with loop := false } }
  Progress.after [.interrupt] <|
    if s.disposed then s.stopped.returned
    else ({ s with flagged := true, point := .stoppingItself }, [])

/-- `readMessage` and the handler of its frame, as far as they get. -/
def recvMessage (f : Findings) (s : Worker) : Progress :=
  if f.more then ({ s with point := .inside }, [])
  else if f.ok then ({ s with point := .napping }, [])
  else s.failed

/-- The head of the loop of `cycle`. -/
def iterate (h : Handler) (f : Findings) (s : Worker) : Progress :=
  match h with
  | .recv =>
      if s.trd.canRun then Progress.after [.checked false, .iteration, .call] (s.recvMessage f)
      else Progress.after [.checked true] s.returned
  | .consum =>
      if s.handlerCanRun then
        if f.queued then ({ s with point := .inside }, [.iteration, .call])
        else ({ s with point := .napping }, [.iteration])
      else s.returned
  | .mongo =>
      if f.queued then
        Progress.after [.iteration, .call] (if f.ok then ({ s with point := .napping }, []) else s.stopItself)
      else ({ s with point := .napping }, [.iteration])

/-- The head of the loop of `thread_cycle`. -/
def threadLoop (h : Handler) (f : Findings) (s : Worker) : Progress :=
  if s.trd.loop then s.iterate h f else s.finish

/-- The loop that waits for `can_run`. -/
def waitLoop (h : Handler) (f : Findings) (s : Worker) : Progress :=
  if !s.trd.canRun && s.trd.loop then ({ s with point := .waiting }, []) else s.threadLoop h f

/-- The worker runs to its next yield point. A blocked call fails if the thread was interrupted, and
so does a sleep, which nobody looks at; both consume the interrupt. -/
def work (h : Handler) (f : Findings) (s : Worker) : Option Progress :=
  let awake := { s with flagged := false }
  match s.point with
  | .unborn => none
  | .created => some ({ s with trd := { s.trd with cid := true }, reallyTerminated := false }.waitLoop h f)
  | .waiting => some (awake.waitLoop h f)
  | .inside =>
      match h with
      | .recv => some (awake.recvMessage (if s.flagged then { f with ok := false, more := false } else f))
      | .consum => some (if f.ok && !s.flagged then awake.iterate h f else awake.failed)
      | .mongo => none
  | .napping => some (awake.iterate h f)
  | .resting => some (awake.threadLoop h f)
  | .stoppingItself => some (awake, [])
  | .ended => none

/-! ### The owner -/

/-- `start`; `created` is the outcome of `st_thread_create`. -/
def start (h : Handler) (created : Bool) (s : Worker) : Worker :=
  let s := { s with handlerCanRun := h == Handler.consum || s.handlerCanRun }
  if s.trd.tid || !created then { s with starter := .done }
  else
    { s with
      trd := { s.trd with tid := true, loop := true }
      disposed := false
      point := .created
      starter := .starting }

/-- `start` looks for the cid. -/
def started (s : Worker) : Worker :=
  if s.trd.cid then { s with trd := { s.trd with canRun := true }, starter := .done } else s

/-- The destructor of the handler: the consum thread clears its own flag before. -/
def stop (h : Handler) (s : Worker) : Progress :=
  let s := { s with handlerCanRun := h != Handler.consum && s.handlerCanRun }
  if !s.trd.tid then ({ s with stopper := .done }, [])
  else
    let s := { s with trd := { s.trd with loop := false } }
    Progress.after [.stop s.point] <|
      if s.disposed then ({ s.stopped with stopper := .done }, [])
      else ({ s with flagged := true, stopper := .joining }, [])

/-- The join came back, and the worker has terminated. -/
def joined (s : Worker) : Worker := { s.stopped with disposed := true, stopper := .done }

/-- The steps of worker and owner. -/
inductive Step (h : Handler) : Worker → List WorkerEvent → Worker → Prop where
  | work {s : Worker} {p : Progress} (f : Findings) (hwork : s.work h f = some p) : Step h s p.2 p.1
  | start {s : Worker} (created : Bool) (hstarter : s.starter = .idle) : Step h s [] (s.start h created)
  | started {s : Worker} (hstarter : s.starter = .starting) : Step h s [] s.started
  | stop {s : Worker} (hstopper : s.stopper = .idle) : Step h s (s.stop h).2 (s.stop h).1
  | joined {s : Worker} (hstopper : s.stopper = .joining) (hpoint : s.point = .ended)
      (hterminated : s.reallyTerminated = true) : Step h s [] s.joined

abbrev Reached (h : Handler) : List WorkerEvent → Worker → Prop := Run (· = fresh) (Step h)

/-! ### Stop requests -/

/-- `loop` becomes false. -/
def Clears : WorkerEvent → Prop
  | .stop _ => True
  | .interrupt => True
  | _ => False

/-- Nothing that a worker does in a further iteration. -/
def Obeys : WorkerEvent → Prop
  | .checked interrupted => interrupted = true
  | .iteration => False
  | .call => False
  | _ => True

/-- Once `loop` is false, no further iteration begins. -/
def StopsObserved (trace : List WorkerEvent) : Prop :=
  Throughout (fun before e => (∃ c ∈ before, Clears c) → Obeys e) trace

/-- Stopped here, the loop of `cycle` ends. -/
def Heeds (h : Handler) (point : WorkerPoint) : Prop := h = .consum ∨ point ≠ .napping

/-- The worker leaves its loop when it goes on. -/
def Leaving (h : Handler) (s : Worker) : Prop :=
  s.trd.loop = false ∧
    match s.point with
    | .inside => s.flagged = true
    | .napping => h = .consum ∧ s.handlerCanRun = false
    | _ => True

section leaving

variable {h : Handler} {s : Worker} {f : Findings} {p : Progress} {trace events : List WorkerEvent}

theorem obeys_append (hcleared : ∃ c ∈ trace, Clears c) (htrace : StopsObserved trace) :
    StopsObserved (trace ++ events) ↔ ∀ e ∈ events, Obeys e := by
  rw [StopsObserved, throughout_append]
  constructor
  · intro hall e he
    obtain ⟨before, after, rfl⟩ := List.append_of_mem he
    obtain ⟨c, hc, hclears⟩ := hcleared
    exact hall.2 before e after rfl ⟨c, List.mem_append_left _ hc, hclears⟩
  · intro hall
    refine ⟨htrace, fun before e after heq _ => hall e ?_⟩
    rw [heq]
    exact List.mem_append_right _ List.mem_cons_self

/-- What a step of a worker that leaves its loop may come to. -/
structure Leaves (h : Handler) (s : Worker) (p : Progress) : Prop where
  leaving : Leaving h p.1
  obeys : ∀ e ∈ p.2, Obeys e
  starter : p.1.starter = s.starter

theorem leaves_finish {s' : Worker} (hloop : s'.trd.loop = false) (hstarter : s'.starter = s.starter) :
    Leaves h s s'.finish :=
  ⟨⟨hloop, trivial⟩, fun _ he => (List.not_mem_nil he).elim, hstarter⟩

/-- Behind `loop` there is only the end. -/
theorem leaves_returned {s' : Worker} (hloop : s'.trd.loop = false) (hstarter : s'.starter = s.starter) :
    Leaves h s s'.returned := by
  rw [returned, hloop]
  exact leaves_finish hloop hstarter

theorem leaves_threadLoop {s' : Worker} (hloop : s'.trd.loop = false) (hstarter : s'.starter = s.starter) :
    Leaves h s (s'.threadLoop h f) := by
  rw [threadLoop, hloop]
  exact leaves_finish hloop hstarter

theorem leaves_waitLoop {s' : Worker} (hloop : s'.trd.loop = false) (hstarter : s'.starter = s.starter) :
    Leaves h s (s'.waitLoop h f) := by
  rw [waitLoop, hloop, Bool.and_false]
  exact leaves_threadLoop hloop hstarter

theorem leaves_failed {s' : Worker} (hstarter : s'.starter = s.starter) : Leaves h s s'.failed := by
  have hreturned : Leaves h s { s' with trd := { s'.trd with loop := false } }.returned :=
    leaves_returned rfl hstarter
  obtain ⟨hleaving, hobeys, hsame⟩ := hreturned
  refine ⟨hleaving, fun e he => ?_, hsame⟩
  rcases List.mem_cons.mp he with rfl | he
  · trivial
  · exact hobeys e he

theorem Leaving.work (hleaving : Leaving h s) (hwork : s.work h f = some p) : Leaves h s p := by
  obtain ⟨hloop, hpoint⟩ := hleaving
  unfold Worker.work at hwork
  cases hs : s.point with
  | unborn | ended =>
      rw [hs] at hwork
      cases hwork
  | created | waiting =>
      rw [hs] at hwork
      obtain rfl := Option.some.inj hwork
      exact leaves_waitLoop hloop rfl
  | resting =>
      rw [hs] at hwork
      obtain rfl := Option.some.inj hwork
      exact leaves_threadLoop hloop rfl
  | inside =>
      rw [hs] at hwork hpoint
      have hflagged : s.flagged = true := hpoint
      cases h with
      | recv =>
          obtain rfl := Option.some.inj hwork
          simp only [hflagged, if_true, recvMessage, Bool.false_eq_true, if_false]
          exact leaves_failed rfl
      | consum =>
          obtain rfl := Option.some.inj hwork
          simp only [hflagged, Bool.not_true, Bool.and_false, Bool.false_eq_true, if_false]
          exact leaves_failed rfl
      | mongo => cases hwork
  | napping =>
      rw [hs] at hwork hpoint
      obtain ⟨rfl, hcanRun⟩ := hpoint
      obtain rfl := Option.some.inj hwork
      simp only [iterate, hcanRun, Bool.false_eq_true, if_false]
      exact leaves_returned hloop rfl
  | stoppingItself =>
      rw [hs] at hwork
      cases hwork
      exact ⟨⟨hloop, trivial⟩, fun _ he => (List.not_mem_nil he).elim, rfl⟩

end leaving

/-! ### What a step of the worker does -/

/-- The worker clears `loop` at the end of a step if at all, and then it leaves. -/
inductive Ending (h : Handler) (p : Progress) : Prop where
  | onward (hclears : ∀ e ∈ p.2, ¬ Clears e)
  | interrupt (events : List WorkerEvent) (hclears : ∀ e ∈ events, ¬ Clears e)
      (hevents : p.2 = events ++ [.interrupt]) (hleaving : Leaving h p.1)

/-- What holds after every step of the worker. -/
structure Works (h : Handler) (s : Worker) (p : Progress) : Prop where
  starter : p.1.starter = s.starter
  stopper : p.1.stopper = s.stopper
  born : p.1.point ≠ .unborn
  disposed : p.1.disposed = true → p.1.point = .ended
  /-- The recv thread entered its loop because `can_run` was set. -/
  canRun : h = .recv → p.1.point = .inside ∨ p.1.point = .napping → p.1.trd.canRun = true
  ending : Ending h p

section works

variable {h : Handler} {s s' : Worker} {f : Findings} {p : Progress} {events : List WorkerEvent}

theorem Ending.after (hending : Ending h p) (hevents : ∀ e ∈ events, ¬ Clears e) :
    Ending h (p.after events) := by
  have hall : ∀ {more : List WorkerEvent}, (∀ e ∈ more, ¬ Clears e) → ∀ e ∈ events ++ more, ¬ Clears e := by
    intro more hmore e he
    rcases List.mem_append.mp he with he | he
    · exact hevents e he
    · exact hmore e he
  cases hending with
  | onward hclears => exact .onward (hall hclears)
  | interrupt more hclears hmore hleaving =>
      refine .interrupt (events ++ more) (hall hclears) ?_ hleaving
      rw [Progress.after, hmore, List.append_assoc]

theorem Works.after (hworks : Works h s p) (hevents : ∀ e ∈ events, ¬ Clears e) : Works h s (p.after events) :=
  { hworks with ending := hworks.ending.after hevents }

/-- The flags of the owner's two calls. -/
def SameOwner (s s' : Worker) : Prop := s'.starter = s.starter ∧ s'.stopper = s.stopper

theorem works_finish (howner : SameOwner s s') : Works h s s'.finish where
  starter := howner.1
  stopper := howner.2
  born := WorkerPoint.noConfusion
  disposed := fun _ => rfl
  canRun := fun _ hpoint => by rcases hpoint with hpoint | hpoint <;> cases hpoint
  ending := .onward fun _ he => (List.not_mem_nil he).elim

/-- The worker stops at a point outside its loop. -/
theorem works_outside {point : WorkerPoint} (howner : SameOwner s s') (hdisposed : s'.disposed = false)
    (hborn : point ≠ .unborn) (hinside : point ≠ .inside) (hnapping : point ≠ .napping) :
    Works h s ({ s' with point := point }, []) where
  starter := howner.1
  stopper := howner.2
  born := hborn
  disposed := fun hd => by cases hdisposed.symm.trans hd
  canRun := fun _ hpoint => (hpoint.elim hinside hnapping).elim
  ending := .onward fun _ he => (List.not_mem_nil he).elim

theorem works_returned (howner : SameOwner s s') (hdisposed : s'.disposed = false) : Works h s s'.returned := by
  unfold returned
  split
  · exact works_outside howner hdisposed WorkerPoint.noConfusion WorkerPoint.noConfusion WorkerPoint.noConfusion
  · exact works_finish howner

theorem works_failed (howner : SameOwner s s') (hdisposed : s'.disposed = false) : Works h s s'.failed := by
  have hreturned : Works h s { s' with trd := { s'.trd with loop := false } }.returned :=
    works_returned howner hdisposed
  have hleaves : Leaves h s { s' with trd := { s'.trd with loop := false } }.returned :=
    leaves_returned rfl howner.1
  refine { hreturned with ending := .interrupt [] (fun _ he => (List.not_mem_nil he).elim) ?_ hleaves.leaving }
  simp [failed, Progress.after, returned, finish]

/-- The worker stops at a point of its loop. -/
theorem works_stop {point : WorkerPoint} (howner : SameOwner s s') (hdisposed : s'.disposed = false)
    (hborn : point ≠ .unborn) (hcanRun : h = .recv → s'.trd.canRun = true)
    (hevents : ∀ e ∈ events, ¬ Clears e) : Works h s ({ s' with point := point }, events) where
  starter := howner.1
  stopper := howner.2
  born := hborn
  disposed := fun hd => by cases hdisposed.symm.trans hd
  canRun := fun hrecv _ => hcanRun hrecv
  ending := .onward hevents

theorem works_stopItself (howner : SameOwner s s') (hdisposed : s'.disposed = false) :
    Works h s s'.stopItself := by
  simp only [stopItself, hdisposed, Bool.false_eq_true, if_false]
  refine ⟨howner.1, howner.2, WorkerPoint.noConfusion, fun hd => ?_, fun _ hpoint => ?_,
    .interrupt [] (fun _ he => (List.not_mem_nil he).elim) rfl ⟨rfl, trivial⟩⟩
  · cases hd
  · rcases hpoint with hpoint | hpoint <;> cases hpoint

theorem works_recvMessage (howner : SameOwner s s') (hdisposed : s'.disposed = false)
    (hcanRun : h = .recv → s'.trd.canRun = true) : Works h s (s'.recvMessage f) := by
  have hnone : ∀ e ∈ ([] : List WorkerEvent), ¬ Clears e := fun _ he => (List.not_mem_nil he).elim
  unfold recvMessage
  split
  · exact works_stop howner hdisposed WorkerPoint.noConfusion hcanRun hnone
  · split
    · exact works_stop howner hdisposed WorkerPoint.noConfusion hcanRun hnone
    · exact works_failed howner hdisposed

theorem works_iterate (howner : SameOwner s s') (hdisposed : s'.disposed = false) :
    Works h s (s'.iterate h f) := by
  have hcall : ∀ e ∈ [WorkerEvent.iteration, .call], ¬ Clears e := by simp [Clears]
  have hiteration : ∀ e ∈ [WorkerEvent.iteration], ¬ Clears e := by simp [Clears]
  cases h with
  | recv =>
      simp only [iterate]
      split
      · rename_i hcanRun
        exact (works_recvMessage howner hdisposed fun _ => hcanRun).after (by simp [Clears])
      · exact (works_returned howner hdisposed).after (by simp [Clears])
  | consum =>
      simp only [iterate]
      split
      · split
        · exact works_stop howner hdisposed WorkerPoint.noConfusion Handler.noConfusion hcall
        · exact works_stop howner hdisposed WorkerPoint.noConfusion Handler.noConfusion hiteration
      · exact works_returned howner hdisposed
  | mongo =>
      simp only [iterate]
      split
      · refine Works.after ?_ hcall
        split
        · exact works_stop howner hdisposed WorkerPoint.noConfusion Handler.noConfusion
            fun _ he => (List.not_mem_nil he).elim
        · exact works_stopItself howner hdisposed
      · exact works_stop howner hdisposed WorkerPoint.noConfusion Handler.noConfusion hiteration

theorem works_threadLoop (howner : SameOwner s s') (hdisposed : s'.disposed = false) :
    Works h s (s'.threadLoop h f) := by
  unfold threadLoop
  split
  · exact works_iterate howner hdisposed
  · exact works_finish howner

theorem works_waitLoop (howner : SameOwner s s') (hdisposed : s'.disposed = false) :
    Works h s (s'.waitLoop h f) := by
  unfold waitLoop
  split
  · exact works_outside howner hdisposed WorkerPoint.noConfusion WorkerPoint.noConfusion WorkerPoint.noConfusion
  · exact works_threadLoop howner hdisposed

theorem works_work (hdisposed : s.disposed = true → s.point = .ended)
    (hcanRun : h = .recv → s.point = .inside ∨ s.point = .napping → s.trd.canRun = true)
    (hwork : s.work h f = some p) : Works h s p := by
  have hrunning : s.point ≠ .ended → s.disposed = false := by
    intro hpoint
    rw [Bool.eq_false_iff]
    exact fun hd => hpoint (hdisposed hd)
  unfold Worker.work at hwork
  cases hs : s.point with
  | unborn | ended =>
      rw [hs] at hwork
      cases hwork
  | created | waiting =>
      have halive := hrunning (by rw [hs]; exact WorkerPoint.noConfusion)
      rw [hs] at hwork
      obtain rfl := Option.some.inj hwork
      exact works_waitLoop ⟨rfl, rfl⟩ halive
  | resting =>
      have halive := hrunning (by rw [hs]; exact WorkerPoint.noConfusion)
      rw [hs] at hwork
      obtain rfl := Option.some.inj hwork
      exact works_threadLoop ⟨rfl, rfl⟩ halive
  | inside =>
      have halive := hrunning (by rw [hs]; exact WorkerPoint.noConfusion)
      rw [hs] at hwork
      cases h with
      | recv =>
          obtain rfl := Option.some.inj hwork
          exact works_recvMessage ⟨rfl, rfl⟩ halive fun hrecv => hcanRun hrecv (.inl hs)
      | consum =>
          obtain rfl := Option.some.inj hwork
          split
          · exact works_iterate ⟨rfl, rfl⟩ halive
          · exact works_failed ⟨rfl, rfl⟩ halive
      | mongo => cases hwork
  | napping =>
      have halive := hrunning (by rw [hs]; exact WorkerPoint.noConfusion)
      rw [hs] at hwork
      obtain rfl := Option.some.inj hwork
      exact works_iterate ⟨rfl, rfl⟩ halive
  | stoppingItself =>
      have halive := hrunning (by rw [hs]; exact WorkerPoint.noConfusion)
      rw [hs] at hwork
      obtain rfl := Option.some.inj hwork
      refine ⟨rfl, rfl, WorkerPoint.noConfusion, fun hd => ?_, fun _ hpoint => ?_, .onward fun _ he => ?_⟩
      · cases halive.symm.trans hd
      · rcases hpoint with hpoint | hpoint <;> cases hpoint
      · exact (List.not_mem_nil he).elim

/-- A nap ends with a further iteration, whatever the stop has cleared. -/
theorem iteration_of_napping (hh : h ≠ .consum) (hpoint : s.point = .napping)
    (hcanRun : h = .recv → s.trd.canRun = true) (hwork : s.work h f = some p) : .iteration ∈ p.2 := by
  unfold Worker.work at hwork
  rw [hpoint] at hwork
  obtain rfl := Option.some.inj hwork
  cases h with
  | recv =>
      simp only [iterate, hcanRun rfl, if_true]
      simp [Progress.after]
  | consum => exact (hh rfl).elim
  | mongo =>
      simp only [iterate]
      split
      · simp [Progress.after]
      · simp

end works

/-! ### Runs -/

/-- What holds of worker and owner in every run. -/
structure Managed (h : Handler) (trace : List WorkerEvent) (s : Worker) : Prop where
  disposed : s.disposed = true → s.point = .ended
  canRun : h = .recv → s.point = .inside ∨ s.point = .napping → s.trd.canRun = true
  idle : s.starter = .idle → s.point = .unborn ∧ s.trd.tid = false
  stopping : (∃ point, .stop point ∈ trace) → s.stopper ≠ .idle
  joined : s.stopper = .done → (∃ point, .stop point ∈ trace) → s.point = .ended

section runs

variable {h : Handler} {s s' : Worker} {trace shown : List WorkerEvent} {point : WorkerPoint}

theorem point_of_work {f : Findings} {p : Progress} (hwork : s.work h f = some p) :
    s.point ≠ .unborn ∧ s.point ≠ .ended := by
  constructor
  · intro hpoint
    simp [Worker.work, hpoint] at hwork
  · intro hpoint
    simp [Worker.work, hpoint] at hwork

theorem Works.no_stop {p : Progress} (hworks : Works h s p) : .stop point ∉ p.2 := by
  intro hmem
  cases hworks.ending with
  | onward hclears => exact hclears _ hmem trivial
  | interrupt events hclears hevents =>
      rw [hevents] at hmem
      rcases List.mem_append.mp hmem with hmem | hmem
      · exact hclears _ hmem trivial
      · cases List.mem_singleton.mp hmem

/-- A `start` of a worker that was not started. -/
theorem start_spec (hidle : s.starter = .idle → s.point = .unborn ∧ s.trd.tid = false)
    (hstarter : s.starter = .idle) (created : Bool) : (s.start h created).starter ≠ .idle ∧
      (s.start h created).stopper = s.stopper ∧ ((s.start h created).point = .unborn ∧
        (s.start h created).disposed = s.disposed ∨ (s.start h created).point = .created ∧
          (s.start h created).disposed = false) := by
  obtain ⟨hpoint, htid⟩ := hidle hstarter
  cases created with
  | false => simp [start, htid, hpoint]
  | true => simp [start, htid]

/-- A `stop` clears `loop` and waits, unless the worker was never there or has ended. -/
theorem stop_spec (hdisposed : s.disposed = true → s.point = .ended) :
    (s.stop h).1.starter = s.starter ∧ (s.stop h).1.stopper ≠ .idle ∧ (s.stop h).1.point = s.point ∧
      (s.stop h).1.disposed = s.disposed ∧
        ((s.trd.tid = false ∧ (s.stop h).2 = [] ∧ (s.stop h).1.trd = s.trd ∧
            (s.stop h).1.flagged = s.flagged) ∨
          (s.trd.tid = true ∧ (s.stop h).2 = [.stop s.point] ∧ (s.stop h).1.trd.loop = false ∧
            ((s.stop h).1.stopper = .done → s.point = .ended) ∧
              (s.point ≠ .ended → (s.stop h).1.flagged = true ∧ (s.stop h).1.trd.canRun = s.trd.canRun))) := by
  cases htid : s.trd.tid with
  | false => simp [stop, htid]
  | true =>
      cases hd : s.disposed with
      | false => simp [stop, htid, hd, Progress.after]
      | true => simp [stop, htid, hd, Progress.after, stopped, hdisposed hd]

theorem handlerCanRun_stop : (s.stop .consum).1.handlerCanRun = false := by
  simp only [stop]
  split
  · rfl
  · split <;> rfl

theorem Managed.step (hmanaged : Managed h trace s) (hstep : Step h s shown s') : Managed h (trace ++ shown) s' := by
  obtain ⟨hdisposed, hcanRun, hidle, hstopping, hjoined⟩ := hmanaged
  cases hstep with
  | work f hwork =>
      have hworks := works_work hdisposed hcanRun hwork
      have hpast : (∃ point, .stop point ∈ trace ++ _) → ∃ point, .stop point ∈ trace :=
        fun hstop => hstop.imp fun point hmem =>
          (List.mem_append.mp hmem).elim id fun hnow => (hworks.no_stop hnow).elim
      refine ⟨hworks.disposed, hworks.canRun, fun hstarter => ?_, fun hstop => ?_, fun hdone hstop => ?_⟩
      · exact ((point_of_work hwork).1 (hidle (hworks.starter.symm.trans hstarter)).1).elim
      · rw [hworks.stopper]
        exact hstopping (hpast hstop)
      · exact ((point_of_work hwork).2 (hjoined (hworks.stopper.symm.trans hdone) (hpast hstop))).elim
  | start created hstarter =>
      obtain ⟨hbegun, hstopper, hpoint⟩ := start_spec (h := h) hidle hstarter created
      rw [List.append_nil]
      refine ⟨fun hd => ?_, fun _ hin => ?_, fun hnot => (hbegun hnot).elim, fun hstop => ?_, fun hdone hstop => ?_⟩
      · rcases hpoint with ⟨-, hsame⟩ | ⟨-, hfalse⟩
        · have hended := hdisposed (hsame.symm.trans hd)
          rw [(hidle hstarter).1] at hended
          cases hended
        · cases hfalse.symm.trans hd
      · rcases hpoint with ⟨hpoint, -⟩ | ⟨hpoint, -⟩ <;>
          (rw [hpoint] at hin; rcases hin with hin | hin <;> cases hin)
      · rw [hstopper]
        exact hstopping hstop
      · have hended := hjoined (hstopper.symm.trans hdone) hstop
        rw [(hidle hstarter).1] at hended
        cases hended
  | started hstarter =>
      rw [List.append_nil]
      unfold started
      split
      · exact ⟨hdisposed, fun _ _ => rfl, fun hnot => StarterPoint.noConfusion hnot, hstopping, hjoined⟩
      · exact ⟨hdisposed, hcanRun, hidle, hstopping, hjoined⟩
  | stop hstopper =>
      obtain ⟨hstarter, hbegun, hpoint, hsame, hcase⟩ := stop_spec (h := h) hdisposed
      refine ⟨fun hd => ?_, fun hrecv hin => ?_, fun hnot => ?_, fun _ => hbegun, fun hdone hstop => ?_⟩
      · rw [hpoint]
        exact hdisposed (hsame.symm.trans hd)
      · rw [hpoint] at hin
        rcases hcase with ⟨-, -, htrd, -⟩ | ⟨-, -, -, -, hkept⟩
        · rw [htrd]
          exact hcanRun hrecv hin
        · have hnot : s.point ≠ .ended := by rcases hin with hin | hin <;> (rw [hin]; exact WorkerPoint.noConfusion)
          rw [(hkept hnot).2]
          exact hcanRun hrecv hin
      · obtain ⟨hunborn, htid⟩ := hidle (hstarter.symm.trans hnot)
        rcases hcase with ⟨-, -, htrd, -⟩ | ⟨htid', -⟩
        · rw [hpoint, htrd]
          exact ⟨hunborn, htid⟩
        · cases htid.symm.trans htid'
      · rw [hpoint]
        rcases hcase with ⟨-, hshown, -⟩ | ⟨-, -, -, hended, -⟩
        · rw [hshown, List.append_nil] at hstop
          exact (hstopping hstop hstopper).elim
        · exact hended hdone
  | joined hstopper hpoint hterminated =>
      rw [List.append_nil]
      refine ⟨fun _ => hpoint, fun _ hin => ?_, fun hnot => ?_, fun _ => StopperPoint.noConfusion, fun _ _ => hpoint⟩
      · have hended : s.point = .inside ∨ s.point = .napping := hin
        rw [hpoint] at hended
        rcases hended with hended | hended <;> cases hended
      · have hunborn := (hidle hnot).1
        rw [hpoint] at hunborn
        cases hunborn

theorem Reached.managed (hrun : Reached h trace s) : Managed h trace s := by
  refine hrun.invariant (Managed h) (fun s hinit => ?_) fun _ _ _ _ => Managed.step
  rw [hinit]
  refine ⟨Bool.noConfusion, fun _ hin => ?_, fun _ => ⟨rfl, rfl⟩, fun hstop => ?_, StopperPoint.noConfusion⟩
  · rcases hin with hin | hin <;> cases hin
  · obtain ⟨point, hmem⟩ := hstop
    exact (List.not_mem_nil hmem).elim

/-- **`stop` returns when the worker has ended**, also if it has ended by itself. -/
theorem stop_waits (hrun : Reached h trace s) (hreturned : s.stopper = .done) (hstop : .stop point ∈ trace) :
    s.point = .ended :=
  hrun.managed.joined hreturned ⟨point, hstop⟩

/-! ### Requests that are heeded -/

/-- Once `loop` is false the worker leaves. -/
structure Settled (h : Handler) (trace : List WorkerEvent) (s : Worker) : Prop where
  leaving : (∃ c ∈ trace, Clears c) → Leaving h s ∧ s.starter ≠ .idle
  observed : StopsObserved trace

theorem observed_of_onward (htrace : ∀ c ∈ trace, ¬ Clears c) : StopsObserved trace := by
  intro before e after heq hcleared
  obtain ⟨c, hc, hclears⟩ := hcleared
  refine (htrace c ?_ hclears).elim
  rw [heq]
  exact List.mem_append_left _ hc

theorem observed_append_singleton {e : WorkerEvent} (htrace : StopsObserved trace) (he : Obeys e) :
    StopsObserved (trace ++ [e]) :=
  throughout_append_singleton.mpr ⟨htrace, fun _ => he⟩

/-- A step of the worker before anything has cleared `loop`. -/
theorem Settled.working {p : Progress} (honward : ∀ c ∈ trace, ¬ Clears c) (hworks : Works h s p)
    (hstarter : s.starter ≠ .idle) : Settled h (trace ++ p.2) p.1 := by
  have hall : ∀ {events : List WorkerEvent}, (∀ e ∈ events, ¬ Clears e) → ∀ e ∈ trace ++ events, ¬ Clears e := by
    intro events hevents e he
    rcases List.mem_append.mp he with he | he
    · exact honward e he
    · exact hevents e he
  have hbegun : p.1.starter ≠ .idle := by rwa [hworks.starter]
  cases hworks.ending with
  | onward hclears =>
      refine ⟨fun hcleared => ?_, observed_of_onward (hall hclears)⟩
      obtain ⟨c, hc, hclears'⟩ := hcleared
      exact (hall hclears c hc hclears').elim
  | interrupt events hclears hevents hleaving =>
      refine ⟨fun _ => ⟨hleaving, hbegun⟩, ?_⟩
      rw [hevents, ← List.append_assoc]
      exact observed_append_singleton (observed_of_onward (hall hclears)) trivial

theorem Settled.step (hsettled : Settled h trace s) (hmanaged : Managed h trace s) (hstep : Step h s shown s')
    (hheeds : ∀ point, .stop point ∈ shown → Heeds h point) : Settled h (trace ++ shown) s' := by
  obtain ⟨hleaving, hobserved⟩ := hsettled
  cases hstep with
  | work f hwork =>
      have hstarter : s.starter ≠ .idle := fun hidle =>
        (point_of_work hwork).1 (hmanaged.idle hidle).1
      by_cases hcleared : ∃ c ∈ trace, Clears c
      · obtain ⟨hleaving', hobeys, hsame⟩ := (hleaving hcleared).1.work hwork
        refine ⟨fun _ => ⟨hleaving', ?_⟩, (obeys_append hcleared hobserved).mpr hobeys⟩
        rwa [hsame]
      · have honward : ∀ c ∈ trace, ¬ Clears c := fun c hc hclears => hcleared ⟨c, hc, hclears⟩
        exact .working honward (works_work hmanaged.disposed hmanaged.canRun hwork) hstarter
  | start created hstarter =>
      rw [List.append_nil]
      exact ⟨fun hcleared => ((hleaving hcleared).2 hstarter).elim, hobserved⟩
  | started hstarter =>
      rw [List.append_nil]
      unfold started
      split
      · exact ⟨fun hcleared => ⟨(hleaving hcleared).1, StarterPoint.noConfusion⟩, hobserved⟩
      · exact ⟨hleaving, hobserved⟩
  | stop hstopper =>
      obtain ⟨hstarter, -, hpoint, -, hcase⟩ := stop_spec (h := h) hmanaged.disposed
      rcases hcase with ⟨htid, hshown, htrd, hflagged⟩ | ⟨htid, hshown, hloop, -, hkept⟩
      · rw [hshown, List.append_nil]
        refine ⟨fun hcleared => ?_, hobserved⟩
        obtain ⟨⟨hloop, hwhere⟩, hbegun⟩ := hleaving hcleared
        rw [Leaving, htrd, hpoint, hflagged, hstarter]
        refine ⟨⟨hloop, ?_⟩, hbegun⟩
        cases hs : s.point with
        | inside =>
            rw [hs] at hwhere
            exact hwhere
        | napping =>
            rw [hs] at hwhere
            obtain ⟨rfl, -⟩ := hwhere
            exact ⟨rfl, handlerCanRun_stop⟩
        | _ => trivial
      · rw [hshown] at hheeds ⊢
        have hheed : Heeds h s.point := hheeds s.point (List.mem_singleton_self _)
        refine ⟨fun _ => ⟨⟨hloop, ?_⟩, ?_⟩, observed_append_singleton hobserved trivial⟩
        · rw [hpoint]
          cases hs : s.point with
          | inside => exact (hkept (by rw [hs]; exact WorkerPoint.noConfusion)).1
          | napping =>
              rcases hheed with rfl | hnot
              · exact ⟨rfl, handlerCanRun_stop⟩
              · exact (hnot hs).elim
          | _ => trivial
        · rw [hstarter]
          intro hidle
          cases (hmanaged.idle hidle).2.symm.trans htid
  | joined hstopper hpoint hterminated =>
      rw [List.append_nil]
      refine ⟨fun hcleared => ?_, hobserved⟩
      obtain ⟨⟨hloop, -⟩, hbegun⟩ := hleaving hcleared
      refine ⟨⟨hloop, ?_⟩, hbegun⟩
      have hended : s.joined.point = .ended := hpoint
      rw [hended]
      trivial

/-- Every stop of the run came at a point where the loop ends. -/
theorem Reached.settled (hrun : Reached h trace s) (hheeds : ∀ point, .stop point ∈ trace → Heeds h point) :
    Settled h trace s := by
  induction hrun with
  | start hinit => exact ⟨fun hcleared => by simp at hcleared, throughout_nil⟩
  | next hbefore hstep ih =>
      have hmanaged := Reached.managed hbefore
      have hpast := ih fun point hmem => hheeds point (List.mem_append_left _ hmem)
      exact hpast.step hmanaged hstep fun point hmem => hheeds point (List.mem_append_right _ hmem)

/-! ### Requests that are lost -/

/-- A stop that came during a nap was not observed, or will not be. -/
theorem lost_of_napping (hrun : Reached h trace s) (hh : h ≠ .consum) (hstop : .stop .napping ∈ trace) :
    ¬ StopsObserved trace ∨ s.point = .napping := by
  induction hrun with
  | start hinit => exact (List.not_mem_nil hstop).elim
  | @next trace shown s s' hbefore hstep ih =>
      have hmanaged := Reached.managed hbefore
      have hlost : ¬ StopsObserved trace → ¬ StopsObserved (trace ++ shown) := by
        intro hnot hobserved
        exact hnot (throughout_append.mp hobserved).1
      rcases List.mem_append.mp hstop with hpast | hnow
      · have hcleared : ∃ c ∈ trace, Clears c := ⟨_, hpast, trivial⟩
        rcases ih hpast with hnot | hpoint
        · exact .inl (hlost hnot)
        · cases hstep with
          | work f hwork =>
              refine .inl fun hobserved => ?_
              have hmem := iteration_of_napping hh hpoint (fun hrecv => hmanaged.canRun hrecv (.inr hpoint)) hwork
              exact (obeys_append hcleared (throughout_append.mp hobserved).1).mp hobserved _ hmem
          | start created hstarter =>
              have hunborn := (hmanaged.idle hstarter).1
              rw [hpoint] at hunborn
              cases hunborn
          | started hstarter =>
              right
              unfold started
              split <;> exact hpoint
          | stop hstopper => exact (hmanaged.stopping ⟨_, hpast⟩ hstopper).elim
          | joined hstopper hended => cases hpoint.symm.trans hended
      · cases hstep with
        | work f hwork => exact ((works_work hmanaged.disposed hmanaged.canRun hwork).no_stop hnow).elim
        | start | started | joined => exact (List.not_mem_nil hnow).elim
        | stop hstopper =>
            obtain ⟨-, -, hpoint, -, hcase⟩ := stop_spec (h := h) hmanaged.disposed
            rcases hcase with ⟨-, hshown, -⟩ | ⟨-, hshown, -⟩
            · rw [hshown] at hnow
              exact (List.not_mem_nil hnow).elim
            · rw [hshown] at hnow
              refine .inr (hpoint.trans ?_)
              exact (WorkerEvent.stop.inj (List.mem_singleton.mp hnow)).symm

/-- A step that is not the owner's stop. -/
def Goes (h : Handler) (s : Worker) (shown : List WorkerEvent) (s' : Worker) : Prop :=
  Step h s shown s' ∧ ∀ point, .stop point ∉ shown

theorem run_of_goes {more : List WorkerEvent} (hmore : Run (· = s) (Goes h) more s') :
    Run (· = s) (Step h) more s' ∧ ∀ point, .stop point ∉ more := by
  induction hmore with
  | start hinit => exact ⟨.start hinit, fun _ => List.not_mem_nil⟩
  | next _ hstep ih =>
      refine ⟨ih.1.next hstep.1, fun point hmem => ?_⟩
      rcases List.mem_append.mp hmem with hmem | hmem
      · exact ih.2 point hmem
      · exact hstep.2 point hmem

/-- **A stop request is observed in all that follows** exactly if it did not come during a nap in a
loop that looks at no flag of its own. -/
theorem stops_observed_iff (hrun : Reached h trace s) :
    (∀ more s', Run (· = s) (Goes h) more s' → StopsObserved (trace ++ more)) ↔
      ∀ point, .stop point ∈ trace → Heeds h point := by
  constructor
  · intro hobserved point hmem
    by_contra hnot
    obtain ⟨hh, hnap⟩ := not_or.mp hnot
    obtain rfl : point = .napping := not_not.mp hnap
    have hnow : StopsObserved trace := by
      have hstay := hobserved [] s (.start rfl)
      rwa [List.append_nil] at hstay
    rcases lost_of_napping hrun hh hmem with hlost | hpoint
    · exact hlost hnow
    · -- the worker wakes up and goes on
      have hmanaged := hrun.managed
      obtain ⟨p, hwork⟩ : ∃ p, s.work h ⟨true, true, true⟩ = some p := by
        simp only [Worker.work, hpoint]
        exact ⟨_, rfl⟩
      have hworks := works_work hmanaged.disposed hmanaged.canRun hwork
      have hgoes : Goes h s p.2 p.1 := ⟨.work _ hwork, fun _ => hworks.no_stop⟩
      have hafter := hobserved _ _ (Run.single hgoes)
      have hiteration := iteration_of_napping hh hpoint (fun hrecv => hmanaged.canRun hrecv (.inr hpoint)) hwork
      exact (obeys_append ⟨_, hmem, trivial⟩ hnow).mp hafter _ hiteration
  · intro hheeds more s' hmore
    obtain ⟨hsteps, hnone⟩ := run_of_goes hmore
    refine (Reached.settled (hrun.append hsteps) fun point hmem => ?_).observed
    rcases List.mem_append.mp hmem with hmem | hmem
    · exact hheeds point hmem
    · exact (hnone point hmem).elim

end runs

/-! ### A recv thread -/

/-- A run up to the first `readMessage`, which waits. -/
def reading : Worker :=
  { fresh with
    trd := ⟨true, true, true, true⟩
    reallyTerminated := false
    point := .inside
    starter := .done }

theorem reached_reading : Reached .recv [.checked false, .iteration, .call] reading := by
  have hfresh : Reached .recv [] fresh := .start rfl
  have hstart := hfresh.next (.start true rfl)
  have hwaits := hstart.next (.work ⟨true, true, false⟩ rfl)
  have hstarted := hwaits.next (.started rfl)
  exact hstarted.next (.work (p := (reading, [.checked false, .iteration, .call])) ⟨true, true, false⟩ rfl)

/-- The owner stops it there. -/
theorem stops_observed_iff_reading : ∃ trace s, Reached .recv trace s ∧ .stop .inside ∈ trace ∧
    ∀ more s', Run (· = s) (Goes .recv) more s' → StopsObserved (trace ++ more) := by
  have hstop := reached_reading.next (.stop rfl)
  refine ⟨_, _, hstop, by decide, (stops_observed_iff hstop).mpr fun point hmem => .inr fun hnap => ?_⟩
  rw [hnap] at hmem
  revert hmem
  decide

/-- The owner stops it in the sleep behind its first frame, and it calls `readMessage` again. -/
theorem not_stops_observed_napping : ¬ ∀ h trace s, Reached h trace s → StopsObserved trace := by
  intro hall
  have hnaps := reached_reading.next (.work ⟨true, false, false⟩ rfl)
  have hstop := hnaps.next (.stop rfl)
  have hreads := hstop.next (.work ⟨true, true, false⟩ rfl)
  have hobserved := hall .recv _ _ hreads
  exact hobserved [.checked false, .iteration, .call, .stop .napping, .checked false] .iteration [.call] rfl
    ⟨.stop .napping, by decide, trivial⟩

end Worker

end LinkedonPush
