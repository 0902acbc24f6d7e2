import LinkedonPush.Theory.Run
import Mathlib.Logic.Function.Basic

/-!
# Starting and stopping a thread again and again

An `LPushThread` with any handler, and the thread that calls its `start` and its `stop` one after
another. Every start creates a worker of its own, and all of them work on the same six fields. Once a
`stop` has returned, the worker is gone.
-/

namespace LinkedonPush

open Theory

/-- The callbacks in the loop of `thread_cycle`. -/
inductive CyclePart where
  | onBeforeCycle
  | cycle
  | onEndCycle
deriving DecidableEq

inductive Callback where
  | onThreadStart
  | part (part : CyclePart)
  | onThreadStop
deriving DecidableEq

/-- Where a worker is in `thread_cycle`. -/
inductive ThreadPoint where
  | unborn
  | created
  /-- In the loop that waits for `can_run`. -/
  | awaiting
  /-- At the head of the loop. -/
  | head
  | inside (part : CyclePart)
  /-- At the label `failed`. -/
  | failed
  | ended
deriving DecidableEq

/-- In `thread_cycle`, with the cid set. -/
def ThreadPoint.Inside : ThreadPoint → Prop
  | .unborn | .created | .ended => False
  | _ => True

inductive OwnerPoint where
  | idle
  /-- In `start`, waiting for the cid. -/
  | starting
  /-- In `st_thread_join`. -/
  | joining
  /-- In `dispose`, waiting for `really_terminated`. -/
  | waiting
deriving DecidableEq

/-- The workers are numbered in the order of their creation. -/
structure ThreadLife where
  tid : Option Nat
  cid : Int
  loop : Bool
  canRun : Bool
  reallyTerminated : Bool
  disposed : Bool
  owner : OwnerPoint
  point : Nat → ThreadPoint
  births : Nat
  /-- The worker that runs, between two of its yields. -/
  processor : Option Nat

inductive LifeEvent where
  /-- `start` is called, and has created the worker. -/
  | start (created : Option Nat)
  | startReturned
  | stop
  | stopReturned
  | runs (worker : Nat) (callback : Callback)
deriving DecidableEq

/-- How a callback goes on. -/
inductive CallbackTurn where
  | yields
  | stopsLoop
  | returns (ok : Bool)

namespace ThreadLife

/-- After the constructor. -/
def init : ThreadLife := ⟨none, -1, false, false, true, false, .idle, fun _ => .unborn, 0, none⟩

abbrev Progress := ThreadLife × List LifeEvent

/-! ### `thread_cycle` -/

section worker

variable (n : Nat) (s : ThreadLife)

/-- The worker keeps the processor. -/
def goOn (point : ThreadPoint) : ThreadLife :=
  { s with point := Function.update s.point n point, processor := some n }

/-- The worker gives the processor away. -/
def leave (point : ThreadPoint) : ThreadLife :=
  { s with point := Function.update s.point n point, processor := none }

/-- Behind the loop. -/
def finish : Progress :=
  ({ s.leave n .ended with reallyTerminated := true, disposed := true }, [.runs n .onThreadStop])

/-- A callback has returned. -/
def returned (part : CyclePart) (ok : Bool) : ThreadLife :=
  if ok then
    match part with
    | .onBeforeCycle => s.goOn n (.inside .cycle)
    | .cycle => s.goOn n (.inside .onEndCycle)
    | .onEndCycle => s.goOn n .failed
  else s.goOn n .failed

def callback (part : CyclePart) : CallbackTurn → ThreadLife
  | .yields => s.leave n (.inside part)
  | .stopsLoop => { s.goOn n (.inside part) with loop := false }
  | .returns ok => s.returned n part ok

/-- The worker as far as the next point; `id` is what `generate_id` draws. -/
def work (interval : Bool) (id : Nat) (turn : CallbackTurn) : Option Progress :=
  match s.point n with
  | .unborn => none
  | .created =>
      some ({ s.goOn n .awaiting with cid := id, reallyTerminated := false }, [.runs n .onThreadStart])
  | .awaiting => some (if !s.canRun && s.loop then s.leave n .awaiting else s.goOn n .head, [])
  | .head => some (if s.loop then (s.goOn n (.inside .onBeforeCycle), []) else s.finish n)
  | .inside part => some (s.callback n part turn, [.runs n (.part part)])
  | .failed =>
      some <|
        if !s.loop then s.finish n
        else if interval then (s.leave n .head, [])
        else (s.goOn n .head, [])
  | .ended => none

end worker

/-! ### The owner -/

section owner

variable (joinable : Bool) (s : ThreadLife)

/-- The loop of `start` that waits for the cid, and what comes after it. -/
def ready : Progress :=
  if s.cid < 0 then ({ s with owner := .starting }, [])
  else ({ s with canRun := true, owner := .idle }, [.startReturned])

/-- `st_thread_create`, and the flags set for the worker it creates. -/
def create : ThreadLife :=
  { s with
    tid := some s.births
    point := Function.update s.point s.births .created
    births := s.births + 1
    disposed := false
    loop := true }

def start : Progress :=
  match s.tid with
  | some _ => (s, [.start none, .startReturned])
  | none => (s.create.ready.1, .start (some s.births) :: s.create.ready.2)

/-- `stop` behind `dispose`. -/
def stopped : Progress :=
  ({ s with cid := -1, canRun := false, tid := none, owner := .idle }, [.stopReturned])

/-- The loop of `dispose` that waits for the end of the worker, and what comes after it. -/
def await : Progress :=
  if s.reallyTerminated then { s with disposed := true }.stopped else ({ s with owner := .waiting }, [])

/-- `dispose` and the rest of `stop`. -/
def dispose : Progress :=
  if s.disposed then s.stopped
  else if joinable then ({ s with owner := .joining }, [])
  else s.await

def stop : Progress :=
  match s.tid with
  | none => (s, [.stop, .stopReturned])
  | some _ =>
      let stopping := { s with loop := false }
      ((stopping.dispose joinable).1, .stop :: (stopping.dispose joinable).2)

/-- The worker that `st_thread_join` waits for has ended. -/
def workerEnded : Bool := s.tid.any fun n => s.point n == .ended

end owner

/-! ### The interleavings -/

inductive Move where
  | start
  /-- The sleep of `start` is over. -/
  | started
  | stop
  /-- `st_thread_join` returns. -/
  | joined (error : Bool)
  /-- The sleep of `dispose` is over. -/
  | waited
  | work (n id : Nat) (turn : CallbackTurn)

section move

variable (joinable interval : Bool)

/-- The owner runs when no worker does, and a worker when no other one does. -/
def move : Move → ThreadLife → Option Progress
  | .start, s => if s.processor = none ∧ s.owner = .idle then some s.start else none
  | .started, s => if s.processor = none ∧ s.owner = .starting then some s.ready else none
  | .stop, s => if s.processor = none ∧ s.owner = .idle then some (s.stop joinable) else none
  | .joined error, s =>
      if s.processor = none ∧ s.owner = .joining ∧ (error || s.workerEnded) then some s.await else none
  | .waited, s => if s.processor = none ∧ s.owner = .waiting then some s.await else none
  | .work n id turn, s =>
      if s.processor = none ∨ s.processor = some n then s.work n interval id turn else none

def Step (s : ThreadLife) (shown : List LifeEvent) (s' : ThreadLife) : Prop :=
  ∃ m, move joinable interval m s = some (s', shown)

abbrev Reached : List LifeEvent → ThreadLife → Prop := Run (· = init) (Step joinable interval)

end move

/-! ### The promises of `stop` -/

/-- Created, and not at the end of `thread_cycle`. -/
def Alive (s : ThreadLife) (n : Nat) : Prop := s.point n ≠ .unborn ∧ s.point n ≠ .ended

/-- At most one worker is in `thread_cycle`. -/
def Exclusive (s : ThreadLife) : Prop := ∀ n m, s.Alive n → s.Alive m → n = m

/-- The calls after which callbacks may run. -/
def liveAfter (live : Bool) : LifeEvent → Bool
  | .start _ => true
  | .stopReturned => false
  | _ => live

/-- `start` was called, and no `stop` has returned since then. -/
def live (trace : List LifeEvent) : Bool := trace.foldl liveAfter false

/-- The worker an event is about. -/
def worker : LifeEvent → Option Nat
  | .start created => created
  | .runs n _ => some n
  | _ => none

/-- No callback runs from the return of a `stop` to the next `start`. -/
def Silent (trace : List LifeEvent) : Prop :=
  Throughout (fun before e => ∀ n callback, e = .runs n callback → live before = true) trace

/-- A `start` after the return of a `stop` creates a worker, and one that was not there before. -/
def Renewed (trace : List LifeEvent) : Prop :=
  Throughout (fun before e => ∀ created, e = .start created → live before = false →
    ∃ n, created = some n ∧ ∀ earlier ∈ before, worker earlier ≠ some n) trace

/-! ### What has been shown -/

/-- The trace of a thread with the current worker and the number of births. -/
structure Told (trace : List LifeEvent) (tid : Option Nat) (births : Nat) : Prop where
  live : live trace = tid.isSome
  known : ∀ e ∈ trace, ∀ n, worker e = some n → n < births
  silent : Silent trace
  renewed : Renewed trace

section told

variable {trace : List LifeEvent} {tid tid' : Option Nat} {births births' n : Nat} {e : LifeEvent}

theorem live_concat : live (trace ++ [e]) = liveAfter (live trace) e := by
  rw [live, List.foldl_append]
  rfl

theorem told_nil : Told [] none 0 where
  live := rfl
  known := fun _ hmem => (List.not_mem_nil hmem).elim
  silent := throughout_nil
  renewed := throughout_nil

theorem Told.next (htold : Told trace tid births) (hbirths : births ≤ births')
    (hlive : liveAfter tid.isSome e = tid'.isSome) (hknown : ∀ n, worker e = some n → n < births')
    (hsilent : ∀ n callback, e = .runs n callback → tid.isSome = true)
    (hrenewed : ∀ created, e = .start created → tid = none → created = some births) :
    Told (trace ++ [e]) tid' births' where
  live := by rw [live_concat, htold.live, hlive]
  known := by
    intro earlier hmem n hworker
    rcases List.mem_append.mp hmem with hmem | hmem
    · exact Nat.lt_of_lt_of_le (htold.known earlier hmem n hworker) hbirths
    · rw [List.mem_singleton.mp hmem] at hworker
      exact hknown n hworker
  silent := by
    refine throughout_append_singleton.mpr ⟨htold.silent, ?_⟩
    intro n callback he
    rw [htold.live]
    exact hsilent n callback he
  renewed := by
    refine throughout_append_singleton.mpr ⟨htold.renewed, ?_⟩
    intro created he hlive
    rw [htold.live, Option.isSome_eq_false_iff, Option.isNone_iff_eq_none] at hlive
    refine ⟨births, hrenewed created he hlive, ?_⟩
    intro earlier hmem hworker
    have hlt : births < births := htold.known earlier hmem births hworker
    exact Nat.lt_irrefl births hlt

theorem Told.start (htold : Told trace none births) :
    Told (trace ++ [.start (some births)]) (some births) (births + 1) := by
  refine htold.next (Nat.le_succ births) rfl ?_ ?_ ?_
  · intro n hworker
    obtain rfl := Option.some.inj hworker
    exact Nat.lt_succ_self _
  · intro n callback he
    cases he
  · intro created he _
    exact (LifeEvent.start.inj he).symm

theorem Told.startAgain (htold : Told trace (some n) births) :
    Told (trace ++ [.start none]) (some n) births := by
  refine htold.next (Nat.le_refl births) rfl ?_ ?_ ?_
  · intro m hworker
    cases hworker
  · intro m callback _
    rfl
  · intro created _ hnone
    cases hnone

theorem Told.runs {callback : Callback} (htold : Told trace (some n) births) (hn : n < births) :
    Told (trace ++ [.runs n callback]) (some n) births := by
  refine htold.next (Nat.le_refl births) rfl ?_ ?_ ?_
  · intro m hworker
    obtain rfl := Option.some.inj hworker
    exact hn
  · intro m callback _
    rfl
  · intro created he
    cases he

theorem Told.startReturned (htold : Told trace tid births) : Told (trace ++ [.startReturned]) tid births :=
  htold.next (Nat.le_refl births) rfl (by intro _ h; cases h) (by intro _ _ h; cases h) (by intro _ h; cases h)

theorem Told.stop (htold : Told trace tid births) : Told (trace ++ [.stop]) tid births :=
  htold.next (Nat.le_refl births) rfl (by intro _ h; cases h) (by intro _ _ h; cases h) (by intro _ h; cases h)

theorem Told.stopReturned (htold : Told trace tid births) : Told (trace ++ [.stopReturned]) none births :=
  htold.next (Nat.le_refl births) rfl (by intro _ h; cases h) (by intro _ _ h; cases h) (by intro _ h; cases h)

end told

/-! ### Flags and points -/

/-- The flags of a worker in its loop, all but `loop` and `can_run`. -/
structure Cycling (s : ThreadLife) (n : Nat) : Prop where
  tid : s.tid = some n
  owner : s.owner ≠ .starting
  terminated : s.reallyTerminated = false
  disposed : s.disposed = false

/-- Which flags hold at which points: `really_terminated` is wrong only while `start` waits for the
cid, and `disposed` is true only behind the loop. -/
inductive Stage (s : ThreadLife) : Prop where
  | gone (htid : s.tid = none) (howner : s.owner = .idle) (hcid : s.cid < 0) (hcanRun : s.canRun = false)
  | born (n : Nat) (htid : s.tid = some n) (howner : s.owner = .starting) (hpoint : s.point n = .created)
      (hcid : s.cid < 0) (hcanRun : s.canRun = false) (hloop : s.loop = true) (hdisposed : s.disposed = false)
  | held (n : Nat) (htid : s.tid = some n) (howner : s.owner = .starting) (hpoint : s.point n = .awaiting)
      (hcanRun : s.canRun = false) (hloop : s.loop = true) (hterminated : s.reallyTerminated = false)
      (hdisposed : s.disposed = false)
  | cycling (n : Nat) (hcycling : s.Cycling n) (hpoint : (s.point n).Inside)
  | finished (n : Nat) (htid : s.tid = some n) (howner : s.owner ≠ .starting) (hpoint : s.point n = .ended)
      (hterminated : s.reallyTerminated = true) (hdisposed : s.disposed = true)

/-- All workers but the current one have ended. -/
structure Shape (s : ThreadLife) : Prop where
  stage : s.Stage
  others : ∀ n, s.tid ≠ some n → s.point n = if n < s.births then .ended else .unborn
  current : ∀ n, s.tid = some n → n < s.births

structure Sound (trace : List LifeEvent) (s : ThreadLife) : Prop where
  shape : s.Shape
  told : Told trace s.tid s.births

theorem sound_init : Sound [] init where
  shape :=
    { stage := .gone rfl rfl (by decide) rfl
      others := fun _ _ => rfl
      current := fun _ h => by cases h }
  told := told_nil

section shape

variable {s s' : ThreadLife} {n : Nat} {trace : List LifeEvent}

/-- Only the current worker is alive. -/
theorem Shape.alive (hshape : s.Shape) (halive : s.Alive n) : s.tid = some n := by
  by_contra hother
  have hpoint : s.point n = if n < s.births then .ended else .unborn := hshape.others n hother
  split at hpoint
  · exact halive.2 hpoint
  · exact halive.1 hpoint

/-- A step at which nobody is born and only the current worker moves. -/
theorem Shape.next (hshape : s.Shape) (hstage : s'.Stage) (htid : s'.tid = s.tid) (hbirths : s'.births = s.births)
    (hpoint : ∀ m, s.tid ≠ some m → s'.point m = s.point m) : s'.Shape where
  stage := hstage
  others := by
    intro m hm
    rw [htid] at hm
    rw [hpoint m hm, hbirths]
    exact hshape.others m hm
  current := by
    rw [htid, hbirths]
    exact hshape.current

/-! ### The steps of the worker -/

theorem update_other {point : ThreadPoint} {m : Nat} (htid : s.tid = some n) (hm : s.tid ≠ some m) :
    Function.update s.point n point m = s.point m := by
  apply Function.update_of_ne
  rintro rfl
  exact hm htid

/-- What holds after a step of the current worker. -/
structure Works (s : ThreadLife) (n : Nat) (p : Progress) : Prop where
  stage : p.1.Stage
  tid : p.1.tid = s.tid
  births : p.1.births = s.births
  point : ∀ m, s.tid ≠ some m → p.1.point m = s.point m
  shown : p.2 = [] ∨ ∃ callback, p.2 = [.runs n callback]

theorem Sound.works {p : Progress} (hsound : Sound trace s) (htid : s.tid = some n) (hworks : s.Works n p) :
    Sound (trace ++ p.2) p.1 where
  shape := hsound.shape.next hworks.stage hworks.tid hworks.births hworks.point
  told := by
    have htold : Told trace (some n) s.births := by
      rw [← htid]
      exact hsound.told
    rw [hworks.tid, hworks.births, htid]
    rcases hworks.shown with hshown | ⟨callback, hshown⟩
    · rw [hshown, List.append_nil]
      exact htold
    · rw [hshown]
      exact htold.runs (hsound.shape.current n htid)

end shape

section works

variable {s : ThreadLife} {n id : Nat} {trace shown : List LifeEvent} {turn : CallbackTurn} {interval : Bool}
  {p : Progress}

theorem works_move {s' : ThreadLife} (point : ThreadPoint) (hcycling : s.Cycling n) (hpoint : point.Inside)
    (hs' : s'.Cycling n) (hmoved : s'.point = Function.update s.point n point) (hbirths : s'.births = s.births)
    (hshown : shown = [] ∨ ∃ callback, shown = [.runs n callback]) : s.Works n (s', shown) where
  stage := by
    refine .cycling n hs' ?_
    rw [hmoved, Function.update_self]
    exact hpoint
  tid := hs'.tid.trans hcycling.tid.symm
  births := hbirths
  point := by
    intro m hm
    change s'.point m = s.point m
    rw [hmoved]
    exact update_other hcycling.tid hm
  shown := hshown

theorem works_goOn {point : ThreadPoint} (hcycling : s.Cycling n) (hpoint : point.Inside)
    (hshown : shown = [] ∨ ∃ callback, shown = [.runs n callback]) : s.Works n (s.goOn n point, shown) :=
  works_move point hcycling hpoint { hcycling with } rfl rfl hshown

theorem works_leave {point : ThreadPoint} (hcycling : s.Cycling n) (hpoint : point.Inside)
    (hshown : shown = [] ∨ ∃ callback, shown = [.runs n callback]) : s.Works n (s.leave n point, shown) :=
  works_move point hcycling hpoint { hcycling with } rfl rfl hshown

theorem works_finish (hcycling : s.Cycling n) : s.Works n (s.finish n) where
  stage := by
    refine .finished n hcycling.tid hcycling.owner ?_ rfl rfl
    change Function.update s.point n .ended n = .ended
    rw [Function.update_self]
  tid := rfl
  births := rfl
  point := fun _ hm => update_other hcycling.tid hm
  shown := .inr ⟨_, rfl⟩

theorem works_returned {part : CyclePart} {ok : Bool} (hcycling : s.Cycling n)
    (hshown : shown = [] ∨ ∃ callback, shown = [.runs n callback]) : s.Works n (s.returned n part ok, shown) := by
  unfold returned
  split
  · cases part with
    | onBeforeCycle | cycle | onEndCycle => exact works_goOn hcycling trivial hshown
  · exact works_goOn hcycling trivial hshown

theorem works_callback {part : CyclePart} (hcycling : s.Cycling n) :
    s.Works n (s.callback n part turn, [.runs n (.part part)]) := by
  have hshown : [LifeEvent.runs n (.part part)] = [] ∨
      ∃ callback, [LifeEvent.runs n (.part part)] = [.runs n callback] := .inr ⟨_, rfl⟩
  cases turn with
  | yields => exact works_leave hcycling trivial hshown
  | stopsLoop => exact works_move (.inside part) hcycling trivial { hcycling with } rfl rfl hshown
  | returns ok => exact works_returned hcycling hshown

/-- A worker in its loop stays there or comes to its end. -/
theorem works_cycling (hcycling : s.Cycling n) (hpoint : (s.point n).Inside)
    (hwork : s.work n interval id turn = some p) : s.Works n p := by
  unfold work at hwork
  cases hs : s.point n with
  | unborn | created | ended =>
      rw [hs] at hpoint
      exact hpoint.elim
  | awaiting =>
      rw [hs] at hwork
      obtain rfl := Option.some.inj hwork
      split
      · exact works_leave hcycling trivial (.inl rfl)
      · exact works_goOn hcycling trivial (.inl rfl)
  | head =>
      rw [hs] at hwork
      obtain rfl := Option.some.inj hwork
      split
      · exact works_goOn hcycling trivial (.inl rfl)
      · exact works_finish hcycling
  | inside part =>
      rw [hs] at hwork
      obtain rfl := Option.some.inj hwork
      exact works_callback hcycling
  | failed =>
      rw [hs] at hwork
      obtain rfl := Option.some.inj hwork
      split
      · exact works_finish hcycling
      · split
        · exact works_leave hcycling trivial (.inl rfl)
        · exact works_goOn hcycling trivial (.inl rfl)

theorem works_born (htid : s.tid = some n) (howner : s.owner = .starting) (hpoint : s.point n = .created)
    (hcanRun : s.canRun = false) (hloop : s.loop = true) (hdisposed : s.disposed = false)
    (hwork : s.work n interval id turn = some p) : s.Works n p := by
  rw [work, hpoint] at hwork
  obtain rfl := Option.some.inj hwork
  have hawaiting : Function.update s.point n .awaiting n = ThreadPoint.awaiting := Function.update_self ..
  have hstage : Stage { s.goOn n .awaiting with cid := id, reallyTerminated := false } :=
    .held n htid howner hawaiting hcanRun hloop rfl hdisposed
  exact ⟨hstage, rfl, rfl, fun _ hm => update_other htid hm, .inr ⟨_, rfl⟩⟩

/-- While `start` waits for the cid, the worker waits for `can_run`. -/
theorem works_held (htid : s.tid = some n) (howner : s.owner = .starting) (hpoint : s.point n = .awaiting)
    (hcanRun : s.canRun = false) (hloop : s.loop = true) (hterminated : s.reallyTerminated = false)
    (hdisposed : s.disposed = false) (hwork : s.work n interval id turn = some p) : s.Works n p := by
  rw [work, hpoint] at hwork
  obtain rfl := Option.some.inj hwork
  rw [hcanRun, hloop]
  have hawaiting : Function.update s.point n .awaiting n = ThreadPoint.awaiting := Function.update_self ..
  have hstage : (s.leave n .awaiting).Stage :=
    .held n htid howner hawaiting hcanRun hloop hterminated hdisposed
  exact ⟨hstage, rfl, rfl, fun _ hm => update_other htid hm, .inl rfl⟩

theorem alive_of_work (hwork : s.work n interval id turn = some p) : s.Alive n := by
  constructor
  · intro hpoint
    rw [work, hpoint] at hwork
    cases hwork
  · intro hpoint
    rw [work, hpoint] at hwork
    cases hwork

theorem Shape.works (hshape : s.Shape) (hwork : s.work n interval id turn = some p) : s.Works n p := by
  have halive : s.Alive n := alive_of_work hwork
  have hcurrent : s.tid = some n := hshape.alive halive
  cases hshape.stage with
  | gone htid =>
      rw [htid] at hcurrent
      cases hcurrent
  | born m htid howner hpoint _ hcanRun hloop hdisposed =>
      obtain rfl : m = n := Option.some.inj (htid.symm.trans hcurrent)
      exact works_born htid howner hpoint hcanRun hloop hdisposed hwork
  | held m htid howner hpoint hcanRun hloop hterminated hdisposed =>
      obtain rfl : m = n := Option.some.inj (htid.symm.trans hcurrent)
      exact works_held htid howner hpoint hcanRun hloop hterminated hdisposed hwork
  | cycling m hcycling hpoint =>
      obtain rfl : m = n := Option.some.inj (hcycling.tid.symm.trans hcurrent)
      exact works_cycling hcycling hpoint hwork
  | finished m htid _ hpoint =>
      obtain rfl : m = n := Option.some.inj (htid.symm.trans hcurrent)
      exact absurd hpoint halive.2

end works

/-! ### The steps of the owner -/

section owner

variable {s : ThreadLife} {n : Nat} {trace : List LifeEvent} {joinable : Bool}

/-- A step of the owner that shows nothing. -/
theorem Sound.owner {s' : ThreadLife} (hsound : Sound trace s) (hstage : s'.Stage) (htid : s'.tid = s.tid)
    (hbirths : s'.births = s.births) (hpoint : s'.point = s.point) : Sound trace s' where
  shape := hsound.shape.next hstage htid hbirths fun m _ => congrFun hpoint m
  told := by
    rw [htid, hbirths]
    exact hsound.told

theorem start_of_some (htid : s.tid = some n) : s.start = (s, [.start none, .startReturned]) := by
  rw [start, htid]

theorem start_of_none (htid : s.tid = none) (hcid : s.cid < 0) :
    s.start = ({ s.create with owner := .starting }, [.start (some s.births)]) := by
  have hready : s.create.ready = ({ s.create with owner := .starting }, []) := if_pos hcid
  rw [start, htid, hready]

theorem Shape.create (hshape : s.Shape) (htid : s.tid = none) (hcid : s.cid < 0) (hcanRun : s.canRun = false) :
    Shape { s.create with owner := .starting } where
  stage := by
    have hcreated : Function.update s.point s.births .created s.births = ThreadPoint.created :=
      Function.update_self ..
    exact .born s.births rfl rfl hcreated hcid hcanRun rfl rfl
  others := by
    intro m hm
    have hne : m ≠ s.births := by
      rintro rfl
      exact hm rfl
    have hgone : s.tid ≠ some m := by
      rw [htid]
      exact Option.some_ne_none m |>.symm
    change Function.update s.point s.births .created m = if m < s.births + 1 then .ended else .unborn
    rw [Function.update_of_ne hne, hshape.others m hgone]
    have hiff : m < s.births ↔ m < s.births + 1 := by omega
    simp only [hiff]
  current := by
    intro m hm
    obtain rfl : s.births = m := Option.some.inj hm
    exact Nat.lt_succ_self s.births

theorem Stage.gone_of_none (hstage : s.Stage) (htid : s.tid = none) : s.cid < 0 ∧ s.canRun = false := by
  cases hstage with
  | gone _ _ hcid hcanRun => exact ⟨hcid, hcanRun⟩
  | born m hsome | held m hsome | finished m hsome =>
      rw [htid] at hsome
      cases hsome
  | cycling m hcycling =>
      have hsome : s.tid = some m := hcycling.tid
      rw [htid] at hsome
      cases hsome

theorem Sound.start (hsound : Sound trace s) : Sound (trace ++ s.start.2) s.start.1 := by
  have htold : Told trace s.tid s.births := hsound.told
  cases htid : s.tid with
  | some n =>
      rw [htid] at htold
      rw [start_of_some htid, List.append_cons]
      refine ⟨hsound.shape, ?_⟩
      rw [htid]
      exact htold.startAgain.startReturned
  | none =>
      rw [htid] at htold
      obtain ⟨hcid, hcanRun⟩ := hsound.shape.stage.gone_of_none htid
      rw [start_of_none htid hcid]
      exact ⟨hsound.shape.create htid hcid hcanRun, htold.start⟩

/-- When `start` looks for the cid again. -/
theorem Sound.ready (hsound : Sound trace s) (howner : s.owner = .starting) :
    Sound (trace ++ s.ready.2) s.ready.1 := by
  unfold ThreadLife.ready
  cases hsound.shape.stage with
  | gone _ hidle =>
      rw [howner] at hidle
      cases hidle
  | born n htid _ hpoint hcid hcanRun hloop hdisposed =>
      rw [if_pos hcid, List.append_nil]
      exact hsound.owner (.born n htid rfl hpoint hcid hcanRun hloop hdisposed) rfl rfl rfl
  | held n htid _ hpoint hcanRun hloop hterminated hdisposed =>
      split
      · rw [List.append_nil]
        exact hsound.owner (.held n htid rfl hpoint hcanRun hloop hterminated hdisposed) rfl rfl rfl
      · have hinside : (s.point n).Inside := by
          rw [hpoint]
          trivial
        have hcycling : Cycling { s with canRun := true, owner := .idle } n :=
          ⟨htid, OwnerPoint.noConfusion, hterminated, hdisposed⟩
        have hnext : Sound trace { s with canRun := true, owner := .idle } :=
          hsound.owner (.cycling n hcycling hinside) rfl rfl rfl
        exact ⟨hnext.shape, hnext.told.startReturned⟩
  | cycling n hcycling => exact absurd howner hcycling.owner
  | finished n _ hstarted => exact absurd howner hstarted

/-- Where the current worker may be while `stop` works. -/
theorem Stage.stopping (hstage : s.Stage) (htid : s.tid = some n) (howner : s.owner ≠ .starting) :
    (s.Cycling n ∧ (s.point n).Inside) ∨
      (s.point n = .ended ∧ s.reallyTerminated = true ∧ s.disposed = true) := by
  cases hstage with
  | gone hnone =>
      rw [htid] at hnone
      cases hnone
  | born m _ hstarting | held m _ hstarting => exact absurd hstarting howner
  | cycling m hcycling hpoint =>
      obtain rfl : m = n := Option.some.inj (hcycling.tid.symm.trans htid)
      exact .inl ⟨hcycling, hpoint⟩
  | finished m hsome _ hpoint hterminated hdisposed =>
      obtain rfl : m = n := Option.some.inj (hsome.symm.trans htid)
      exact .inr ⟨hpoint, hterminated, hdisposed⟩

/-- The current worker may be forgotten when it has ended. -/
theorem Sound.stopped (hsound : Sound trace s) (htid : s.tid = some n) (hpoint : s.point n = .ended) :
    Sound (trace ++ s.stopped.2) s.stopped.1 where
  shape :=
    { stage := by
        have hcid : (-1 : Int) < 0 := by decide
        exact .gone rfl rfl hcid rfl
      others := by
        intro m _
        change s.point m = if m < s.births then .ended else .unborn
        by_cases hm : s.tid = some m
        · obtain rfl : n = m := Option.some.inj (htid.symm.trans hm)
          rw [hpoint, if_pos (hsound.shape.current n htid)]
        · exact hsound.shape.others m hm
      current := by
        intro m hm
        cases hm }
  told := hsound.told.stopReturned

/-- `stop` waits for a worker in its loop. -/
theorem Sound.blocks (owner : OwnerPoint) (hsound : Sound trace s) (hcycling : s.Cycling n)
    (hpoint : (s.point n).Inside) (howner : owner ≠ .starting) : Sound trace { s with owner := owner } := by
  have hblocked : Cycling { s with owner := owner } n :=
    ⟨hcycling.tid, howner, hcycling.terminated, hcycling.disposed⟩
  exact hsound.owner (.cycling n hblocked hpoint) rfl rfl rfl

theorem Sound.await (hsound : Sound trace s) (htid : s.tid = some n) (howner : s.owner ≠ .starting) :
    Sound (trace ++ s.await.2) s.await.1 := by
  rcases hsound.shape.stage.stopping htid howner with ⟨hcycling, hpoint⟩ | ⟨hpoint, hterminated, hdisposed⟩
  · have hawait : s.await = ({ s with owner := .waiting }, []) := by
      rw [ThreadLife.await, if_neg (ne_true_of_eq_false hcycling.terminated)]
    rw [hawait, List.append_nil]
    exact hsound.blocks .waiting hcycling hpoint OwnerPoint.noConfusion
  · have hawait : s.await = { s with disposed := true }.stopped := if_pos hterminated
    have hdone : Sound trace { s with disposed := true } :=
      hsound.owner (.finished n htid howner hpoint hterminated rfl) rfl rfl rfl
    rw [hawait]
    exact hdone.stopped htid hpoint

theorem Sound.dispose (hsound : Sound trace s) (htid : s.tid = some n) (howner : s.owner ≠ .starting) :
    Sound (trace ++ (s.dispose joinable).2) (s.dispose joinable).1 := by
  unfold ThreadLife.dispose
  rcases hsound.shape.stage.stopping htid howner with ⟨hcycling, hpoint⟩ | ⟨hpoint, hterminated, hdisposed⟩
  · rw [if_neg (ne_true_of_eq_false hcycling.disposed)]
    split
    · rw [List.append_nil]
      exact hsound.blocks .joining hcycling hpoint OwnerPoint.noConfusion
    · exact hsound.await htid howner
  · rw [if_pos hdisposed]
    exact hsound.stopped htid hpoint

/-- `stop` clears `loop` before anything else. -/
theorem Sound.stops (hsound : Sound trace s) (htid : s.tid = some n) (howner : s.owner = .idle) :
    Sound (trace ++ [.stop]) { s with loop := false } := by
  have hstarted : s.owner ≠ .starting := by
    rw [howner]
    exact OwnerPoint.noConfusion
  have hstage : Stage { s with loop := false } := by
    have hcases := hsound.shape.stage.stopping htid hstarted
    rcases hcases with ⟨hcycling, hpoint⟩ | ⟨hpoint, hterminated, hdisposed⟩
    · exact .cycling n { hcycling with } hpoint
    · exact .finished n htid hstarted hpoint hterminated hdisposed
  have hcleared : Sound trace { s with loop := false } := hsound.owner hstage rfl rfl rfl
  exact ⟨hcleared.shape, hcleared.told.stop⟩

theorem Sound.stop (hsound : Sound trace s) (howner : s.owner = .idle) :
    Sound (trace ++ (s.stop joinable).2) (s.stop joinable).1 := by
  cases htid : s.tid with
  | none =>
      have hstop : s.stop joinable = (s, [.stop, .stopReturned]) := by
        rw [ThreadLife.stop, htid]
      rw [hstop, List.append_cons]
      refine ⟨hsound.shape, ?_⟩
      rw [htid]
      exact hsound.told.stop.stopReturned
  | some n =>
      have hstop : s.stop joinable = (({ s with loop := false }.dispose joinable).1,
          .stop :: ({ s with loop := false }.dispose joinable).2) := by
        rw [ThreadLife.stop, htid]
      have hidle : s.owner ≠ .starting := by
        rw [howner]
        exact OwnerPoint.noConfusion
      rw [hstop, List.append_cons]
      exact (hsound.stops htid howner).dispose htid hidle

end owner

/-! ### The moves -/

/-- What a move comes to, and for which owner. -/
inductive Moved (joinable interval : Bool) (s : ThreadLife) : Move → Progress → Prop where
  | start (howner : s.owner = .idle) : Moved joinable interval s .start s.start
  | started (howner : s.owner = .starting) : Moved joinable interval s .started s.ready
  | stop (howner : s.owner = .idle) : Moved joinable interval s .stop (s.stop joinable)
  | joined (error : Bool) (howner : s.owner = .joining) (hreturns : (error || s.workerEnded) = true) :
      Moved joinable interval s (.joined error) s.await
  | waited (howner : s.owner = .waiting) : Moved joinable interval s .waited s.await
  | work (n id : Nat) (turn : CallbackTurn) {p : Progress} (hwork : s.work n interval id turn = some p) :
      Moved joinable interval s (.work n id turn) p

theorem moved_of_move {joinable interval : Bool} {m : Move} {s : ThreadLife} {p : Progress}
    (hmove : move joinable interval m s = some p) : Moved joinable interval s m p := by
  cases m with
  | start =>
      obtain ⟨⟨_, howner⟩, hp⟩ := Option.ite_none_right_eq_some.mp hmove
      obtain rfl := Option.some.inj hp
      exact .start howner
  | started =>
      obtain ⟨⟨_, howner⟩, hp⟩ := Option.ite_none_right_eq_some.mp hmove
      obtain rfl := Option.some.inj hp
      exact .started howner
  | stop =>
      obtain ⟨⟨_, howner⟩, hp⟩ := Option.ite_none_right_eq_some.mp hmove
      obtain rfl := Option.some.inj hp
      exact .stop howner
  | joined error =>
      obtain ⟨⟨_, howner, hreturns⟩, hp⟩ := Option.ite_none_right_eq_some.mp hmove
      obtain rfl := Option.some.inj hp
      exact .joined error howner hreturns
  | waited =>
      obtain ⟨⟨_, howner⟩, hp⟩ := Option.ite_none_right_eq_some.mp hmove
      obtain rfl := Option.some.inj hp
      exact .waited howner
  | work n id turn =>
      obtain ⟨_, hwork⟩ := Option.ite_none_right_eq_some.mp hmove
      exact .work n id turn hwork

/-! ### Runs -/

section runs

variable {joinable interval : Bool} {s s' : ThreadLife} {trace shown : List LifeEvent}

/-- Somebody waits in `stop`, so there is a current worker. -/
theorem Sound.busy (hsound : Sound trace s) (hidle : s.owner ≠ .idle) : ∃ n, s.tid = some n := by
  cases hsound.shape.stage with
  | gone _ howner => exact absurd howner hidle
  | born n htid | held n htid | finished n htid => exact ⟨n, htid⟩
  | cycling n hcycling => exact ⟨n, hcycling.tid⟩

theorem Sound.waited (hsound : Sound trace s) (howner : s.owner = .joining ∨ s.owner = .waiting) :
    Sound (trace ++ s.await.2) s.await.1 := by
  have hidle : s.owner ≠ .idle := by
    rcases howner with howner | howner <;> rw [howner] <;> exact OwnerPoint.noConfusion
  have hstarting : s.owner ≠ .starting := by
    rcases howner with howner | howner <;> rw [howner] <;> exact OwnerPoint.noConfusion
  obtain ⟨n, htid⟩ := hsound.busy hidle
  exact hsound.await htid hstarting

theorem Sound.moved {m : Move} {p : Progress} (hsound : Sound trace s) (hmoved : Moved joinable interval s m p) :
    Sound (trace ++ p.2) p.1 := by
  cases hmoved with
  | start howner => exact hsound.start
  | started howner => exact hsound.ready howner
  | stop howner => exact hsound.stop howner
  | joined error howner => exact hsound.waited (.inl howner)
  | waited howner => exact hsound.waited (.inr howner)
  | work n id turn hwork =>
      have hworks : s.Works n p := hsound.shape.works hwork
      have hcurrent : s.tid = some n := hsound.shape.alive (alive_of_work hwork)
      exact hsound.works hcurrent hworks

theorem Sound.step (hsound : Sound trace s) (hstep : ThreadLife.Step joinable interval s shown s') :
    Sound (trace ++ shown) s' := by
  obtain ⟨m, hmove⟩ := hstep
  exact hsound.moved (moved_of_move hmove)

theorem sound_of_run (hrun : Reached joinable interval trace s) : Sound trace s := by
  refine hrun.invariant Sound ?_ fun _ _ _ _ => Sound.step
  rintro _ rfl
  exact sound_init

/-- At most one worker is in `thread_cycle`, and none after `stop` has returned; no callback runs until
the next `start`, and that one creates a new worker. -/
theorem gone_after_stop (hrun : Reached joinable interval trace s) :
    s.Exclusive ∧ (live trace = false → ∀ n, ¬ s.Alive n) ∧ Silent trace ∧ Renewed trace := by
  have hsound : Sound trace s := sound_of_run hrun
  refine ⟨?_, ?_, hsound.told.silent, hsound.told.renewed⟩
  · intro n m hn hm
    have hboth : some n = some m := (hsound.shape.alive hn).symm.trans (hsound.shape.alive hm)
    exact Option.some.inj hboth
  · intro hlive n halive
    rw [hsound.told.live, hsound.shape.alive halive] at hlive
    cases hlive

/-- The join of the `stop` comes back with an error while the worker is in `cycle`. -/
def twoWorkers : List Move :=
  [.start, .work 0 100 .yields, .work 0 0 .yields, .started, .work 0 0 .yields, .work 0 0 .yields,
    .work 0 0 (.returns true), .work 0 0 .yields, .stop, .joined true, .work 0 0 (.returns false),
    .work 0 0 .yields, .waited, .start, .work 1 101 .yields]

def twoLives : List LifeEvent :=
  [.start (some 0), .runs 0 .onThreadStart, .startReturned, .runs 0 (.part .onBeforeCycle),
    .runs 0 (.part .cycle), .stop, .runs 0 (.part .cycle), .runs 0 .onThreadStop, .stopReturned,
    .start (some 1), .runs 1 .onThreadStart]

theorem reached_twoLives : ∃ s, Reached true true twoLives s := by
  have hplay : (play (move true true) twoWorkers init).map Prod.snd = some twoLives := by decide
  obtain ⟨⟨s, shown⟩, hs, rfl⟩ := Option.map_eq_some_iff.mp hplay
  exact ⟨s, Run.of_play (move true true) (fun m _ _ hmove => ⟨m, hmove⟩) hs⟩

theorem gone_after_stop_twoLives : ∃ s, Reached true true twoLives s ∧ s.Exclusive ∧
    (live twoLives = false → ∀ n, ¬ s.Alive n) ∧ Silent twoLives ∧ Renewed twoLives := by
  obtain ⟨s, hrun⟩ := reached_twoLives
  exact ⟨s, hrun, gone_after_stop hrun⟩

end runs

end ThreadLife

end LinkedonPush
