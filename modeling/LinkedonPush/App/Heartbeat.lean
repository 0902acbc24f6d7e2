import LinkedonPush.App.Clocks
import LinkedonPush.App.Schedule
import LinkedonPush.App.Stages

/-!
# The heartbeat timeout

`do_cycle` compares the times of two clocks: its own, read once before its loop, and the one that the
client writes into its frames. A run is observed at the moments that count for the comparison.
-/

namespace LinkedonPush

open Theory

namespace LPushConn

/-! ### Moments -/

inductive Moment where
  /-- Both thread objects exist. -/
  | active (now : Int)
  /-- `do_cycle` has read its clock and goes into its loop. -/
  | looping (now : Int)
  /-- A frame is handed to `forwardServer`. -/
  | frame (now : Int) (message : LPushChunk)
  /-- `do_cycle` returns. -/
  | returned (now : Int) (ret : Int)

/-- The server's clock. -/
def Moment.now : Moment → Int
  | .active now => now
  | .looping now => now
  | .frame now _ => now
  | .returned now _ => now

def Moment.of (now : Int) : Effect → Option Moment
  | .pushHistory _ _ => some (.active now)
  | .forward message => some (.frame now message)
  | .returned ret => some (.returned now ret)
  | _ => none

/-- The moments of a step from `c` to `c'`. -/
def moments (now : Int) (c : LPushConn) (effects : List Effect) (c' : LPushConn) : List Moment :=
  effects.filterMap (Moment.of now) ++ if !c.point.inLoop && c'.point.inLoop then [.looping now] else []

/-- The steps of a connection, showing their moments. -/
inductive Timed (surroundings : Env → Prop) : LPushConn → List Moment → LPushConn → Prop where
  | thread {c c' : LPushConn} {effects : List Effect} (env : Env) (w : World) (thread : ThreadName)
      (henv : surroundings env) (h : c.step env w thread = some (c', effects)) :
      Timed surroundings c (moments w.now c effects c') c'
  | queued {c c' : LPushConn} (msg : LPushWorkerMessage) (hrunning : c.crashed = false)
      (h : c.push msg = some c') : Timed surroundings c [] c'

/-- The runs of a connection, showing their moments. -/
abbrev TimedHistory (surroundings : Env → Prop) : List Moment → LPushConn → Prop :=
  Run Accepted (Timed surroundings)

/-! ### What the moments say -/

/-- When the sixty seconds of the next frame began, for a client whose clock is `d` ahead: with the
frame before it, or else when the connection became active. -/
def Moment.refer (d : Int) (start : Option Int) : Moment → Option Int
  | .active now => some (start.getD now)
  | .frame _ message => some (message.time - d)
  | _ => start

def reference (d : Int) (ms : List Moment) : Option Int := ms.foldl (Moment.refer d) none

/-- What `do_cycle` read from its clock, and the frames since. -/
def Moment.gather (since : Option (Int × List LPushChunk)) : Moment → Option (Int × List LPushChunk)
  | .looping now => some (now, [])
  | .frame _ message => since.map fun (start, frames) => (start, frames ++ [message])
  | _ => since

def since (ms : List Moment) : Option (Int × List LPushChunk) := ms.foldl Moment.gather none

/-- The client sends its frames at most sixty seconds apart, the first one at most sixty seconds
after the connection became active. -/
def Paced (d : Int) (ms : List Moment) : Prop :=
  Throughout (fun before o => ∀ now message, o = .frame now message →
    ∀ start, reference d before = some start → message.time - d ≤ start + 60) ms

/-- The first frame after `do_cycle` has read its clock shows at most sixty seconds more. -/
def OnTime (ms : List Moment) : Prop :=
  Throughout (fun before o => ∀ now message, o = .frame now message →
    ∀ start, since before = some (start, []) → message.time ≤ start + 60) ms

section traces

variable {d start now : Int} {ms : List Moment} {frames : List LPushChunk} {message : LPushChunk}

theorem reference_append (o : Moment) : reference d (ms ++ [o]) = o.refer d (reference d ms) :=
  List.foldl_append

theorem since_append (o : Moment) : since (ms ++ [o]) = o.gather (since ms) := List.foldl_append

/-- A reading with its frames is one with fewer frames, or a new one. -/
theorem since_frames (h : since (ms ++ [.frame now message]) = some (start, frames)) :
    ∃ frames', since ms = some (start, frames') ∧ frames = frames' ++ [message] := by
  rw [since_append] at h
  obtain ⟨⟨start', frames'⟩, hsince, heq⟩ := Option.map_eq_some_iff.mp h
  obtain ⟨rfl, rfl⟩ := Prod.mk.inj heq
  exact ⟨frames', hsince, rfl⟩

/-- The last frame since the reading is the last frame of all. -/
theorem reference_of_since (h : since ms = some (start, frames ++ [message])) :
    reference d ms = some (message.time - d) := by
  induction ms using List.reverseRecOn with
  | nil => cases h
  | append_singleton ms o ih =>
      rw [reference_append]
      cases o with
      | looping now =>
          rw [since_append, Moment.gather, Option.some.injEq, Prod.mk.injEq] at h
          exact absurd h.2.symm (List.append_ne_nil_of_right_ne_nil _ (List.cons_ne_nil _ _))
      | frame now last =>
          obtain ⟨frames', -, heq⟩ := since_frames h
          obtain ⟨-, hlast⟩ := List.append_inj' heq rfl
          rw [Moment.refer, (List.cons.inj hlast).1]
      | active now =>
          rw [since_append] at h
          rw [Moment.refer, ih h, Option.getD_some]
      | returned now ret =>
          rw [since_append] at h
          exact ih h

theorem OnTime.first {frames : List LPushChunk} (hontime : OnTime ms)
    (h : since ms = some (start, message :: frames)) :
    message.time ≤ start + 60 := by
  induction ms using List.reverseRecOn generalizing frames with
  | nil => cases h
  | append_singleton ms o ih =>
      obtain ⟨hbefore, hlegal⟩ := throughout_append_singleton.mp hontime
      rw [since_append] at h
      cases o with
      | looping now => cases h
      | frame now last =>
          rw [← since_append] at h
          obtain ⟨frames', hsince, heq⟩ := since_frames h
          cases frames' with
          | nil =>
              obtain ⟨rfl, -⟩ := List.cons.inj heq
              exact hlegal now message rfl start hsince
          | cons first frames' =>
              obtain ⟨rfl, -⟩ := List.cons.inj heq
              exact ih hbefore hsince
      | active now => exact ih hbefore h
      | returned now ret => exact ih hbefore h

end traces

/-! ### The two times -/

/-- The two times of a connection whose loop began at `start`, after these frames. -/
inductive Times (start : Int) : List LPushChunk → Int → Int → Prop where
  | unread : Times start [] start start
  | first (message : LPushChunk) : Times start [message] start message.time
  | later (frames : List LPushChunk) (message : LPushChunk) (before : Int) (hsome : frames ≠ [])
      (hpaced : message.time ≤ before + 60) : Times start (frames ++ [message]) before message.time

section times

variable {start before now : Int} {frames : List LPushChunk} {message : LPushChunk}

theorem Times.last (h : Times start frames before now) (hsome : frames ≠ []) :
    ∃ frames' message, frames = frames' ++ [message] ∧ now = message.time := by
  cases h with
  | unread => exact absurd rfl hsome
  | first message => exact ⟨[], message, rfl, rfl⟩
  | later frames message before hsome hpaced => exact ⟨frames, message, rfl, rfl⟩

/-- `forwardServer` moves both times on. -/
theorem Times.next (h : Times start frames before now) (hpaced : frames ≠ [] → message.time ≤ now + 60) :
    Times start (frames ++ [message]) now message.time := by
  by_cases hsome : frames = []
  · subst hsome
    have hunread : now = start := by
      generalize hnil : ([] : List LPushChunk) = frames at h
      cases h with
      | unread => rfl
      | first => cases hnil
      | later => exact absurd hnil.symm (List.append_ne_nil_of_right_ne_nil _ (List.cons_ne_nil _ _))
    rw [hunread]
    exact .first message
  · exact .later _ _ _ hsome (hpaced hsome)

/-- What the loop of `do_cycle` finds out. -/
theorem Times.late_iff (h : Times start frames before now) :
    lpHreatTimeoutUs < now - before ↔ ∃ message, frames = [message] ∧ start + 60 < message.time := by
  unfold lpHreatTimeoutUs
  cases h with
  | unread => simp
  | first message =>
      simp only [List.cons.injEq, and_true, exists_eq_left']
      omega
  | later frames message before hsome hpaced =>
      have hlong : ¬ ∃ message', frames ++ [message] = [message'] ∧ start + 60 < message'.time := by
        intro h
        obtain ⟨message', heq, -⟩ := h
        exact hsome (List.append_eq_singleton_iff.mp heq |>.elim And.left fun h => absurd h.2 (List.cons_ne_nil _ _))
      simp only [hlong, iff_false]
      omega

end times

/-! ### One step -/

/-- A moment that says nothing about the times. -/
def Moment.Plain : Moment → Prop
  | .active _ => True
  | .returned _ ret => ret ≠ errorConnHreatbeatTimeout
  | _ => False

/-- What a step means for the times. -/
inductive Beat (c : LPushConn) (shown : List Moment) (c' : LPushConn) : Prop where
  | away (hplain : ∀ o ∈ shown, o.Plain) (houtside : c'.point.Outside)
  | kept (hplain : ∀ o ∈ shown, o.Plain) (hpoint : c'.point = c.point)
      (hbefore : c'.beforeDataTime = c.beforeDataTime) (hnow : c'.nowDataTime = c.nowDataTime)
  | enters (now : Int) (more : List Moment) (hshown : shown = more ++ [.looping now])
      (hplain : ∀ o ∈ more, o.Plain) (hloop : c'.point.inLoop = true)
      (hbefore : c'.beforeDataTime = now) (hnow : c'.nowDataTime = now)
  | frame (now : Int) (message : LPushChunk) (first second : List Moment)
      (hshown : shown = first ++ .frame now message :: second) (hfirst : ∀ o ∈ first, o.Plain)
      (hsecond : ∀ o ∈ second, o.Plain) (hpoint : c'.point = c.point) (htimes : c'.crashed = false →
        c'.beforeDataTime = c.nowDataTime ∧ c'.nowDataTime = message.time)
  /-- The loop ends with the timeout. -/
  | late (now : Int) (hshown : shown = [.returned now errorConnHreatbeatTimeout]) (hloop : c.point.inLoop = true)
      (hlate : lpHreatTimeoutUs < c.nowDataTime - c.beforeDataTime) (houtside : c'.point.Outside)

section beat

variable {surroundings : Env → Prop} {env : Env} {w : World} {c c' : LPushConn} {p : Progress} {now : Int}
  {effects : List Effect} {shown ms : List Moment}

theorem plain_of_calm {score : Int} (h : Calm score effects) : ∀ o ∈ effects.filterMap (Moment.of now), o.Plain := by
  intro o ho
  obtain ⟨e, he, hof⟩ := List.mem_filterMap.mp ho
  have hcalm := h e he
  cases e with
  | forward message => exact hcalm.elim
  | returned ret =>
      cases hof
      exact hcalm
  | pushHistory address mie =>
      cases hof
      trivial
  | _ => cases hof

theorem moments_of_loop (hloop : (!c.point.inLoop && c'.point.inLoop) = false) :
    moments now c effects c' = effects.filterMap (Moment.of now) := by
  rw [moments, hloop]
  exact List.append_nil _

theorem filterMap_of_parting (h : ∀ e ∈ effects, Parting e) : effects.filterMap (Moment.of now) = [] := by
  refine List.filterMap_eq_nil_iff.mpr fun e he => ?_
  have hparting := h e he
  cases e with
  | destroyKey | deleteClient | close => rfl
  | _ => exact hparting.elim

theorem filterMap_finish (now : Int) (c : LPushConn) (ret : Int) :
    (c.finish ret).2.filterMap (Moment.of now) = [.returned now ret] := by
  unfold finish Progress.after
  rw [List.filterMap_append, filterMap_of_parting (parting_deleteTrd c).1, List.append_nil]
  cases c.mie <;> rfl

/-- The head of the loop of `do_cycle`. -/
theorem beat_poll (hloop : c.point.inLoop = true) (now : Int) :
    Beat c (moments now c c.poll.2 c.poll.1) c.poll.1 := by
  rw [moments_of_loop (by rw [hloop]; rfl)]
  unfold poll
  split
  · rw [filterMap_finish]
    refine .away (fun o ho => ?_) (finishes_finish c _).ends.outside
    rw [List.mem_singleton.mp ho]
    show errorSuccess ≠ errorConnHreatbeatTimeout
    decide
  · split
    · rename_i hlate
      rw [filterMap_finish]
      exact .late now rfl hloop hlate (finishes_finish c _).ends.outside
    · exact .kept (fun o ho => (List.not_mem_nil ho).elim) (point_of_inLoop hloop).symm rfl rfl

theorem beat_cycle (hplace : c.point.inLoop = true ∨ c.point.Outside) (hstep : c.cycle env w = some p) :
    Beat c (moments w.now c p.2 p.1) p.1 := by
  rcases hplace with hloop | houtside
  · rw [cycle_of_inLoop hloop hstep]
    exact beat_poll hloop w.now
  · cases fate_cycle houtside (cycle_spec hstep) with
    | away houtside' hhreat hcalm =>
        refine .away ?_ houtside'
        rw [moments_of_loop (by rw [houtside'.inLoop, Bool.and_false])]
        exact plain_of_calm hcalm
    | enters hloop hbefore hnow hhreat hcalm =>
        refine .enters w.now (p.2.filterMap (Moment.of w.now)) ?_ (plain_of_calm hcalm) hloop hbefore hnow
        rw [moments, houtside.inLoop, hloop]
        rfl

theorem moments_of_point (hpoint : c'.point = c.point) :
    moments now c effects c' = effects.filterMap (Moment.of now) := by
  apply moments_of_loop
  rw [hpoint]
  cases c.point.inLoop <;> rfl

theorem beat_of_kept (h : Kept c p) (now : Int) : Beat c (moments now c p.2 p.1) p.1 := by
  rw [moments_of_point h.point]
  exact .kept (plain_of_calm h.calm) h.point h.before h.now

theorem beat_of_tidings (h : Tidings c p) (now : Int) : Beat c (moments now c p.2 p.1) p.1 := by
  cases h with
  | kept hkept => exact beat_of_kept hkept now
  | frame message first second heffects hfirst hsecond hpoint hhreat htimes =>
      rw [moments_of_point hpoint, heffects, List.filterMap_append]
      exact .frame now message _ _ rfl (plain_of_calm hfirst) (plain_of_calm hsecond) hpoint htimes

/-- Every step of a connection. -/
theorem Timed.beat (hplace : c.point.inLoop = true ∨ c.point.Outside) (h : Timed surroundings c shown c') :
    c.crashed = false ∧ Beat c shown c' := by
  cases h with
  | thread env w thread henv hstep =>
      refine ⟨crashed_of_step hstep, ?_⟩
      unfold step at hstep
      rw [if_neg (by rw [crashed_of_step hstep]; exact Bool.false_ne_true)] at hstep
      cases thread with
      | cycle => exact beat_cycle hplace hstep
      | recv => exact beat_of_tidings (tidings_recv (recv_done hstep)) w.now
      | consum => exact beat_of_kept (kept_consum (consum_done hstep)) w.now
  | queued msg hrunning hpush =>
      obtain ⟨client, -, rfl⟩ := Option.map_eq_some_iff.mp hpush
      exact ⟨hrunning, .kept (fun o ho => (List.not_mem_nil ho).elim) rfl rfl rfl⟩

end beat

/-! ### Whole runs -/

section runs

variable {surroundings : Env → Prop} {c c' : LPushConn} {d start : Int} {ms shown more : List Moment}
  {frames : List LPushChunk} {message : LPushChunk}

theorem since_plain (hplain : ∀ o ∈ more, o.Plain) : since (ms ++ more) = since ms := by
  induction more using List.reverseRecOn with
  | nil => rw [List.append_nil]
  | append_singleton more o ih =>
      rw [List.forall_mem_append, List.forall_mem_singleton] at hplain
      rw [← List.append_assoc, since_append, ih hplain.1]
      cases o with
      | active | returned => rfl
      | looping | frame => exact hplain.2.elim

theorem reference_plain (hplain : ∀ o ∈ more, o.Plain) (h : reference d ms = some start) :
    reference d (ms ++ more) = some start := by
  induction more using List.reverseRecOn with
  | nil => rwa [List.append_nil]
  | append_singleton more o ih =>
      rw [List.forall_mem_append, List.forall_mem_singleton] at hplain
      rw [← List.append_assoc, reference_append, ih hplain.1]
      cases o with
      | active | returned => rfl
      | looping | frame => exact hplain.2.elim

/-- Whatever holds of a trace's every moment holds of its beginning. -/
theorem throughout_left {legal : List Moment → Moment → Prop} (h : Throughout legal (ms ++ shown)) :
    Throughout legal ms := (throughout_append.mp h).1

/-- What the two times are while the loop runs. -/
structure Beating (ms : List Moment) (c : LPushConn) : Prop where
  place : c.point.inLoop = true ∨ c.point.Outside
  times : c.crashed = false → c.point.inLoop = true →
    ∃ start frames, since ms = some (start, frames) ∧ Times start frames c.beforeDataTime c.nowDataTime

theorem beating_of_outside (houtside : c.point.Outside) : Beating ms c := by
  refine ⟨.inr houtside, fun _ hloop => ?_⟩
  rw [houtside.inLoop] at hloop
  cases hloop

theorem Beating.step (h : Beating ms c) (hrunning : c.crashed = false) (hbeat : Beat c shown c')
    (hpaced : Paced d (ms ++ shown)) : Beating (ms ++ shown) c' := by
  cases hbeat with
  | away hplain houtside => exact beating_of_outside houtside
  | late now hshown hloop hlate houtside => exact beating_of_outside houtside
  | kept hplain hpoint hbefore hnow =>
      refine ⟨by rw [hpoint]; exact h.place, fun _ hloop => ?_⟩
      rw [hpoint] at hloop
      obtain ⟨start, frames, hsince, hold⟩ := h.times hrunning hloop
      refine ⟨start, frames, by rw [since_plain hplain, hsince], ?_⟩
      rwa [hbefore, hnow]
  | enters now more hshown hplain hloop hbefore hnow =>
      refine ⟨.inl hloop, fun _ _ => ⟨now, [], ?_, ?_⟩⟩
      · rw [hshown, ← List.append_assoc, since_append]
        rfl
      · rw [hbefore, hnow]
        exact .unread
  | frame now message first second hshown hfirst hsecond hpoint htimes =>
      refine ⟨by rw [hpoint]; exact h.place, fun hrunning' hloop => ?_⟩
      rw [hpoint] at hloop
      obtain ⟨start, frames, hsince, hold⟩ := h.times hrunning hloop
      obtain ⟨hbefore, hnow⟩ := htimes hrunning'
      refine ⟨start, frames ++ [message], ?_, ?_⟩
      · rw [hshown, List.append_cons, ← List.append_assoc, ← List.append_assoc, since_plain hsecond, since_append,
          since_plain hfirst, hsince]
        rfl
      · rw [hbefore, hnow]
        refine hold.next fun hsome => ?_
        -- the frame before this one is the last of all
        obtain ⟨frames', last, rfl, hlast⟩ := hold.last hsome
        have hlegal := hpaced (ms ++ first) (.frame now message) second (by rw [hshown, List.append_assoc])
          now message rfl _ (reference_plain hfirst (reference_of_since hsince))
        omega

theorem beating (hrun : TimedHistory surroundings ms c) (hpaced : Paced d ms) : Beating ms c := by
  induction hrun with
  | start haccepted =>
      obtain ⟨stfd, beyond, rfl | rfl⟩ := haccepted
      · exact beating_of_outside trivial
      · exact beating_of_outside trivial
  | next before hstep ih =>
      have hbeating := ih (throughout_left hpaced)
      obtain ⟨hrunning, hbeat⟩ := hstep.beat hbeating.place
      exact hbeating.step hrunning hbeat hpaced

theorem not_mem_of_plain {now : Int} (hplain : ∀ o ∈ more, o.Plain) :
    .returned now errorConnHreatbeatTimeout ∉ more := fun hmem => hplain _ hmem rfl

/-- The loop looks at times that are too far apart after one frame only. -/
theorem Beating.late (h : Beating ms c) (hrunning : c.crashed = false) (hloop : c.point.inLoop = true) :
    lpHreatTimeoutUs < c.nowDataTime - c.beforeDataTime ↔
      ∃ start message, since ms = some (start, [message]) ∧ start + 60 < message.time := by
  obtain ⟨start, frames, hsince, htimes⟩ := h.times hrunning hloop
  rw [htimes.late_iff, hsince]
  constructor
  · intro h
    obtain ⟨message, rfl, hlate⟩ := h
    exact ⟨start, message, rfl, hlate⟩
  · intro h
    obtain ⟨start', message, heq, hlate⟩ := h
    obtain ⟨rfl, rfl⟩ := Prod.mk.inj (Option.some.inj heq)
    exact ⟨message, rfl, hlate⟩

theorem no_timeout (hrun : TimedHistory surroundings ms c) (hpaced : Paced d ms) (hontime : OnTime ms) (now : Int) :
    .returned now errorConnHreatbeatTimeout ∉ ms := by
  induction hrun with
  | start haccepted => exact List.not_mem_nil
  | next before hstep ih =>
      have hbeating := beating before (throughout_left hpaced)
      obtain ⟨hrunning, hbeat⟩ := hstep.beat hbeating.place
      rw [List.mem_append, not_or]
      refine ⟨ih (throughout_left hpaced) (throughout_left hontime), ?_⟩
      cases hbeat with
      | away hplain | kept hplain => exact not_mem_of_plain hplain
      | enters now' more hshown hplain =>
          rw [hshown, List.mem_append, not_or]
          exact ⟨not_mem_of_plain hplain, by simp⟩
      | frame now' message first second hshown hfirst hsecond =>
          rw [hshown, List.mem_append, List.mem_cons, not_or, not_or]
          exact ⟨not_mem_of_plain hfirst, by simp, not_mem_of_plain hsecond⟩
      | late now' hshown hloop hlate =>
          obtain ⟨start, message, hsince, hlate⟩ := (hbeating.late hrunning hloop).mp hlate
          have hfirst := OnTime.first (throughout_left hontime) hsince
          omega

/-- When the loop gives up. -/
theorem mem_poll : .returned errorConnHreatbeatTimeout ∈ c.poll.2 ↔
    c.dispose = false ∧ lpHreatTimeoutUs < c.nowDataTime - c.beforeDataTime := by
  have hcode : errorSuccess ≠ errorConnHreatbeatTimeout := by decide
  unfold poll
  split
  · rename_i hdispose
    rw [hdispose]
    simp only [Bool.true_eq_false, false_and, iff_false]
    intro hmem
    have hcalm : Calm 0 (c.finish errorSuccess).2 := calm_finish c hcode
    exact hcalm _ hmem rfl
  · rename_i hdispose
    rw [Bool.not_eq_true] at hdispose
    split
    · rename_i hlate
      exact iff_of_true (List.mem_append_left _ (List.mem_append_left _ List.mem_cons_self)) ⟨hdispose, hlate⟩
    · rename_i hlate
      exact iff_of_false List.not_mem_nil fun h => hlate h.2

/-! ### Clients whose clock is not ahead -/

/-- The server's clock never goes back, and no frame is handed on before it was sent. -/
def Causal (d : Int) (ms : List Moment) : Prop :=
  Throughout (fun before o => (∀ o' ∈ before, o'.now ≤ o.now) ∧
    ∀ now message, o = .frame now message → message.time - d ≤ now) ms

/-- The loop begins after the connection became active. -/
def Founded (d : Int) (ms : List Moment) : Prop :=
  Throughout (fun before o => ∀ now, o = .looping now → ∃ start, reference d before = some start) ms

theorem reference_of_active {now : Int} (hmem : .active now ∈ ms) : ∃ start, reference d ms = some start := by
  induction ms using List.reverseRecOn with
  | nil => exact (List.not_mem_nil hmem).elim
  | append_singleton ms o ih =>
      rw [reference_append]
      rw [List.mem_append, List.mem_singleton] at hmem
      obtain hmem | rfl := hmem
      · obtain ⟨start, hstart⟩ := ih hmem
        rw [hstart]
        cases o with
        | frame now' last => exact ⟨_, rfl⟩
        | active | looping | returned => exact ⟨start, rfl⟩
      · exact ⟨_, rfl⟩

theorem reference_le (hcausal : Causal d ms) (h : reference d ms = some start) : ∃ o ∈ ms, start ≤ o.now := by
  induction ms using List.reverseRecOn generalizing start with
  | nil => cases h
  | append_singleton ms o ih =>
      obtain ⟨hbefore, -, hsent⟩ := throughout_append_singleton.mp hcausal
      rw [reference_append] at h
      have hearlier (h : reference d ms = some start) : ∃ o' ∈ ms ++ [o], start ≤ o'.now := by
        obtain ⟨o', ho', hle⟩ := ih hbefore h
        exact ⟨o', List.mem_append_left _ ho', hle⟩
      have hmem : o ∈ ms ++ [o] := List.mem_append_right _ List.mem_cons_self
      cases o with
      | looping | returned => exact hearlier h
      | active now =>
          cases hreference : reference d ms with
          | none =>
              rw [hreference] at h
              obtain rfl := Option.some.inj h
              exact ⟨_, hmem, le_rfl⟩
          | some start' =>
              rw [hreference] at h
              obtain rfl := Option.some.inj h
              exact hearlier hreference
      | frame now last =>
          obtain rfl := Option.some.inj h
          exact ⟨_, hmem, hsent now last rfl⟩

/-- Until the first frame after the reading, the sixty seconds count from the reading at the latest. -/
theorem reference_le_since (hcausal : Causal d ms) (hfounded : Founded d ms) (h : since ms = some (start, [])) :
    ∃ r, reference d ms = some r ∧ r ≤ start := by
  induction ms using List.reverseRecOn with
  | nil => cases h
  | append_singleton ms o ih =>
      obtain ⟨hcausal', hclock, -⟩ := throughout_append_singleton.mp hcausal
      obtain ⟨hfounded', hfound⟩ := throughout_append_singleton.mp hfounded
      rw [reference_append]
      cases o with
      | looping now =>
          rw [since_append] at h
          obtain ⟨rfl, -⟩ := Prod.mk.inj (Option.some.inj h)
          obtain ⟨r, hr⟩ := hfound now rfl
          obtain ⟨o, ho, hle⟩ := reference_le hcausal' hr
          exact ⟨r, hr, hle.trans (hclock o ho)⟩
      | frame now last =>
          obtain ⟨frames', -, heq⟩ := since_frames h
          exact absurd heq.symm (List.append_ne_nil_of_right_ne_nil _ (List.cons_ne_nil _ _))
      | active now =>
          rw [since_append] at h
          obtain ⟨r, hr, hle⟩ := ih hcausal' hfounded' h
          exact ⟨r, by rw [hr]; rfl, hle⟩
      | returned now ret =>
          rw [since_append] at h
          exact ih hcausal' hfounded' h

/-- A run with its effects. -/
theorem TimedHistory.history (hrun : TimedHistory surroundings ms c) :
    ∃ trace, History surroundings trace c ∧
      ∀ address mie, .pushHistory address mie ∈ trace → ∃ now, .active now ∈ ms := by
  induction hrun with
  | start haccepted => exact ⟨[], .start haccepted, fun _ _ hmem => (List.not_mem_nil hmem).elim⟩
  | next before hstep ih =>
      obtain ⟨trace, hhistory, hactive⟩ := ih
      cases hstep with
      | thread env w thread henv hstep =>
          refine ⟨_, hhistory.next (.thread env w thread henv hstep), fun address mie hmem => ?_⟩
          rcases List.mem_append.mp hmem with hpast | hnow
          · obtain ⟨now, hmem⟩ := hactive address mie hpast
            exact ⟨now, List.mem_append_left _ hmem⟩
          · refine ⟨w.now, List.mem_append_right _ (List.mem_append_left _ ?_)⟩
            exact List.mem_filterMap.mpr ⟨_, hnow, rfl⟩
      | queued msg hrunning hpush =>
          refine ⟨_, hhistory.next (.queued msg hrunning hpush), fun address mie hmem => ?_⟩
          rcases List.mem_append.mp hmem with hpast | hnow
          · rw [List.append_nil]
            exact hactive address mie hpast
          · cases List.mem_singleton.mp hnow

variable {conf : LPushConfig}

theorem active_of_loop (hconf : ∀ env, surroundings env → env.conf = conf) (hrun : TimedHistory surroundings ms c)
    (hloop : c.point.inLoop = true) : ∃ now, .active now ∈ ms := by
  obtain ⟨trace, hhistory, hactive⟩ := TimedHistory.history hrun
  have hfiled := history_filed hconf hhistory
  have hrunning : c.point.phase = .running := by
    rw [point_of_inLoop hloop]
    rfl
  cases hfiled.requested with
  | unasked hmie htrace =>
      have hsome := hfiled.stage.late (.inl hrunning)
      rw [show c.record.mie = c.mie from rfl, hmie] at hsome
      cases hsome
  | queued address mie hmie hphase htrace =>
      apply hactive address mie
      have hmem : Effect.pushHistory address mie ∈ requests trace := by
        rw [htrace]
        exact List.mem_cons_self
      exact (List.mem_filter.mp hmem).1
  | dropped address mie hmie hphase htrace =>
      rw [hrunning] at hphase
      rcases hphase with hphase | hphase <;> cases hphase

theorem Founded.append (h : Founded d ms) (hmore : ∀ now, .looping now ∉ more) : Founded d (ms ++ more) := by
  refine throughout_append.mpr ⟨h, fun before o after heq now ho => ?_⟩
  rw [heq, ho] at hmore
  exact absurd (List.mem_append_right _ List.mem_cons_self) (hmore now)

theorem founded (hconf : ∀ env, surroundings env → env.conf = conf) (hrun : TimedHistory surroundings ms c)
    (hpaced : Paced d ms) : Founded d ms := by
  induction hrun with
  | start haccepted => exact throughout_nil
  | @next ms shown c c' before hstep ih =>
      have hfounded := ih (throughout_left hpaced)
      have hplain {more : List Moment} (hplain : ∀ o ∈ more, o.Plain) (now : Int) : .looping now ∉ more :=
        fun hmem => hplain _ hmem
      obtain ⟨-, hbeat⟩ := hstep.beat (beating before (throughout_left hpaced)).place
      cases hbeat with
      | away hmore | kept hmore => exact hfounded.append (hplain hmore)
      | enters now more hshown hmore hloop =>
          obtain ⟨start, hactive⟩ := active_of_loop hconf (before.next hstep) hloop
          rw [hshown, ← List.append_assoc] at hactive ⊢
          refine throughout_append_singleton.mpr ⟨hfounded.append (hplain hmore), fun _ _ => ?_⟩
          apply reference_of_active
          simpa using hactive
      | frame now message first second hshown hfirst hsecond =>
          apply hfounded.append
          intro now'
          rw [hshown, List.mem_append, List.mem_cons, not_or, not_or]
          exact ⟨hplain hfirst now', by simp, hplain hsecond now'⟩
      | late now hshown =>
          apply hfounded.append
          simp [hshown]

/-- **A clock that is not ahead is never too late.** -/
theorem onTime_of_behind (hconf : ∀ env, surroundings env → env.conf = conf) (hrun : TimedHistory surroundings ms c)
    (hpaced : Paced d ms) (hcausal : Causal d ms) (hbehind : d ≤ 0) : OnTime ms := by
  have hfounded := founded hconf hrun hpaced
  intro before o after heq now message ho start hsince
  have hbefore : ms = before ++ (o :: after) := heq
  rw [hbefore] at hcausal hfounded
  obtain ⟨r, hr, hle⟩ := reference_le_since (throughout_left hcausal) (throughout_left hfounded) hsince
  have hsent := hpaced before o after heq now message ho r hr
  omega

/-- A frame that the history hands on, or its end, is among the moments. -/
theorem exists_timed {trace : List Effect} (hrun : History surroundings trace c) :
    ∃ ms, TimedHistory surroundings ms c ∧ ∀ ret, .returned ret ∈ trace ↔ ∃ now, .returned now ret ∈ ms := by
  induction hrun with
  | start haccepted => exact ⟨[], .start haccepted, by simp⟩
  | @next trace effects c c' before hstep ih =>
      obtain ⟨ms, htimed, hreturned⟩ := ih
      cases hstep with
      | thread env w thread henv hstep =>
          refine ⟨_, htimed.next (.thread env w thread henv hstep), fun ret => ?_⟩
          have hnew : .returned ret ∈ effects ↔ ∃ now, .returned now ret ∈ moments w.now c effects c' := by
            constructor
            · intro hmem
              exact ⟨w.now, List.mem_append_left _ (List.mem_filterMap.mpr ⟨_, hmem, rfl⟩)⟩
            · intro h
              obtain ⟨now, hmem⟩ := h
              rcases List.mem_append.mp hmem with hmem | hmem
              · obtain ⟨e, he, hof⟩ := List.mem_filterMap.mp hmem
                cases e with
                | returned ret' =>
                    cases hof
                    exact he
                | _ => cases hof
              · split at hmem
                · cases List.mem_singleton.mp hmem
                · exact (List.not_mem_nil hmem).elim
          simp only [List.mem_append, hreturned ret, hnew, exists_or]
      | queued msg hrunning hpush =>
          refine ⟨_, htimed.next (.queued msg hrunning hpush), fun ret => ?_⟩
          simp [hreturned ret]

/-- **The heartbeat timeout.** For a client that sends its frames at most sixty seconds apart, the
connection ends with the timeout only if the loop looks while one frame has come since the clock was
read and shows more than sixty seconds more; and then it does. No client is late whose clock is not
ahead. -/
theorem heartbeat_timeout {setup : Setup} (hrun : TimedHistory (Server.Surroundings setup) ms c)
    (hpaced : Paced d ms) :
    (OnTime ms → ∀ now, .returned now errorConnHreatbeatTimeout ∉ ms) ∧
      (c.crashed = false → c.point.inLoop = true →
        (.returned errorConnHreatbeatTimeout ∈ c.poll.2 ↔ c.dispose = false ∧
          ∃ start message, since ms = some (start, [message]) ∧ start + 60 < message.time)) ∧
      (d ≤ 0 → Causal d ms → OnTime ms) := by
  refine ⟨fun hontime now => no_timeout hrun hpaced hontime now, fun hrunning hloop => ?_, fun hbehind hcausal => ?_⟩
  · rw [mem_poll, (beating hrun hpaced).late hrunning hloop]
  · exact onTime_of_behind (fun _ henv => henv.1) hrun hpaced hcausal hbehind

end runs

/-! ### A client one second ahead -/

/-- Thread steps one after the other, with their moments. -/
def playTimed (env : Env) : LPushConn → List (ThreadName × World) → Option (LPushConn × List Moment)
  | c, [] => some (c, [])
  | c, (thread, w) :: steps =>
      match c.step env w thread with
      | none => none
      | some (c', effects) =>
          (playTimed env c' steps).map fun (last, more) => (last, moments w.now c effects c' ++ more)

theorem timedHistory_of_play {env : Env} {surroundings : Env → Prop} {c : LPushConn} {ms : List Moment}
    (hrun : TimedHistory surroundings ms c) (henv : surroundings env)
    {steps : List (ThreadName × World)} {last : LPushConn} {more : List Moment}
    (h : playTimed env c steps = some (last, more)) : TimedHistory surroundings (ms ++ more) last := by
  induction steps generalizing c ms more with
  | nil =>
      cases h
      rwa [List.append_nil]
  | cons first steps ih =>
      obtain ⟨thread, w⟩ := first
      rw [playTimed] at h
      split at h
      · cases h
      · rename_i c' effects hstep
        obtain ⟨⟨last', more'⟩, hplay, heq⟩ := Option.map_eq_some_iff.mp h
        obtain ⟨rfl, rfl⟩ := Prod.mk.inj heq
        rw [← List.append_assoc]
        exact ih (hrun.next (.thread env w thread henv hstep)) hplay

/-- A server on which nobody is registered yet. -/
def emptyEnv (setup : Setup) : Env := ⟨setup.conf, setup.platform, setup.hashes, fun _ _ _ => false⟩

def sevenSetup : Setup := Server.visitorSetup [Server.userSeven]

/-- A connection becomes active at second 0; a heartbeat comes at second 60, and the loop looks. -/
def beats (timestamp : BitVec 32) : List (ThreadName × World) :=
  let calm := Server.calm 0
  [(.cycle, calm), (.cycle, { calm with delivery := .ok (Server.opening Server.userSeven) }), (.cycle, calm),
    (.cycle, calm), (.recv, calm), (.cycle, calm), (.consum, calm), (.cycle, calm), (.recv, calm),
    (.recv, { calm with now := 60, delivery := .ok (LPushProtocol.sendPacket (Server.heartbeatChunk timestamp)) }),
    (.cycle, { calm with now := 60 })]

/-- Active at second 0, and a frame at second 60. -/
def beaten (message : LPushChunk) : List Moment := [.active 0, .looping 0, .frame 60 message]

section beaten

variable {d : Int} {message : LPushChunk}

theorem paced_beaten (h : message.time - d ≤ 60) : Paced d (beaten message) := by
  have hempty : Paced d [] := throughout_nil
  have hactive : Paced d ([] ++ [.active 0]) := throughout_append_singleton.mpr ⟨hempty, fun _ _ ho => by cases ho⟩
  have hlooping : Paced d ([] ++ [.active 0] ++ [.looping 0]) :=
    throughout_append_singleton.mpr ⟨hactive, fun _ _ ho => by cases ho⟩
  refine throughout_append_singleton.mpr ⟨hlooping, fun now message' ho start hstart => ?_⟩
  obtain ⟨-, rfl⟩ := Moment.frame.inj ho
  obtain rfl : 0 = start := Option.some.inj hstart
  omega

theorem onTime_beaten (h : message.time ≤ 60) : OnTime (beaten message) := by
  have hempty : OnTime [] := throughout_nil
  have hactive : OnTime ([] ++ [.active 0]) := throughout_append_singleton.mpr ⟨hempty, fun _ _ ho => by cases ho⟩
  have hlooping : OnTime ([] ++ [.active 0] ++ [.looping 0]) :=
    throughout_append_singleton.mpr ⟨hactive, fun _ _ ho => by cases ho⟩
  refine throughout_append_singleton.mpr ⟨hlooping, fun now message' ho start hstart => ?_⟩
  obtain ⟨-, rfl⟩ := Moment.frame.inj ho
  obtain ⟨rfl, -⟩ := Prod.mk.inj (Option.some.inj hstart)
  omega

theorem causal_beaten (h : message.time - d ≤ 60) : Causal d (beaten message) := by
  have hempty : Causal d [] := throughout_nil
  have hactive : Causal d ([] ++ [.active 0]) :=
    throughout_append_singleton.mpr ⟨hempty, fun _ hmem => (List.not_mem_nil hmem).elim, fun _ _ ho => by cases ho⟩
  have hlooping : Causal d ([] ++ [.active 0] ++ [.looping 0]) := by
    refine throughout_append_singleton.mpr ⟨hactive, fun o hmem => ?_, fun _ _ ho => by cases ho⟩
    rw [List.mem_singleton.mp hmem]
    decide
  refine throughout_append_singleton.mpr ⟨hlooping, fun o hmem => ?_, fun now message' ho => ?_⟩
  · rcases List.mem_pair.mp hmem with rfl | rfl
    · show (0 : Int) ≤ 60
      decide
    · show (0 : Int) ≤ 60
      decide
  · obtain ⟨rfl, rfl⟩ := Moment.frame.inj ho
    exact h

end beaten

/-- The moments of a client whose clock is right. -/
def inTime : List Moment → Bool
  | [.active 0, .looping 0, .frame 60 message] => message.time == 60
  | _ => false

/-- The moments of a client that is one second ahead. -/
def ahead : List Moment → Bool
  | [.active 0, .looping 0, .frame 60 message, .returned 60 ret] =>
      message.time == 61 && ret == errorConnHreatbeatTimeout
  | _ => false

theorem beaten_of_inTime {ms : List Moment} (h : inTime ms = true) :
    ∃ message, ms = beaten message ∧ message.time = 60 := by
  unfold inTime at h
  split at h
  · exact ⟨_, rfl, beq_iff_eq.mp h⟩
  · cases h

theorem beaten_of_ahead {ms : List Moment} (h : ahead ms = true) :
    ∃ message, ms = beaten message ++ [.returned 60 errorConnHreatbeatTimeout] ∧ message.time = 61 := by
  unfold ahead at h
  split at h
  · obtain ⟨htime, hret⟩ := Bool.and_eq_true_iff.mp h
    rw [beq_iff_eq] at htime hret
    rw [hret]
    exact ⟨_, rfl, htime⟩
  · cases h

theorem timedHistory_of_beats {timestamp : BitVec 32} {wanted : List Moment → Bool}
    (h : (playTimed (emptyEnv sevenSetup) (.create 7 []) (beats timestamp)).any (fun next => wanted next.2) = true) :
    ∃ ms c, TimedHistory (Server.Surroundings sevenSetup) ms c ∧ wanted ms = true := by
  obtain ⟨⟨c, ms⟩, hplay, hms⟩ := (Option.any_eq_true _ _).mp h
  have hstart : TimedHistory (Server.Surroundings sevenSetup) [] (.create 7 []) := .start ⟨7, [], .inl rfl⟩
  exact ⟨ms, c, timedHistory_of_play hstart ⟨rfl, rfl, rfl⟩ hplay, hms⟩

/-- On a clock that is right, the sixtieth second is in time. -/
theorem heartbeat_timeout_even : ∃ ms c, TimedHistory (Server.Surroundings sevenSetup) ms c ∧ Paced 0 ms ∧
    OnTime ms ∧ ms ≠ [] ∧ ∀ now, .returned now errorConnHreatbeatTimeout ∉ ms := by
  have hplays : (playTimed (emptyEnv sevenSetup) (.create 7 []) (beats 60)).any (fun next => inTime next.2) =
      true := by decide +kernel
  obtain ⟨ms, c, hrun, hms⟩ := timedHistory_of_beats hplays
  obtain ⟨message, rfl, htime⟩ := beaten_of_inTime hms
  have hpaced : Paced 0 (beaten message) := paced_beaten (by omega)
  have hontime : OnTime (beaten message) := onTime_beaten (by omega)
  exact ⟨_, c, hrun, hpaced, hontime, List.cons_ne_nil _ _, (heartbeat_timeout hrun hpaced).1 hontime⟩

/-- The clock of the client is one second ahead. -/
theorem not_independent_ahead : ¬ ∀ d ms c, TimedHistory (Server.Surroundings sevenSetup) ms c → Paced d ms →
    Causal d ms → ∀ now, .returned now errorConnHreatbeatTimeout ∉ ms := by
  intro h
  have hplays : (playTimed (emptyEnv sevenSetup) (.create 7 []) (beats 61)).any (fun next => ahead next.2) =
      true := by decide +kernel
  obtain ⟨ms, c, hrun, hms⟩ := timedHistory_of_beats hplays
  obtain ⟨message, rfl, htime⟩ := beaten_of_ahead hms
  have hpaced : Paced 1 (beaten message ++ [.returned 60 errorConnHreatbeatTimeout]) :=
    throughout_append_singleton.mpr ⟨paced_beaten (by omega), fun _ _ ho => by cases ho⟩
  have hcausal : Causal 1 (beaten message ++ [.returned 60 errorConnHreatbeatTimeout]) := by
    refine throughout_append_singleton.mpr ⟨causal_beaten (by omega), fun o hmem => ?_, fun _ _ ho => by cases ho⟩
    simp only [beaten, List.mem_cons, List.not_mem_nil, or_false] at hmem
    rcases hmem with rfl | rfl | rfl
    · show (0 : Int) ≤ 60
      decide
    · show (0 : Int) ≤ 60
      decide
    · exact le_rfl
  exact h 1 _ c hrun hpaced hcausal 60 (List.mem_append_right _ List.mem_cons_self)

end LPushConn

end LinkedonPush
