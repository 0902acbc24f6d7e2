import LinkedonPush.App.MainLoop

/-!
# Signals

A catcher writes the number of a signal into the pipe, and a thread reads it there and calls
`on_signal`. What a process may still show depends on the signals it was told of.
-/

namespace LinkedonPush

open Theory

namespace Master

/-! ### Signals -/

/-- What the signals have made of a process. -/
inductive Duty where
  | serving
  | quitting
  | gone
deriving DecidableEq

/-- What a process may show next. -/
def Duty.next : Duty → Report → Option Duty
  | .gone, _ => none
  | _, .handled .int => some .gone
  | _, .handled .usr2 => some .gone
  | .serving, .handled .term => some .quitting
  | .serving, .withdrawn => none
  | .quitting, .withdrawn => some .gone
  | .quitting, .woke _ => none
  | .quitting, .announced _ _ _ => none
  | duty, _ => some duty

/-- What a process has come to by the signals it was told of; `none` if it has shown what it may not. -/
def Duty.of (trace : List Report) : Option Duty := trace.foldlM next .serving

/-- The duty agrees with the state of the process. -/
def Duty.Fits (duty : Duty) (m : Master) : Prop :=
  (duty = .gone → m.ended = true) ∧
    (m.ended = false → (duty = .quitting ↔ m.daemon.signalGracefullyQuit = true))

/-- The signals that were caught. -/
def caught (trace : List Report) : List Signal := trace.filterMap Report.caught?

/-- The signals that `on_signal` was called with. -/
def handled (trace : List Report) : List Signal := trace.filterMap Report.handled?

/-- The process is what its signals have made of it. -/
structure Obeys (trace : List Report) (m : Master) : Prop where
  pipe : caught trace = handled trace ++ m.sigPipe
  reload : m.signalReload = true ↔ .hup ∈ handled trace
  quit : m.daemon.signalGracefullyQuit = true ↔ .term ∈ handled trace
  left : m.daemon.main ≠ .serving → m.daemon.signalGracefullyQuit = true
  duty : ∃ duty, Duty.of trace = some duty ∧ duty.Fits m

section signals

variable {setup : Setup} {tasks : List Bytes} {trace shown : List Report} {m m' : Master} {start now : Int}

/-- A move that has nothing to do with signals. -/
theorem Obeys.quiet (h : Obeys trace m) (hcaught : caught shown = []) (hhandled : handled shown = [])
    (hpipe : m'.sigPipe = m.sigPipe) (hreload : m'.signalReload = m.signalReload)
    (hquit : m'.daemon.signalGracefullyQuit = m.daemon.signalGracefullyQuit)
    (hleft : m'.daemon.main ≠ .serving → m.daemon.signalGracefullyQuit = true)
    (hduty : ∀ duty, duty.Fits m → ∃ duty', shown.foldlM Duty.next duty = some duty' ∧ duty'.Fits m') :
    Obeys (trace ++ shown) m' := by
  have hcaught' : caught (trace ++ shown) = caught trace := by
    rw [caught, List.filterMap_append, ← caught, ← caught, hcaught, List.append_nil]
  have hhandled' : handled (trace ++ shown) = handled trace := by
    rw [handled, List.filterMap_append, ← handled, ← handled, hhandled, List.append_nil]
  refine ⟨?_, ?_, ?_, fun hmain => ?_, ?_⟩
  · rw [hcaught', hhandled', hpipe, h.pipe]
  · rw [hreload, hhandled', h.reload]
  · rw [hquit, hhandled', h.quit]
  · rw [hquit]
    exact hleft hmain
  · obtain ⟨duty, hof, hfits⟩ := h.duty
    obtain ⟨duty', hmore, hfits'⟩ := hduty duty hfits
    refine ⟨duty', ?_, hfits'⟩
    unfold Duty.of at hof ⊢
    rw [List.foldlM_append, hof]
    exact hmore

/-- Nothing that other threads do is against the signals. -/
theorem foldlM_sights {duty : Duty} (hgone : duty ≠ .gone) (shown : List Sight) :
    (shown.map Report.sight).foldlM Duty.next duty = some duty := by
  induction shown with
  | nil => rfl
  | cons o shown ih =>
      have hfirst : Duty.next duty (.sight o) = some duty := by
        cases duty with
        | gone => exact (hgone rfl).elim
        | _ => rfl
      rw [List.map_cons, List.foldlM_cons, hfirst]
      exact ih

/-- A process that has not ended is serving or quitting. -/
theorem Duty.Fits.running {duty : Duty} (h : duty.Fits m) (hrunning : m.ended = false) : duty ≠ .gone := by
  intro hgone
  rw [h.1 hgone] at hrunning
  cases hrunning

/-- It is serving as long as it has not been told to quit. -/
theorem Duty.Fits.serving {duty : Duty} (h : duty.Fits m) (hrunning : m.ended = false)
    (hquit : m.daemon.signalGracefullyQuit = false) : duty = .serving := by
  have hnot : duty ≠ .quitting := by
    intro hquitting
    have htold := (h.2 hrunning).mp hquitting
    rw [hquit] at htold
    cases htold
  cases duty with
  | serving => rfl
  | quitting => exact (hnot rfl).elim
  | gone => exact (h.running hrunning rfl).elim

theorem Duty.Fits.same {duty : Duty} (h : duty.Fits m) (hended : m'.ended = m.ended)
    (hquit : m'.daemon.signalGracefullyQuit = m.daemon.signalGracefullyQuit) : duty.Fits m' := by
  unfold Fits
  rw [hended, hquit]
  exact h

theorem Duty.fits_ended (duty : Duty) (hended : m.ended = true) : duty.Fits m := by
  refine ⟨fun _ => hended, fun hrunning => ?_⟩
  rw [hended] at hrunning
  cases hrunning

/-- The announcement of a turn is within the duty of a serving process. -/
theorem foldlM_hreat {announced : List Report} {now time after : Int}
    (h : Hreat m now time after announced m') :
    (Report.woke now :: announced).foldlM Duty.next .serving = some .serving := by
  cases h <;> rfl

theorem stays_own {dm : Daemon.Move} {d : Daemon} {sights : List Sight} (hown : own dm = false)
    (hmove : m.daemon.move setup dm = some (d, sights)) :
    d.signalGracefullyQuit = m.daemon.signalGracefullyQuit ∧
      (m.daemon.main = .serving → d.main = .serving) := by
  have hstays := Daemon.stays_move hmove
  refine ⟨hstays.quit fun h => ?_, hstays.serving fun h => ?_⟩ <;>
    · rw [h] at hown
      cases hown

/-- `on_signal` is always within the duty. -/
theorem Duty.Fits.signal {duty : Duty} (h : duty.Fits m) (hrunning : m.ended = false) (signo : Signal)
    (rest : List Signal) :
    ∃ duty', duty.next (.handled signo) = some duty' ∧ duty'.Fits ({ m with sigPipe := rest }.onSignal signo) := by
  have hnot := h.running hrunning
  cases signo with
  | hup | pipe =>
      refine ⟨duty, ?_, h.same rfl rfl⟩
      cases duty with
      | gone => exact (hnot rfl).elim
      | _ => rfl
  | int | usr2 =>
      refine ⟨.gone, ?_, Duty.fits_ended _ rfl⟩
      cases duty with
      | gone => exact (hnot rfl).elim
      | _ => rfl
  | term =>
      refine ⟨.quitting, ?_, Duty.noConfusion, fun _ => iff_of_true rfl rfl⟩
      cases duty with
      | gone => exact (hnot rfl).elim
      | _ => rfl

/-- `on_signal` does what the signal says. -/
theorem Obeys.signal {signo : Signal} {rest : List Signal} (h : Obeys trace m) (hpipe : m.sigPipe = signo :: rest)
    (hrunning : m.ended = false) : Obeys (trace ++ [.handled signo]) ({ m with sigPipe := rest }.onSignal signo) := by
  have hhandled : handled (trace ++ [.handled signo]) = handled trace ++ [signo] := by
    rw [handled, List.filterMap_append]
    rfl
  have hcaught : caught (trace ++ [.handled signo]) = caught trace := by
    rw [caught, List.filterMap_append]
    exact List.append_nil _
  have hrest : ({ m with sigPipe := rest }.onSignal signo).sigPipe = rest := by cases signo <;> rfl
  refine ⟨?_, ?_, ?_, ?_, ?_⟩
  · rw [hcaught, h.pipe, hpipe, hhandled, hrest, List.append_assoc]
    rfl
  · rw [hhandled, List.mem_append, ← h.reload]
    cases signo <;> simp [onSignal]
  · rw [hhandled, List.mem_append, ← h.quit]
    cases signo <;> simp [onSignal]
  · cases signo with
    | term => exact fun _ => rfl
    | _ => exact h.left
  · obtain ⟨duty, hof, hfits⟩ := h.duty
    obtain ⟨duty', hnext, hfits'⟩ := hfits.signal hrunning signo rest
    refine ⟨duty', ?_, hfits'⟩
    unfold Duty.of at hof ⊢
    rw [List.foldlM_append, hof]
    change List.foldlM Duty.next duty [.handled signo] = _
    rw [List.foldlM_cons, hnext]
    rfl

theorem Obeys.step (h : Obeys trace m) (hstep : Step setup m shown m') : Obeys (trace ++ shown) m' := by
  have hcaught : ∀ sights : List Sight, caught (sights.map .sight) = [] := filterMap_sights_none fun _ => rfl
  have hhandled : ∀ sights : List Sight, handled (sights.map .sight) = [] := filterMap_sights_none fun _ => rfl
  -- a daemon's move does not let the main thread leave its loop
  have hleft : ∀ {dm : Daemon.Move} {d : Daemon} {sights : List Sight}, own dm = false →
      m.daemon.move setup dm = some (d, sights) → d.main ≠ .serving → m.daemon.signalGracefullyQuit = true := by
    intro dm d sights hown hmove hmain
    apply h.left
    intro hserving
    exact hmain ((stays_own hown hmove).2 hserving)
  cases hstep.moved with
  | daemon dm hrunning hown hmove hstays =>
      have hquit := (stays_own hown hmove).1
      refine h.quiet (hcaught _) (hhandled _) rfl rfl hquit (hleft hown hmove) fun duty hfits => ?_
      exact ⟨duty, foldlM_sights (hfits.running hrunning) _, hfits.same rfl hquit⟩
  | @withdraws d sights dm hrunning hown hmove hexits =>
      have hquit := (stays_own hown hmove).1
      have htold : m.daemon.signalGracefullyQuit = true := by
        apply hleft hown hmove
        rw [hexits]
        exact MainPoint.noConfusion
      refine h.quiet ?_ ?_ rfl rfl hquit (hleft hown hmove) fun duty hfits => ?_
      · rw [caught, List.filterMap_append, ← caught, hcaught]
        rfl
      · rw [handled, List.filterMap_append, ← handled, hhandled]
        rfl
      · have hquitting : duty = .quitting := (hfits.2 hrunning).mpr htold
        refine ⟨.gone, ?_, Duty.fits_ended _ rfl⟩
        rw [List.foldlM_append, foldlM_sights (hfits.running hrunning), hquitting]
        rfl
  | caught signo hrunning =>
      obtain ⟨duty, hof, hfits⟩ := h.duty
      have hhandled' : handled (trace ++ [.caught signo]) = handled trace := by
        rw [handled, List.filterMap_append]
        exact List.append_nil _
      refine ⟨?_, ?_, ?_, h.left, duty, ?_, hfits.same rfl rfl⟩
      · rw [hhandled', caught, List.filterMap_append, ← caught, h.pipe, List.append_assoc]
        rfl
      · rw [hhandled']
        exact h.reload
      · rw [hhandled']
        exact h.quit
      · unfold Duty.of at hof ⊢
        rw [List.foldlM_append, hof]
        have hnot := hfits.running hrunning
        cases duty with
        | gone => exact (hnot rfl).elim
        | _ => rfl
  | stuck hrunning => exact h.quiet rfl rfl rfl rfl rfl h.left fun duty hfits => ⟨duty, rfl, hfits.same rfl rfl⟩
  | killed => exact h.quiet rfl rfl rfl rfl rfl h.left fun duty hfits => ⟨duty, rfl, Duty.fits_ended _ rfl⟩
  | handled signo rest hpipe hrunning hfree => exact h.signal hpipe hrunning
  | leaves hrunning hserving hfree hquit =>
      exact h.quiet rfl rfl rfl rfl rfl (fun _ => hquit) fun duty hfits => ⟨duty, rfl, hfits.same rfl rfl⟩
  | @turns announced m₁ d sights now time after hrunning hserving hquit hhreat hmove =>
      have hstays := Daemon.stays_move hmove
      have hsame := hhreat.same
      have hquit' := hstays.quit Daemon.Move.noConfusion
      refine h.quiet ?_ ?_ hsame.1 hsame.2 hquit' (fun hmain => ?_) fun duty hfits => ?_
      · rw [List.cons_append, caught, List.filterMap_cons_none rfl, List.filterMap_append,
          filterMap_hreat hhreat fun _ _ _ => rfl, ← caught, hcaught]
        rfl
      · rw [List.cons_append, handled, List.filterMap_cons_none rfl, List.filterMap_append,
          filterMap_hreat hhreat fun _ _ _ => rfl, ← handled, hhandled]
        rfl
      · exact (hmain (hstays.serving Daemon.Move.noConfusion hserving)).elim
      · obtain rfl := hfits.serving hrunning hquit
        refine ⟨.serving, ?_, ?_⟩
        · rw [List.foldlM_append, foldlM_hreat hhreat]
          exact foldlM_sights Duty.noConfusion _
        · refine hfits.same hhreat.ended ?_
          exact hstays.quit Daemon.Move.noConfusion
  | raises now time after hrunning hserving hquit hhreat =>
      have hsame := hhreat.same
      have hdaemon := hreat_daemon hhreat
      refine h.quiet ?_ ?_ hsame.1 hsame.2 (by rw [hdaemon]) (fun hmain => ?_) fun duty hfits => ?_
      · rw [caught, List.filterMap_cons_none rfl, filterMap_hreat hhreat fun _ _ _ => rfl]
      · rw [handled, List.filterMap_cons_none rfl, filterMap_hreat hhreat fun _ _ _ => rfl]
      · rw [hdaemon] at hmain
        exact h.left hmain
      · obtain rfl := hfits.serving hrunning hquit
        exact ⟨.serving, foldlM_hreat hhreat, Duty.fits_ended _ rfl⟩

theorem Reached.obeys (hrun : Reached setup tasks start trace m) : Obeys trace m := by
  refine hrun.invariant Obeys (fun m hinit => ?_) fun _ _ _ _ => Obeys.step
  rw [hinit]
  exact ⟨rfl, by simp [Master.start, handled], by simp [Master.start, Daemon.start, handled],
    fun hmain => (hmain rfl).elim, .serving, rfl, Duty.noConfusion,
    fun _ => iff_of_false Duty.noConfusion Bool.false_ne_true⟩

/-- **Every signal is handled once, in the order in which they were caught**, and the process does what
they say: after SIGTERM it begins no turn and announces nothing, and it withdraws only then; that, or a
SIGINT or SIGUSR2, is the last it shows. -/
theorem signals_served (hrun : Reached setup tasks start trace m) :
    caught trace = handled trace ++ m.sigPipe ∧ (m.signalReload = true ↔ .hup ∈ handled trace) ∧
      (m.daemon.signalGracefullyQuit = true ↔ .term ∈ handled trace) ∧
      (m.daemon.main ≠ .serving → .term ∈ handled trace) ∧ ∃ duty, Duty.of trace = some duty ∧ duty.Fits m := by
  have hobeys := hrun.obeys
  exact ⟨hobeys.pipe, hobeys.reload, hobeys.quit, fun hmain => hobeys.quit.mp (hobeys.left hmain), hobeys.duty⟩

end signals

/-! ### A process that is told to quit -/

/-- SIGHUP and SIGTERM come, and the main thread finds the flag. -/
def terminated : List Move :=
  [.signalCatcher .hup, .signalCatcher .term, .cycle, .cycle, .wake 1 1 1, .daemon .listenerEnds, .daemon .close]

theorem reached_of_play {setup : Setup} {tasks : List Bytes} {start : Int} {moves : List Move} {m : Master}
    {trace : List Report}
    (hplay : play (fun mv m => m.move setup mv) moves (Master.start tasks start) = some (m, trace)) :
    Reached setup tasks start trace m :=
  Run.of_play _ (fun mv _ _ hmove => ⟨mv, hmove⟩) hplay

/-- It has withdrawn. -/
theorem signals_served_terminated : ∃ trace m, Reached bareSetup [] 0 trace m ∧ handled trace = [.hup, .term] ∧
    m.signalReload = true ∧ ∃ duty, Duty.of trace = some duty ∧ duty = .gone := by
  have hplays : (play (fun mv m => m.move bareSetup mv) terminated (Master.start [] 0)).any (fun next =>
      decide (handled next.2 = [.hup, .term]) && decide (Duty.of next.2 = some .gone)) = true := by decide +kernel
  obtain ⟨⟨m, trace⟩, hplay, hwanted⟩ := (Option.any_eq_true _ _).mp hplays
  obtain ⟨hhandled, hgone⟩ := Bool.and_eq_true_iff.mp hwanted
  have hrun := reached_of_play hplay
  have hhandled : handled trace = [.hup, .term] := of_decide_eq_true hhandled
  obtain ⟨-, hreload, -, -, duty, hof, -⟩ := signals_served hrun
  refine ⟨trace, m, hrun, hhandled, ?_, duty, hof, ?_⟩
  · rw [hreload, hhandled]
    exact List.mem_cons_self
  · exact Option.some.inj (hof.symm.trans (of_decide_eq_true hgone))

end Master

end LinkedonPush
