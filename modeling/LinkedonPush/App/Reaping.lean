import LinkedonPush.App.ThreadLife

/-!
# Joining a worker

A joinable `LPushThread` under any handler, observed at what reaps its workers: their creation, the calls
of `stop` that find one, the returns of `st_thread_join`, and the returns of `stop`. A worker that has come
to its end by itself has set `disposed`, and then `stop` does not join it.
-/

namespace LinkedonPush

open Theory

inductive ReapEvent where
  | created (n : Nat)
  /-- `stop` is called, and finds the worker and the flag. -/
  | stops (n : Nat) (disposed : Bool)
  /-- `st_thread_join` returns. -/
  | joins (n : Nat) (ok : Bool)
  /-- `stop` returns, and has cleared the tid of the worker. -/
  | clears (n : Nat)
deriving DecidableEq

def ReapEvent.worker : ReapEvent → Nat
  | .created n => n
  | .stops n _ => n
  | .joins n _ => n
  | .clears n => n

namespace ThreadLife

/-! ### The runs -/

/-- What a move begins with, or has waited for. -/
def reapingOf (m : Move) (s : ThreadLife) : List ReapEvent :=
  match m, s.tid with
  | .start, none => [.created s.births]
  | .stop, some n => [.stops n s.disposed]
  | .joined error, some n => [.joins n !error]
  | _, _ => []

def clearing (s s' : ThreadLife) : List ReapEvent :=
  match s.tid, s'.tid with
  | some n, none => [.clears n]
  | _, _ => []

def reap (interval : Bool) (m : Move) (s : ThreadLife) : Option (ThreadLife × List ReapEvent) :=
  (s.move true interval m).map fun next => (next.1, reapingOf m s ++ clearing s next.1)

/-- The steps of a joinable thread, with the workers inside `on_thread_start`, which may yield here. Beside
its moves, a callback may call `stop_loop` at any time, and `st_thread_create` may fail. -/
inductive Reaping (interval : Bool) : ThreadLife × List Nat → List ReapEvent → ThreadLife × List Nat → Prop where
  | move {s s' : ThreadLife} {shown : List ReapEvent} {paused : List Nat} (m : Move)
      (h : s.reap interval m = some (s', shown)) (hpaused : ∀ n ∈ paused, ∀ id turn, m ≠ .work n id turn) :
      Reaping interval (s, paused) shown (s', paused)
  | stopsLoop (s : ThreadLife) (paused : List Nat) :
      Reaping interval (s, paused) [] ({ s with loop := false }, paused)
  | pauses {s : ThreadLife} {paused : List Nat} (n id : Nat) (hpoint : s.point n = .created)
      (hprocessor : s.processor = none ∨ s.processor = some n) (hpaused : n ∉ paused) :
      Reaping interval (s, paused) [] ({ s.leave n .created with cid := id }, n :: paused)
  | resumes {s : ThreadLife} {paused : List Nat} (n : Nat) (hpoint : s.point n = .created)
      (hprocessor : s.processor = none ∨ s.processor = some n) (hpaused : n ∈ paused) :
      Reaping interval (s, paused) [] ({ s.goOn n .awaiting with reallyTerminated := false }, paused.erase n)
  | refused {s : ThreadLife} {paused : List Nat} (hprocessor : s.processor = none) (howner : s.owner = .idle)
      (htid : s.tid = none) : Reaping interval (s, paused) [] (s, paused)

abbrev Reaped (interval : Bool) : List ReapEvent → ThreadLife × List Nat → Prop :=
  Run (· = (init, [])) (Reaping interval)

/-- The moves make a run in which `on_thread_start` does not yield. -/
theorem reaped_of_moves {interval : Bool} {trace : List ReapEvent} {s : ThreadLife}
    (hrun : Run (· = init) (fun s shown s' => ∃ m, s.reap interval m = some (s', shown)) trace s) :
    Reaped interval trace (s, []) := by
  induction hrun with
  | start hinit => exact .start (Prod.ext hinit rfl)
  | next _ hstep ih =>
      obtain ⟨m, hreap⟩ := hstep
      exact .next ih (.move m hreap fun n hmem => (List.not_mem_nil hmem).elim)

def isJoin (n : Nat) : ReapEvent → Bool
  | .joins m _ => m = n
  | _ => false

/-- One call of `st_thread_join` was for the worker, and that one succeeded. -/
def JoinedOnce (n : Nat) (trace : List ReapEvent) : Prop := trace.filter (isJoin n) = [.joins n true]

instance (n : Nat) (trace : List ReapEvent) : Decidable (JoinedOnce n trace) :=
  inferInstanceAs (Decidable (trace.filter (isJoin n) = [.joins n true]))

/-- No `stop` has found the flag set, and no join has failed. -/
def Unhindered (n : Nat) (trace : List ReapEvent) : Prop := .stops n true ∉ trace ∧ .joins n false ∉ trace

/-- Every worker was joined when the `stop` that clears its tid returns. -/
def AllJoined (trace : List ReapEvent) : Prop :=
  Throughout (fun before e => ∀ n, e = .clears n → JoinedOnce n before) trace

/-! ### The tale of a worker -/

/-- What happened to one worker. -/
def tale (n : Nat) (trace : List ReapEvent) : List ReapEvent := trace.filter fun e => e.worker = n

/-- What can have happened to a worker, by the state of its thread. -/
inductive Tale (s : ThreadLife) (n : Nat) : List ReapEvent → Prop where
  | unborn (hunborn : s.births ≤ n) : Tale s n []
  | held (htid : s.tid = some n) (howner : s.owner = .idle ∨ s.owner = .starting) : Tale s n [.created n]
  | joining (htid : s.tid = some n) (howner : s.owner = .joining) : Tale s n [.created n, .stops n false]
  | waiting (ok : Bool) (htid : s.tid = some n) (howner : s.owner = .waiting) :
      Tale s n [.created n, .stops n false, .joins n ok]
  | unjoined (hborn : n < s.births) (htid : s.tid ≠ some n) : Tale s n [.created n, .stops n true, .clears n]
  | joined (ok : Bool) (hborn : n < s.births) (htid : s.tid ≠ some n) :
      Tale s n [.created n, .stops n false, .joins n ok, .clears n]

structure Reckoned (trace : List ReapEvent) (s : ThreadLife) : Prop where
  tales : ∀ n, Tale s n (tale n trace)
  current : ∀ n, s.tid = some n → n < s.births
  idle : s.tid = none → s.owner = .idle

section tales

variable {s s' : ThreadLife} {n m : Nat} {trace shown events : List ReapEvent} {e : ReapEvent}

theorem tale_append : tale n (trace ++ shown) = tale n trace ++ tale n shown := List.filter_append ..

theorem tale_of_worker (h : ∀ e ∈ shown, e.worker = n) : tale n shown = shown := by
  apply List.filter_eq_self.mpr
  intro e he
  exact decide_eq_true (h e he)

theorem tale_of_other (h : ∀ e ∈ shown, e.worker = m) (hne : m ≠ n) : tale n shown = [] := by
  apply List.filter_eq_nil_iff.mpr
  intro e he hworker
  exact hne ((h e he).symm.trans (of_decide_eq_true hworker))

/-- Nothing that concerns the tales. -/
structure Same (s s' : ThreadLife) : Prop where
  tid : s'.tid = s.tid
  owner : s'.owner = s.owner
  births : s'.births = s.births

theorem Tale.same (h : Tale s n events) (hsame : Same s s') : Tale s' n events := by
  obtain ⟨htid', howner', hbirths'⟩ := hsame
  cases h with
  | unborn hunborn => exact .unborn (by rw [hbirths']; exact hunborn)
  | held htid howner => exact .held (htid'.trans htid) (by rw [howner']; exact howner)
  | joining htid howner => exact .joining (htid'.trans htid) (howner'.trans howner)
  | waiting ok htid howner => exact .waiting ok (htid'.trans htid) (howner'.trans howner)
  | unjoined hborn htid => exact .unjoined (by rw [hbirths']; exact hborn) (by rw [htid']; exact htid)
  | joined ok hborn htid => exact .joined ok (by rw [hbirths']; exact hborn) (by rw [htid']; exact htid)

/-- The tale of a worker that is not the current one, before and after. -/
theorem Tale.other (h : Tale s n events) (htid : s.tid ≠ some n) (htid' : s'.tid ≠ some n)
    (hbirths : s.births ≤ s'.births) (hunborn' : s.births ≤ n → s'.births ≤ n) : Tale s' n events := by
  cases h with
  | unborn hunborn => exact .unborn (hunborn' hunborn)
  | held hcurrent | joining hcurrent | waiting ok hcurrent => exact absurd hcurrent htid
  | unjoined hborn => exact .unjoined (Nat.lt_of_lt_of_le hborn hbirths) htid'
  | joined ok hborn => exact .joined ok (Nat.lt_of_lt_of_le hborn hbirths) htid'

theorem Tale.of_unborn (h : Tale s n events) (hunborn : s.births ≤ n) (htid : s.tid ≠ some n) : events = [] := by
  cases h with
  | unborn => rfl
  | held hcurrent | joining hcurrent | waiting ok hcurrent => exact absurd hcurrent htid
  | unjoined hborn | joined ok hborn => exact absurd hborn (Nat.not_lt_of_le hunborn)

section current

variable (h : Tale s n events) (hborn : n < s.births) (htid : s.tid = some n)

include h hborn htid

theorem Tale.of_held (howner : s.owner = .idle ∨ s.owner = .starting) : events = [.created n] := by
  cases h with
  | unborn hunborn => exact absurd hborn (Nat.not_lt_of_le hunborn)
  | held => rfl
  | joining _ hjoining => rcases howner with howner | howner <;> cases howner.symm.trans hjoining
  | waiting _ _ hwaiting => rcases howner with howner | howner <;> cases howner.symm.trans hwaiting
  | unjoined _ hother | joined _ _ hother => exact absurd htid hother

theorem Tale.of_joining (howner : s.owner = .joining) : events = [.created n, .stops n false] := by
  cases h with
  | unborn hunborn => exact absurd hborn (Nat.not_lt_of_le hunborn)
  | held _ hheld => rcases hheld with hheld | hheld <;> cases howner.symm.trans hheld
  | joining => rfl
  | waiting _ _ hwaiting => cases howner.symm.trans hwaiting
  | unjoined _ hother | joined _ _ hother => exact absurd htid hother

theorem Tale.of_waiting (howner : s.owner = .waiting) :
    ∃ ok, events = [.created n, .stops n false, .joins n ok] := by
  cases h with
  | unborn hunborn => exact absurd hborn (Nat.not_lt_of_le hunborn)
  | held _ hheld => rcases hheld with hheld | hheld <;> cases howner.symm.trans hheld
  | joining _ hjoining => cases howner.symm.trans hjoining
  | waiting ok => exact ⟨ok, rfl⟩
  | unjoined _ hother | joined _ _ hother => exact absurd htid hother

end current

theorem Reckoned.same (h : Reckoned trace s) (hsame : Same s s') : Reckoned trace s' where
  tales := fun n => (h.tales n).same hsame
  current := by
    rw [hsame.tid, hsame.births]
    exact h.current
  idle := by
    rw [hsame.tid, hsame.owner]
    exact h.idle

/-- A step of the owner that is about the current worker. -/
theorem Reckoned.next (h : Reckoned trace s) (htid : s.tid = some n) (hshown : ∀ e ∈ shown, e.worker = n)
    (hbirths : s'.births = s.births) (hcurrent : s'.tid = some n ∨ (s'.tid = none ∧ s'.owner = .idle))
    (htale : Tale s' n (tale n trace ++ shown)) : Reckoned (trace ++ shown) s' where
  tales := by
    intro m
    rw [tale_append]
    by_cases hm : n = m
    · subst hm
      rw [tale_of_worker hshown]
      exact htale
    · rw [tale_of_other hshown hm, List.append_nil]
      have hother : s.tid ≠ some m := by
        rw [htid]
        exact fun heq => hm (Option.some.inj heq)
      have hother' : s'.tid ≠ some m := by
        rcases hcurrent with hsome | ⟨hnone, -⟩
        · rw [hsome]
          exact fun heq => hm (Option.some.inj heq)
        · rw [hnone]
          exact (Option.some_ne_none m).symm
      exact (h.tales m).other hother hother' (Nat.le_of_eq hbirths.symm) (fun hunborn => by omega)
  current := by
    intro m hm
    rcases hcurrent with hsome | ⟨hnone, -⟩
    · obtain rfl : n = m := Option.some.inj (hsome.symm.trans hm)
      rw [hbirths]
      exact h.current n htid
    · rw [hnone] at hm
      cases hm
  idle := by
    intro hnone
    rcases hcurrent with hsome | ⟨-, hidle⟩
    · cases hsome.symm.trans hnone
    · exact hidle

/-- A worker is born. -/
theorem Reckoned.create (h : Reckoned trace s) (htid : s.tid = none) (htid' : s'.tid = some s.births)
    (hbirths : s'.births = s.births + 1) (howner : s'.owner = .idle ∨ s'.owner = .starting) :
    Reckoned (trace ++ [.created s.births]) s' where
  tales := by
    intro m
    have hgone : s.tid ≠ some m := by
      rw [htid]
      exact (Option.some_ne_none m).symm
    rw [tale_append]
    by_cases hm : s.births = m
    · subst hm
      have htale : tale s.births trace = [] := (h.tales s.births).of_unborn (Nat.le_refl s.births) hgone
      have hshown : tale s.births [.created s.births] = [.created s.births] :=
        tale_of_worker fun e he => by rw [List.mem_singleton.mp he, ReapEvent.worker]
      rw [htale, hshown]
      exact .held htid' howner
    · have hshown : tale m [.created s.births] = [] :=
        tale_of_other (fun e he => by rw [List.mem_singleton.mp he, ReapEvent.worker]) hm
      have hother' : s'.tid ≠ some m := by
        rw [htid']
        exact fun heq => hm (Option.some.inj heq)
      rw [hshown, List.append_nil]
      exact (h.tales m).other hgone hother' (by omega) (fun hunborn => by omega)
  current := by
    intro m hm
    obtain rfl : s.births = m := Option.some.inj (htid'.symm.trans hm)
    rw [hbirths]
    exact Nat.lt_succ_self s.births
  idle := by
    intro hnone
    cases htid'.symm.trans hnone

end tales

/-! ### The steps -/

section steps

variable {interval : Bool} {s s' : ThreadLife} {n id : Nat} {turn : CallbackTurn} {p : Progress}
  {trace shown : List ReapEvent}

theorem clearing_of_none (htid : s.tid = none) : clearing s s' = [] := by
  rw [clearing, htid]

theorem clearing_of_kept (htid : s.tid = some n) (htid' : s'.tid = some n) : clearing s s' = [] := by
  rw [clearing, htid, htid']

theorem clearing_of_cleared (htid : s.tid = some n) (htid' : s'.tid = none) : clearing s s' = [.clears n] := by
  rw [clearing, htid, htid']

theorem Same.clearing (hsame : Same s s') : clearing s s' = [] := by
  cases htid : s.tid with
  | none => exact clearing_of_none htid
  | some n => exact clearing_of_kept htid (hsame.tid.trans htid)

theorem reapingOf_joined {error : Bool} (htid : s.tid = some n) :
    reapingOf (.joined error) s = [.joins n !error] := by
  unfold reapingOf
  rw [htid]

theorem start_creates (htid : s.tid = none) : s.start.1 = s.create.ready.1 := by
  rw [start, htid]

theorem stop_of_none (htid : s.tid = none) : (s.stop true).1 = s := by
  rw [stop, htid]

theorem stop_of_some (htid : s.tid = some n) :
    (s.stop true).1 = ({ s with loop := false }.dispose true).1 := by
  rw [stop, htid]

theorem same_refl : Same s s := ⟨rfl, rfl, rfl⟩

/-- A worker goes to a point, and sets the flag behind its loop. Only the owner creates and stops. -/
structure Goes (s : ThreadLife) (n : Nat) (point : ThreadPoint) (s' : ThreadLife) : Prop extends Same s s' where
  moved : s'.point = Function.update s.point n point
  flag : s'.disposed = (s.disposed || point == .ended)

theorem goes_goOn {point : ThreadPoint} (hpoint : point ≠ .ended) : Goes s n point (s.goOn n point) := by
  refine ⟨⟨rfl, rfl, rfl⟩, rfl, ?_⟩
  rw [beq_eq_false_iff_ne.mpr hpoint, Bool.or_false]
  rfl

theorem goes_leave {point : ThreadPoint} (hpoint : point ≠ .ended) : Goes s n point (s.leave n point) := by
  refine ⟨⟨rfl, rfl, rfl⟩, rfl, ?_⟩
  rw [beq_eq_false_iff_ne.mpr hpoint, Bool.or_false]
  rfl

theorem goes_finish : Goes s n .ended (s.finish n).1 :=
  ⟨⟨rfl, rfl, rfl⟩, rfl, (Bool.or_true _).symm⟩

theorem goes_callback {part : CyclePart} : ∃ point, Goes s n point (s.callback n part turn) := by
  cases turn with
  | yields => exact ⟨_, goes_leave ThreadPoint.noConfusion⟩
  | stopsLoop =>
      have hgoes : Goes s n (.inside part) (s.goOn n (.inside part)) := goes_goOn ThreadPoint.noConfusion
      exact ⟨_, ⟨rfl, rfl, rfl⟩, hgoes.moved, hgoes.flag⟩
  | returns ok =>
      unfold callback returned
      dsimp only
      split
      · cases part with
        | onBeforeCycle | cycle | onEndCycle => exact ⟨_, goes_goOn ThreadPoint.noConfusion⟩
      · exact ⟨_, goes_goOn ThreadPoint.noConfusion⟩

theorem goes_work (hwork : s.work n interval id turn = some p) : ∃ point, Goes s n point p.1 := by
  unfold work at hwork
  cases hs : s.point n with
  | unborn | ended =>
      rw [hs] at hwork
      cases hwork
  | created =>
      rw [hs] at hwork
      obtain rfl := Option.some.inj hwork
      have hgoes : Goes s n .awaiting (s.goOn n .awaiting) := goes_goOn ThreadPoint.noConfusion
      exact ⟨_, ⟨rfl, rfl, rfl⟩, hgoes.moved, hgoes.flag⟩
  | awaiting =>
      rw [hs] at hwork
      obtain rfl := Option.some.inj hwork
      split
      · exact ⟨_, goes_leave ThreadPoint.noConfusion⟩
      · exact ⟨_, goes_goOn ThreadPoint.noConfusion⟩
  | head =>
      rw [hs] at hwork
      obtain rfl := Option.some.inj hwork
      split
      · exact ⟨_, goes_goOn ThreadPoint.noConfusion⟩
      · exact ⟨_, goes_finish⟩
  | inside part =>
      rw [hs] at hwork
      obtain rfl := Option.some.inj hwork
      exact goes_callback
  | failed =>
      rw [hs] at hwork
      obtain rfl := Option.some.inj hwork
      split
      · exact ⟨_, goes_finish⟩
      · split
        · exact ⟨_, goes_leave ThreadPoint.noConfusion⟩
        · exact ⟨_, goes_goOn ThreadPoint.noConfusion⟩

theorem ready_kept : s.ready.1.tid = s.tid ∧ s.ready.1.births = s.births ∧
    (s.ready.1.owner = .idle ∨ s.ready.1.owner = .starting) := by
  unfold ready
  split
  · exact ⟨rfl, rfl, .inr rfl⟩
  · exact ⟨rfl, rfl, .inl rfl⟩

theorem Reckoned.quiet (h : Reckoned trace s) (hsame : Same s s') :
    Reckoned (trace ++ ([] ++ s.clearing s')) s' := by
  rw [hsame.clearing, List.append_nil, List.append_nil]
  exact h.same hsame

theorem Reckoned.start (h : Reckoned trace s) :
    Reckoned (trace ++ (reapingOf .start s ++ s.clearing s.start.1)) s.start.1 := by
  cases htid : s.tid with
  | some n =>
      have hreaping : reapingOf .start s = [] := by
        unfold reapingOf
        rw [htid]
      rw [hreaping, start_of_some htid]
      exact h.quiet same_refl
  | none =>
      have hreaping : reapingOf .start s = [.created s.births] := by
        unfold reapingOf
        rw [htid]
      obtain ⟨htid', hbirths, howner⟩ := @ready_kept s.create
      rw [hreaping, clearing_of_none htid, List.append_nil, start_creates htid]
      exact h.create htid htid' hbirths howner

/-- Whoever is busy has a worker. -/
theorem Reckoned.busy (h : Reckoned trace s) (howner : s.owner ≠ .idle) : ∃ n, s.tid = some n := by
  cases htid : s.tid with
  | none => exact absurd (h.idle htid) howner
  | some n => exact ⟨n, rfl⟩

theorem Reckoned.started (h : Reckoned trace s) (howner : s.owner = .starting) :
    Reckoned (trace ++ ([] ++ s.clearing s.ready.1)) s.ready.1 := by
  have hbusy : s.owner ≠ .idle := ne_of_eq_of_ne howner OwnerPoint.noConfusion
  obtain ⟨n, htid⟩ := h.busy hbusy
  obtain ⟨htid', hbirths, howner'⟩ := @ready_kept s
  rw [clearing_of_kept htid (htid'.trans htid)]
  refine h.next htid (fun e he => (List.not_mem_nil he).elim) hbirths (.inl (htid'.trans htid)) ?_
  rw [(h.tales n).of_held (h.current n htid) htid (.inr howner)]
  exact .held (htid'.trans htid) howner'

theorem Reckoned.stop (h : Reckoned trace s) (howner : s.owner = .idle) :
    Reckoned (trace ++ (reapingOf .stop s ++ s.clearing (s.stop true).1)) (s.stop true).1 := by
  cases htid : s.tid with
  | none =>
      have hreaping : reapingOf .stop s = [] := by
        unfold reapingOf
        rw [htid]
      rw [hreaping, stop_of_none htid]
      exact h.quiet same_refl
  | some n =>
      have hreaping : reapingOf .stop s = [.stops n s.disposed] := by
        unfold reapingOf
        rw [htid]
      have htale : tale n trace = [.created n] := (h.tales n).of_held (h.current n htid) htid (.inl howner)
      rw [hreaping, stop_of_some htid]
      unfold dispose
      by_cases hdisposed : s.disposed = true
      · have hclearing : s.clearing ({ s with loop := false }.stopped.1) = [.clears n] :=
          clearing_of_cleared htid rfl
        rw [if_pos hdisposed, hclearing]
        refine h.next htid ?_ rfl (.inr ⟨rfl, rfl⟩) ?_
        · intro e he
          rcases List.mem_pair.mp he with rfl | rfl <;> rfl
        · rw [htale, hdisposed]
          exact .unjoined (h.current n htid) (Option.some_ne_none n).symm
      · have hclearing : s.clearing { s with loop := false, owner := .joining } = [] := clearing_of_kept htid htid
        rw [if_neg hdisposed, if_pos rfl, hclearing]
        refine h.next htid ?_ rfl (.inl htid) ?_
        · intro e he
          rw [List.mem_singleton.mp he, ReapEvent.worker]
        · rw [htale, eq_false_of_ne_true hdisposed]
          exact .joining htid rfl

/-- `dispose` behind the join. -/
theorem Reckoned.await (ok : Bool) (h : Reckoned trace s) (htid : s.tid = some n)
    (hshown : ∀ e ∈ shown, e.worker = n)
    (htale : tale n trace ++ shown = [.created n, .stops n false, .joins n ok]) :
    Reckoned (trace ++ (shown ++ s.clearing s.await.1)) s.await.1 := by
  unfold ThreadLife.await
  split
  · have hcleared : ({ s with disposed := true }.stopped.1).tid = none := rfl
    rw [clearing_of_cleared htid hcleared]
    refine h.next htid ?_ rfl (.inr ⟨rfl, rfl⟩) ?_
    · intro e he
      rcases List.mem_append.mp he with he | he
      · exact hshown e he
      · rw [List.mem_singleton.mp he, ReapEvent.worker]
    · rw [← List.append_assoc, htale]
      exact .joined ok (h.current n htid) (Option.some_ne_none n).symm
  · have hclearing : s.clearing { s with owner := .waiting } = [] := clearing_of_kept htid htid
    rw [hclearing, List.append_nil]
    refine h.next htid hshown rfl (.inl htid) ?_
    rw [htale]
    exact .waiting ok htid rfl

theorem Reckoned.joined (h : Reckoned trace s) (error : Bool) (howner : s.owner = .joining) :
    Reckoned (trace ++ (reapingOf (.joined error) s ++ s.clearing s.await.1)) s.await.1 := by
  have hbusy : s.owner ≠ .idle := ne_of_eq_of_ne howner OwnerPoint.noConfusion
  obtain ⟨n, htid⟩ := h.busy hbusy
  have htale : tale n trace = [.created n, .stops n false] :=
    (h.tales n).of_joining (h.current n htid) htid howner
  rw [reapingOf_joined htid]
  refine h.await (!error) htid ?_ ?_
  · intro e he
    rw [List.mem_singleton.mp he, ReapEvent.worker]
  · rw [htale]
    rfl

theorem Reckoned.waited (h : Reckoned trace s) (howner : s.owner = .waiting) :
    Reckoned (trace ++ ([] ++ s.clearing s.await.1)) s.await.1 := by
  have hbusy : s.owner ≠ .idle := ne_of_eq_of_ne howner OwnerPoint.noConfusion
  obtain ⟨n, htid⟩ := h.busy hbusy
  obtain ⟨ok, htale⟩ := (h.tales n).of_waiting (h.current n htid) htid howner
  refine h.await ok htid (fun e he => (List.not_mem_nil he).elim) ?_
  rw [htale, List.append_nil]

theorem Reckoned.step {r r' : ThreadLife × List Nat} (h : Reckoned trace r.1)
    (hstep : Reaping interval r shown r') : Reckoned (trace ++ shown) r'.1 := by
  cases hstep with
  | stopsLoop | pauses n id | resumes n =>
      rw [List.append_nil]
      exact h.same ⟨rfl, rfl, rfl⟩
  | refused =>
      rw [List.append_nil]
      exact h
  | move m hreap =>
      obtain ⟨p, hmove, heq⟩ := Option.map_eq_some_iff.mp hreap
      obtain ⟨rfl, rfl⟩ := Prod.mk.inj heq
      cases moved_of_move hmove with
      | start => exact h.start
      | started howner => exact h.started howner
      | stop howner => exact h.stop howner
      | joined error howner => exact h.joined error howner
      | waited howner => exact h.waited howner
      | work n id turn hwork =>
          obtain ⟨point, hgoes⟩ := goes_work hwork
          exact h.quiet hgoes.toSame

theorem reckoned_init : Reckoned [] init := by
  refine ⟨fun n => .unborn (Nat.zero_le n), ?_, fun _ => rfl⟩
  intro n htid
  cases htid

theorem reckoned_of_run {r : ThreadLife × List Nat} (hrun : Reaped interval trace r) : Reckoned trace r.1 := by
  refine hrun.invariant (fun trace r => Reckoned trace r.1) ?_ fun _ _ _ _ => Reckoned.step
  rintro _ rfl
  exact reckoned_init

end steps

/-! ### The flag -/

/-- Only the current worker may be alive, and the flag says whether it has ended. -/
structure Settled (s : ThreadLife) : Prop where
  alive : ∀ n, s.Alive n → s.tid = some n
  flag : ∀ n, s.tid = some n → (s.disposed = true ↔ s.point n = .ended)
  waiting : s.owner = .waiting → ∀ n, s.tid = some n → s.point n = .ended

section flag

variable {interval : Bool} {s s' : ThreadLife} {n id : Nat} {turn : CallbackTurn} {p : Progress}
  {trace shown : List ReapEvent}

/-- A step that moves no worker. -/
theorem Settled.unmoved (h : Settled s) (hpoint : s'.point = s.point) (htid : s'.tid = s.tid)
    (hdisposed : s'.disposed = s.disposed)
    (hwaiting : s'.owner = .waiting → ∀ n, s.tid = some n → s.point n = .ended) : Settled s' where
  alive := by
    intro n halive
    rw [htid]
    apply h.alive n
    rwa [Alive, hpoint] at halive
  flag := by
    rw [hpoint, htid, hdisposed]
    exact h.flag
  waiting := by
    rw [hpoint, htid]
    exact hwaiting

theorem Settled.cleared (h : Settled s) (htid : s.tid = some n) (hended : s.point n = .ended)
    (hpoint : s'.point = s.point) (htid' : s'.tid = none) : Settled s' where
  alive := by
    intro m halive
    rw [Alive, hpoint] at halive
    obtain rfl : n = m := Option.some.inj (htid.symm.trans (h.alive m halive))
    exact absurd hended halive.2
  flag := by
    intro m hm
    cases htid'.symm.trans hm
  waiting := by
    intro _ m hm
    cases htid'.symm.trans hm

/-- The current worker moves. -/
theorem Settled.moved {point : ThreadPoint} (h : Settled s) (halive : s.Alive n) (hgoes : Goes s n point s') :
    Settled s' where
  alive := by
    intro m hm
    rw [hgoes.tid]
    by_cases hmn : m = n
    · rw [hmn]
      exact h.alive n halive
    · apply h.alive m
      rwa [Alive, hgoes.moved, Function.update_of_ne hmn] at hm
  flag := by
    intro m hm
    rw [hgoes.tid, h.alive n halive] at hm
    obtain rfl : n = m := Option.some.inj hm
    have hflag : s.disposed = false := by
      apply eq_false_of_ne_true
      exact fun hset => halive.2 ((h.flag n (h.alive n halive)).mp hset)
    rw [hgoes.flag, hflag, Bool.false_or, hgoes.moved, Function.update_self, beq_iff_eq]
  waiting := by
    intro hwaiting
    rw [hgoes.owner] at hwaiting
    exact absurd (h.waiting hwaiting n (h.alive n halive)) halive.2

theorem Settled.work (h : Settled s) (hwork : s.work n interval id turn = some p) : Settled p.1 := by
  obtain ⟨point, hgoes⟩ := goes_work hwork
  exact h.moved (alive_of_work hwork) hgoes

theorem Settled.create (h : Settled s) (htid : s.tid = none) (howner : s.owner = .idle) : Settled s.create where
  alive := by
    intro n halive
    by_cases hn : n = s.births
    · rw [hn]
      rfl
    · have hpoint : s.create.point n = s.point n := Function.update_of_ne hn ..
      rw [Alive, hpoint] at halive
      cases htid.symm.trans (h.alive n halive)
  flag := by
    intro n hn
    obtain rfl : s.births = n := Option.some.inj hn
    have hpoint : s.create.point s.births = .created := Function.update_self ..
    rw [hpoint]
    constructor
    · intro hdisposed
      cases hdisposed
    · intro hended
      cases hended
  waiting := by
    intro hwaiting
    cases howner.symm.trans hwaiting

/-- `ready` changes `can_run` and the owner. -/
theorem Settled.ready (h : Settled s) : Settled s.ready.1 := by
  have hready : s.ready.1.owner ≠ .waiting := by
    obtain ⟨-, -, howner | howner⟩ := @ready_kept s <;> rw [howner] <;> exact OwnerPoint.noConfusion
  have hkept : s.ready.1.point = s.point ∧ s.ready.1.disposed = s.disposed := by
    unfold ThreadLife.ready
    split <;> exact ⟨rfl, rfl⟩
  exact h.unmoved hkept.1 ready_kept.1 hkept.2 fun hwaiting => absurd hwaiting hready

theorem Settled.start (h : Settled s) (howner : s.owner = .idle) : Settled s.start.1 := by
  cases htid : s.tid with
  | some n =>
      rw [start_of_some htid]
      exact h
  | none =>
      rw [start_creates htid]
      exact (h.create htid howner).ready

theorem Settled.stop (h : Settled s) : Settled (s.stop true).1 := by
  cases htid : s.tid with
  | none =>
      rw [stop_of_none htid]
      exact h
  | some n =>
      rw [stop_of_some htid]
      unfold dispose
      by_cases hdisposed : s.disposed = true
      · rw [if_pos hdisposed]
        exact h.cleared htid ((h.flag n htid).mp hdisposed) rfl rfl
      · rw [if_neg hdisposed, if_pos rfl]
        exact h.unmoved rfl rfl rfl OwnerPoint.noConfusion

theorem Settled.await (h : Settled s) (htid : s.tid = some n) (hended : s.point n = .ended) :
    Settled s.await.1 := by
  unfold ThreadLife.await
  split
  · exact h.cleared htid hended rfl rfl
  · refine h.unmoved rfl rfl rfl ?_
    intro _ m hm
    obtain rfl : n = m := Option.some.inj (htid.symm.trans hm)
    exact hended

theorem ended_of_workerEnded (hended : s.workerEnded = true) : ∃ n, s.tid = some n ∧ s.point n = .ended := by
  rw [workerEnded, Option.any_eq_true] at hended
  obtain ⟨n, htid, hpoint⟩ := hended
  exact ⟨n, htid, eq_of_beq hpoint⟩

theorem alive_of_created (hpoint : s.point n = .created) : s.Alive n := by
  rw [Alive, hpoint]
  exact ⟨ThreadPoint.noConfusion, ThreadPoint.noConfusion⟩

theorem Settled.step {r r' : ThreadLife × List Nat} (h : Settled r.1)
    (hbusy : r.1.owner ≠ .idle → ∃ n, r.1.tid = some n) (hjoins : ∀ n, .joins n false ∉ shown)
    (hstep : Reaping interval r shown r') : Settled r'.1 := by
  cases hstep with
  | stopsLoop => exact h.unmoved rfl rfl rfl h.waiting
  | @pauses s paused n id hpoint =>
      have hgoes : Goes s n .created (s.leave n .created) := goes_leave ThreadPoint.noConfusion
      exact h.moved (alive_of_created hpoint) ⟨⟨rfl, rfl, rfl⟩, hgoes.moved, hgoes.flag⟩
  | @resumes s paused n hpoint =>
      have hgoes : Goes s n .awaiting (s.goOn n .awaiting) := goes_goOn ThreadPoint.noConfusion
      exact h.moved (alive_of_created hpoint) ⟨⟨rfl, rfl, rfl⟩, hgoes.moved, hgoes.flag⟩
  | refused => exact h
  | @move s _ _ paused m hreap =>
      obtain ⟨p, hmove, heq⟩ := Option.map_eq_some_iff.mp hreap
      obtain ⟨rfl, rfl⟩ := Prod.mk.inj heq
      cases moved_of_move hmove with
      | start howner => exact h.start howner
      | started => exact h.ready
      | stop => exact h.stop
      | joined error howner hreturns =>
          obtain ⟨n, htid⟩ := hbusy (ne_of_eq_of_ne howner OwnerPoint.noConfusion)
          cases error with
          | true =>
              rw [reapingOf_joined htid] at hjoins
              exact absurd List.mem_cons_self (hjoins n)
          | false =>
              obtain ⟨m, hm, hended⟩ := ended_of_workerEnded hreturns
              exact h.await hm hended
      | waited howner =>
          obtain ⟨n, htid⟩ := hbusy (ne_of_eq_of_ne howner OwnerPoint.noConfusion)
          exact h.await htid (h.waiting howner n htid)
      | work n id turn hwork => exact h.work hwork

theorem settled_init : Settled init where
  alive := fun _ halive => absurd rfl halive.1
  flag := by
    intro n htid
    cases htid
  waiting := by
    intro hwaiting
    cases hwaiting

/-- As long as no join fails, the flag is set exactly when the worker has come to its end. -/
theorem settled_of_run {r : ThreadLife × List Nat} (hrun : Reaped interval trace r)
    (hjoins : ∀ n, .joins n false ∉ trace) : Settled r.1 := by
  induction hrun with
  | start hinit =>
      rw [hinit]
      exact settled_init
  | @next trace shown _ _ hbefore hstep ih =>
      refine (ih ?_).step (reckoned_of_run hbefore).busy ?_ hstep
      · exact fun n hmem => hjoins n (List.mem_append_left shown hmem)
      · exact fun n hmem => hjoins n (List.mem_append_right trace hmem)

end flag

/-! ### Who is joined -/

section joins

variable {interval : Bool} {s : ThreadLife} {n : Nat} {before after trace told events : List ReapEvent}
  {e : ReapEvent}

theorem mem_tale : e ∈ tale n trace ↔ e ∈ trace ∧ e.worker = n := by
  rw [tale, List.mem_filter, decide_eq_true_iff]

theorem filter_isJoin_tale : (tale n trace).filter (isJoin n) = trace.filter (isJoin n) := by
  rw [tale, List.filter_filter]
  apply List.filter_congr
  intro e _
  cases e with
  | created | stops | clears => rfl
  | joins m ok => exact Bool.and_self _

theorem unhindered_tale : Unhindered n (tale n trace) ↔ Unhindered n trace := by
  have hstops : ReapEvent.stops n true ∈ tale n trace ↔ ReapEvent.stops n true ∈ trace :=
    mem_tale.trans (and_iff_left rfl)
  have hjoins : ReapEvent.joins n false ∈ tale n trace ↔ ReapEvent.joins n false ∈ trace :=
    mem_tale.trans (and_iff_left rfl)
  rw [Unhindered, hstops, hjoins, Unhindered]

/-- What has happened to a worker when its tid is cleared. Nothing does afterwards. -/
theorem Tale.cleared (h : Tale s n (told ++ .clears n :: events)) : events = [] ∧
    (told = [.created n, .stops n true] ∨ ∃ ok, told = [.created n, .stops n false, .joins n ok]) := by
  generalize hall : told ++ .clears n :: events = all at h
  have hmem : .clears n ∈ all := hall ▸ List.mem_append_right told List.mem_cons_self
  cases h with
  | unborn | held | joining | waiting => simp at hmem
  | unjoined =>
      have hsplit : [.created n, .stops n true] ++ .clears n :: [] = told ++ .clears n :: events := hall.symm
      obtain ⟨htold, -, hevents⟩ := (List.append_cons_inj_of_notMem (by simp) (by simp)).mp hsplit
      exact ⟨hevents.symm, .inl htold.symm⟩
  | joined ok =>
      have hsplit : [.created n, .stops n false, .joins n ok] ++ .clears n :: [] = told ++ .clears n :: events :=
        hall.symm
      obtain ⟨htold, -, hevents⟩ := (List.append_cons_inj_of_notMem (by simp) (by simp)).mp hsplit
      exact ⟨hevents.symm, .inr ⟨ok, htold.symm⟩⟩

theorem Reckoned.cleared (h : Reckoned (before ++ .clears n :: after) s) : tale n after = [] ∧
    (tale n before = [.created n, .stops n true] ∨
      ∃ ok, tale n before = [.created n, .stops n false, .joins n ok]) := by
  have htale : tale n (before ++ .clears n :: after) = tale n before ++ .clears n :: tale n after := by
    rw [tale_append]
    congr 1
    exact List.filter_cons_of_pos (decide_eq_true rfl)
  have htales : Tale s n (tale n before ++ .clears n :: tale n after) := htale ▸ h.tales n
  exact htales.cleared

theorem Reckoned.once_iff (h : Reckoned (before ++ .clears n :: after) s) :
    JoinedOnce n before ↔ Unhindered n before := by
  rw [← unhindered_tale, JoinedOnce, ← filter_isJoin_tale]
  obtain ⟨-, htale | ⟨ok, htale⟩⟩ := h.cleared
  · simp [htale, isJoin, Unhindered]
  · cases ok <;> simp [htale, isJoin, Unhindered]

theorem Reckoned.unhindered_iff (h : Reckoned (before ++ .clears n :: after) s) :
    Unhindered n (before ++ .clears n :: after) ↔ Unhindered n before := by
  obtain ⟨hafter, -⟩ := h.cleared
  have htale : tale n (before ++ .clears n :: after) = tale n before ++ [.clears n] := by
    rw [List.append_cons, tale_append, tale_append, hafter, List.append_nil]
    congr 1
    exact List.filter_cons_of_pos (decide_eq_true rfl)
  rw [← unhindered_tale, htale, ← @unhindered_tale n before]
  simp [Unhindered]

/-- A worker is joined once before its tid is cleared exactly when `stop` has found the flag not set and
its join has not failed. The flag is set when the worker has come to its end by itself. -/
theorem joinedOnce_iff {r : ThreadLife × List Nat} (hrun : Reaped interval trace r) :
    Throughout (fun before e => ∀ n, e = .clears n → (JoinedOnce n before ↔ Unhindered n before)) trace ∧
      (AllJoined trace ↔ ∀ n, .clears n ∈ trace → Unhindered n trace) ∧
        ((∀ n, .joins n false ∉ trace) →
          ∀ n, r.1.tid = some n → (r.1.disposed = true ↔ r.1.point n = .ended)) := by
  have hreckoned : Reckoned trace r.1 := reckoned_of_run hrun
  refine ⟨?_, ⟨?_, ?_⟩, fun hjoins => (settled_of_run hrun hjoins).flag⟩
  · rintro before _ after rfl n rfl
    exact hreckoned.once_iff
  · intro hall n hmem
    obtain ⟨before, after, rfl⟩ := List.append_of_mem hmem
    have honce : JoinedOnce n before := hall before (.clears n) after rfl n rfl
    exact hreckoned.unhindered_iff.mpr (hreckoned.once_iff.mp honce)
  · rintro hall before _ after rfl n rfl
    have hunhindered : Unhindered n (before ++ .clears n :: after) :=
      hall n (List.mem_append_right before List.mem_cons_self)
    exact hreckoned.once_iff.mpr (hreckoned.unhindered_iff.mp hunhindered)

/-- `stop` finds the worker in `cycle`. -/
def joinedMoves : List Move :=
  [.start, .work 0 100 .yields, .work 0 0 .yields, .started, .work 0 0 .yields, .work 0 0 .yields,
    .work 0 0 (.returns true), .work 0 0 .yields, .stop, .work 0 0 (.returns false), .work 0 0 .yields,
    .joined false]

/-- `cycle` calls `interrupt` and returns, and `stop` comes afterwards. -/
def unjoinedMoves : List Move :=
  [.start, .work 0 100 .yields, .work 0 0 .yields, .started, .work 0 0 .yields, .work 0 0 .yields,
    .work 0 0 (.returns true), .work 0 0 .stopsLoop, .work 0 0 (.returns false), .work 0 0 .yields, .stop]

def joinedTrace : List ReapEvent := [.created 0, .stops 0 false, .joins 0 true, .clears 0]

def unjoinedTrace : List ReapEvent := [.created 0, .stops 0 true, .clears 0]

theorem reaped_of_play {moves : List Move}
    (hplay : (play (reap interval) moves init).map Prod.snd = some trace) :
    ∃ s, Reaped interval trace (s, []) := by
  obtain ⟨⟨s, shown⟩, hs, rfl⟩ := Option.map_eq_some_iff.mp hplay
  exact ⟨s, reaped_of_moves (Run.of_play (reap interval) (fun m _ _ hreap => ⟨m, hreap⟩) hs)⟩

theorem joinedOnce_iff_joined : ∃ s, Reaped true joinedTrace (s, []) ∧ AllJoined joinedTrace := by
  have hplay : (play (reap true) joinedMoves init).map Prod.snd = some joinedTrace := by decide
  obtain ⟨s, hrun⟩ := reaped_of_play hplay
  refine ⟨s, hrun, (joinedOnce_iff hrun).2.1.mpr ?_⟩
  intro n hmem
  obtain rfl : n = 0 := by simpa [joinedTrace] using hmem
  simp [Unhindered, joinedTrace]

theorem not_allJoined : ¬ ∀ trace r, Reaped true trace r → AllJoined trace := by
  intro hall
  have hplay : (play (reap true) unjoinedMoves init).map Prod.snd = some unjoinedTrace := by decide
  obtain ⟨s, hrun⟩ := reaped_of_play hplay
  have honce : JoinedOnce 0 [.created 0, .stops 0 true] := hall unjoinedTrace (s, []) hrun _ (.clears 0) [] rfl 0 rfl
  exact absurd honce (by decide)

end joins

end ThreadLife

end LinkedonPush
