import Mathlib.Data.List.Basic

/-!
# Runs

Finite runs of a system whose steps show something: a list of observations. A run is the state it
ends in together with everything it has shown, so a property of a run may speak about both.
-/

namespace Theory

variable {σ ο : Type}

/-- The run that starts in some initial state, has shown `trace` and ends in the given state. -/
inductive Run (init : σ → Prop) (step : σ → List ο → σ → Prop) : List ο → σ → Prop where
  | start {s : σ} (hinit : init s) : Run init step [] s
  | next {trace shown : List ο} {s s' : σ} (before : Run init step trace s) (hstep : step s shown s') :
      Run init step (trace ++ shown) s'

namespace Run

variable {init : σ → Prop} {step : σ → List ο → σ → Prop} {trace : List ο} {s : σ}

/-- A property of trace and state that starts true and survives every step holds at the end of every
run. -/
theorem invariant (inv : List ο → σ → Prop) (hinit : ∀ s, init s → inv [] s)
    (hstep : ∀ trace s shown s', inv trace s → step s shown s' → inv (trace ++ shown) s')
    (hrun : Run init step trace s) : inv trace s := by
  induction hrun with
  | start h => exact hinit _ h
  | next _ h ih => exact hstep _ _ _ _ ih h

/-- The same for a property of the state alone. -/
theorem invariant_state (inv : σ → Prop) (hinit : ∀ s, init s → inv s)
    (hstep : ∀ s shown s', inv s → step s shown s' → inv s') (hrun : Run init step trace s) : inv s :=
  hrun.invariant (fun _ s => inv s) hinit fun _ => hstep

/-- The runs of a system are runs of every system that has its steps. -/
theorem mono {step' : σ → List ο → σ → Prop} (h : ∀ s shown s', step s shown s' → step' s shown s')
    (hrun : Run init step trace s) : Run init step' trace s := by
  induction hrun with
  | start hinit => exact .start hinit
  | next _ hstep ih => exact .next ih (h _ _ _ hstep)

/-- A run goes on with any run that starts where it ended. -/
theorem append {more : List ο} {s' : σ} (hrun : Run init step trace s)
    (hmore : Run (· = s) step more s') : Run init step (trace ++ more) s' := by
  induction hmore with
  | start h =>
      rw [List.append_nil, h]
      exact hrun
  | next _ h ih =>
      rw [← List.append_assoc]
      exact .next ih h

/-- The run of one step. -/
theorem single {shown : List ο} {s' : σ} (h : step s shown s') : Run (· = s) step shown s' := by
  have hstart : Run (· = s) step [] s := .start rfl
  exact .next hstart h

end Run

/-! ### Moves -/

section play

variable {μ : Type} (move : μ → σ → Option (σ × List ο))

/-- Where a list of moves leads and what it shows, if none of them is refused. -/
def play : List μ → σ → Option (σ × List ο)
  | [], s => some (s, [])
  | m :: moves, s =>
      (move m s).bind fun next => (play moves next.1).map fun last => (last.1, next.2 ++ last.2)

/-- Moves make a run of every system that has their steps. -/
theorem Run.of_play {step : σ → List ο → σ → Prop} {moves : List μ} {s s' : σ} {shown : List ο}
    (hstep : ∀ m s next, move m s = some next → step s next.2 next.1)
    (hplay : play move moves s = some (s', shown)) : Run (· = s) step shown s' := by
  induction moves generalizing s shown with
  | nil =>
      obtain ⟨rfl, rfl⟩ := Prod.mk.inj (Option.some.inj hplay)
      exact .start rfl
  | cons m moves ih =>
      rw [play, Option.bind_eq_some_iff] at hplay
      obtain ⟨next, hmove, hmoves⟩ := hplay
      rw [Option.map_eq_some_iff] at hmoves
      obtain ⟨last, hlast, heq⟩ := hmoves
      obtain ⟨rfl, rfl⟩ := Prod.mk.inj heq
      have hfirst : Run (· = s) step next.2 next.1 := .single (hstep m s next hmove)
      exact hfirst.append (ih hlast)

end play

/-! ### Properties of traces -/

/-- Every observation of the trace is legal after the ones before it. -/
def Throughout (legal : List ο → ο → Prop) (trace : List ο) : Prop :=
  ∀ before o after, trace = before ++ o :: after → legal before o

section Throughout

variable {legal : List ο → ο → Prop} {trace : List ο}

/-- An observation of a trace that goes on was there before, or is among what is new. -/
theorem append_eq_append_cons {trace shown before after : List ο} {o : ο}
    (h : trace ++ shown = before ++ o :: after) :
    (∃ more, trace = before ++ o :: more ∧ after = more ++ shown) ∨
      ∃ more, before = trace ++ more ∧ shown = more ++ o :: after := by
  rcases List.append_eq_append_iff.mp h with ⟨more, hbefore, hshown⟩ | ⟨more, htrace, hrest⟩
  · exact .inr ⟨more, hbefore, hshown⟩
  · cases more with
    | nil =>
        rw [List.append_nil] at htrace
        refine .inr ⟨[], ?_, hrest.symm⟩
        rw [List.append_nil, htrace]
    | cons o' more =>
        obtain ⟨rfl, hafter⟩ := List.cons.inj hrest
        exact .inl ⟨more, htrace, hafter⟩

theorem throughout_nil : Throughout legal [] := by
  intro before o after h
  exact absurd h.symm (List.append_ne_nil_of_right_ne_nil _ (List.cons_ne_nil _ _))

theorem throughout_append {shown : List ο} : Throughout legal (trace ++ shown) ↔ Throughout legal trace ∧
    ∀ before o after, shown = before ++ o :: after → legal (trace ++ before) o := by
  constructor
  · intro h
    refine ⟨fun before o after htrace => ?_, fun before o after hshown => ?_⟩
    · apply h before o (after ++ shown)
      rw [htrace, List.append_assoc, List.cons_append]
    · apply h (trace ++ before) o after
      rw [hshown, List.append_assoc]
  · intro h before o after heq
    obtain ⟨htrace, hshown⟩ := h
    rcases List.append_eq_append_iff.mp heq with ⟨more, rfl, rest⟩ | ⟨more, hmore, rest⟩
    · exact hshown more o after rest
    · cases more with
      | nil =>
          rw [List.append_nil] at hmore
          have hlegal := hshown [] o after rest.symm
          rwa [List.append_nil, hmore] at hlegal
      | cons o' more =>
          obtain ⟨rfl, -⟩ := List.cons.inj rest
          exact htrace before o more hmore

theorem throughout_append_singleton {o : ο} :
    Throughout legal (trace ++ [o]) ↔ Throughout legal trace ∧ legal trace o := by
  rw [throughout_append]
  apply and_congr_right
  intro _
  constructor
  · intro h
    have hlegal := h [] o [] rfl
    rwa [List.append_nil] at hlegal
  · intro h before o' after heq
    obtain ⟨rfl, rfl, rfl⟩ : before = [] ∧ o' = o ∧ after = [] := by
      simpa [List.append_eq_singleton_iff, eq_comm] using heq
    rwa [List.append_nil]

end Throughout

end Theory
