import Mathlib.Algebra.GroupWithZero.Nat
import Mathlib.Data.List.Perm.Subperm
import LinkedonPush.Theory.Run

/-!
# A queue that outlives its consumer

A consumer takes elements off the front of a queue and acts on some of them. It may end at any
moment, and the next one starts from the queue alone, to which producers may have added something in
the meantime.
-/

namespace Theory

/-- A consumer, and what its observations say: an element that was added to the queue, how many were
removed from its front, and what was done. -/
structure Consumer (σ ο ε μ : Type) where
  start : List ε → σ
  step : σ → List ο → σ → Prop
  queue : σ → List ε
  adds? : ο → Option ε
  removes : ο → Nat
  does? : ο → Option μ

/-- A consumer at work, or the queue that the last one has left. -/
inductive Life (σ ε : Type) where
  | up (s : σ)
  | down (queue : List ε)

inductive Incident (ο ε : Type) where
  | shows (o : ο)
  /-- Added while there was no consumer. -/
  | waited (element : ε)
  | started
  | ended

namespace Consumer

variable {σ ο ε μ : Type} (k : Consumer σ ο ε μ)

inductive Step : Life σ ε → List (Incident ο ε) → Life σ ε → Prop where
  | lives {s s' : σ} {shown : List ο} (h : k.step s shown s') : Step (.up s) (shown.map .shows) (.up s')
  | ends (s : σ) : Step (.up s) [.ended] (.down (k.queue s))
  | waits (queue : List ε) (element : ε) : Step (.down queue) [.waited element] (.down (queue ++ [element]))
  | starts (queue : List ε) : Step (.down queue) [.started] (.up (k.start queue))

/-- The runs over any number of lives, from the empty queue. -/
abbrev Reached : List (Incident ο ε) → Life σ ε → Prop := Run (· = .down []) k.Step

def left : Life σ ε → List ε
  | .up s => k.queue s
  | .down queue => queue

def given? : Incident ο ε → Option ε
  | .shows o => k.adds? o
  | .waited element => some element
  | _ => none

def takes : Incident ο ε → Nat
  | .shows o => k.removes o
  | _ => 0

def done? : Incident ο ε → Option μ
  | .shows o => k.does? o
  | _ => none

/-- All elements that were ever added. -/
def given (trace : List (Incident ο ε)) : List ε := trace.filterMap k.given?

/-- How many were ever removed. -/
def taken (trace : List (Incident ο ε)) : Nat := (trace.map k.takes).sum

def done (trace : List (Incident ο ε)) : List μ := trace.filterMap k.done?

/-- What observations of all lives say on their own. -/
def aside? (other? : ο → Option μ) : Incident ο ε → Option μ
  | .shows o => other? o
  | _ => none

/-- The balance of a queue: what is left of it is what was added behind what was removed, and each
deed is owed to an element of its own among the removed ones, or to one of the others. -/
structure Balance (message? : ε → Option μ) (added : List ε) (removed : Nat) (deeds others : List μ)
    (queue : List ε) : Prop where
  rest : queue = added.drop removed
  within : removed ≤ added.length
  owed : deeds.Subperm ((added.take removed).filterMap message? ++ others)

/-- Every life keeps the balance of the queue that it found. -/
def Sound (message? : ε → Option μ) (other? : ο → Option μ) : Prop :=
  ∀ found trace s, Run (· = k.start found) k.step trace s →
    Balance message? (found ++ trace.filterMap k.adds?) (trace.map k.removes).sum (trace.filterMap k.does?)
      (trace.filterMap other?) (k.queue s)

/-- The balance over all lives. -/
def Balanced (message? : ε → Option μ) (other? : ο → Option μ) (trace : List (Incident ο ε)) (queue : List ε) :
    Prop :=
  Balance message? (k.given trace) (k.taken trace) (k.done trace) (trace.filterMap (aside? other?)) queue

/-- Where a run has come to: the lives before have left a balanced queue, from which the present one
has started. -/
inductive Lived (message? : ε → Option μ) (other? : ο → Option μ) : List (Incident ο ε) → Life σ ε → Prop where
  | down {trace : List (Incident ο ε)} {queue : List ε} (h : k.Balanced message? other? trace queue) :
      Lived message? other? trace (.down queue)
  | up {before : List (Incident ο ε)} {found : List ε} {own : List ο} {s : σ}
      (h : k.Balanced message? other? before found) (hrun : Run (· = k.start found) k.step own s) :
      Lived message? other? (before ++ .started :: own.map .shows) (.up s)

section balance

variable {k : Consumer σ ο ε μ} {message? : ε → Option μ} {other? : ο → Option μ} {added more queue queue' : List ε}
  {removed removed' : Nat} {deeds others deeds' others' : List μ} {trace before : List (Incident ο ε)} {own : List ο}
  {found : List ε} {s : σ} {p : Life σ ε}

/-- A queue that nobody has touched. -/
theorem balance_untouched (added : List ε) : Balance message? added 0 [] [] added :=
  ⟨rfl, Nat.zero_le _, List.nil_subperm⟩

/-- The balance of a life goes on top of the one it found. -/
theorem Balance.next (h : Balance message? added removed deeds others queue)
    (h' : Balance message? (queue ++ more) removed' deeds' others' queue') :
    Balance message? (added ++ more) (removed + removed') (deeds ++ deeds') (others ++ others') queue' := by
  have hrest : (added ++ more).drop removed = queue ++ more := by
    rw [List.drop_append_of_le_length h.within, h.rest]
  have htake : (added ++ more).take (removed + removed') = added.take removed ++ (queue ++ more).take removed' := by
    rw [List.take_add, hrest, List.take_append_of_le_length h.within]
  constructor
  · rw [← List.drop_drop, hrest]
    exact h'.rest
  · have hwithin := h'.within
    rw [← hrest, List.length_drop, List.length_append] at hwithin
    have hbefore := h.within
    rw [List.length_append]
    omega
  · refine (h.owed.append h'.owed).trans (List.Perm.subperm ?_)
    rw [htake, List.filterMap_append, List.append_assoc, List.append_assoc]
    apply List.Perm.append_left
    rw [← List.append_assoc, ← List.append_assoc]
    exact List.perm_append_comm.append_right _

theorem given_append (trace shown : List (Incident ο ε)) :
    k.given (trace ++ shown) = k.given trace ++ k.given shown :=
  List.filterMap_append

theorem taken_append (trace shown : List (Incident ο ε)) :
    k.taken (trace ++ shown) = k.taken trace + k.taken shown := by
  rw [taken, List.map_append, List.sum_append]
  rfl

theorem done_append (trace shown : List (Incident ο ε)) : k.done (trace ++ shown) = k.done trace ++ k.done shown :=
  List.filterMap_append

theorem given_life (own : List ο) : k.given (.started :: own.map .shows) = own.filterMap k.adds? := by
  rw [given, List.filterMap_cons_none rfl, List.filterMap_map]
  rfl

theorem taken_life (own : List ο) : k.taken (.started :: own.map .shows) = (own.map k.removes).sum := by
  rw [taken, List.map_cons, List.sum_cons, List.map_map]
  exact Nat.zero_add _

theorem done_life (own : List ο) : k.done (.started :: own.map .shows) = own.filterMap k.does? := by
  rw [done, List.filterMap_cons_none rfl, List.filterMap_map]
  rfl

theorem aside_life (own : List ο) :
    List.filterMap (aside? other?) (.started :: own.map .shows : List (Incident ο ε)) = own.filterMap other? := by
  rw [List.filterMap_cons_none rfl, List.filterMap_map]
  rfl

theorem Balanced.append {shown : List (Incident ο ε)} (h : k.Balanced message? other? trace queue)
    (h' : Balance message? (queue ++ k.given shown) (k.taken shown) (k.done shown) (shown.filterMap (aside? other?))
      queue') : k.Balanced message? other? (trace ++ shown) queue' := by
  unfold Balanced
  rw [given_append, taken_append, done_append, List.filterMap_append]
  exact h.next h'

/-- A life keeps the balance over all lives. -/
theorem Balanced.life (h : k.Balanced message? other? before found) (hsound : k.Sound message? other?)
    (hrun : Run (· = k.start found) k.step own s) :
    k.Balanced message? other? (before ++ .started :: own.map .shows) (k.queue s) := by
  apply h.append
  rw [given_life, taken_life, done_life, aside_life]
  exact hsound found own s hrun

theorem Lived.balanced (h : k.Lived message? other? trace p) (hsound : k.Sound message? other?) :
    k.Balanced message? other? trace (k.left p) := by
  cases h with
  | down h => exact h
  | up h hrun => exact h.life hsound hrun

theorem Lived.step {shown : List (Incident ο ε)} {p' : Life σ ε} (h : k.Lived message? other? trace p)
    (hsound : k.Sound message? other?) (hstep : k.Step p shown p') : k.Lived message? other? (trace ++ shown) p' := by
  cases hstep with
  | lives hlife =>
      cases h with
      | up h hrun =>
          rw [List.append_assoc, List.cons_append, ← List.map_append]
          exact .up h (.next hrun hlife)
  | ends s =>
      have hsame : k.queue s ++ k.given [.ended] = k.queue s := List.append_nil _
      refine .down ((h.balanced hsound).append ?_)
      rw [left, hsame]
      exact balance_untouched (k.queue s)
  | waits queue element =>
      cases h with
      | down h => exact .down (h.append (balance_untouched (queue ++ [element])))
  | starts queue =>
      cases h with
      | down h => exact .up h (.start rfl)

/-- A run of the consumer is part of a life. -/
theorem run_lives {s s' : σ} (hrun : Run (· = s) k.step own s') :
    Run (· = .up s) k.Step (own.map .shows) (.up s') := by
  induction hrun with
  | start h =>
      rw [h]
      exact .start rfl
  | next _ hstep ih =>
      rw [List.map_append]
      exact .next ih (.lives hstep)

theorem Reached.lived (hrun : k.Reached trace p) (hsound : k.Sound message? other?) :
    k.Lived message? other? trace p := by
  apply hrun.invariant (k.Lived message? other?) _ fun _ _ _ _ h hstep => h.step hsound hstep
  intro p hp
  rw [hp]
  exact .down (balance_untouched [])

/-- **The balance of all lives**, wherever they end. -/
theorem Reached.balanced (hrun : k.Reached trace p) (hsound : k.Sound message? other?) :
    k.Balanced message? other? trace (k.left p) :=
  (Reached.lived hrun hsound).balanced hsound

end balance

end Consumer

end Theory
