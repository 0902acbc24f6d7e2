import Mathlib.Data.List.Chain
import LinkedonPush.App.Signals

/-!
# The registry of the servers

Every process keeps an entry in one hash: how many connections it has, and when it said so. Any number
of processes start, announce, withdraw and die; two of them never have one address at the same time.
-/

namespace LinkedonPush

open Theory

/-! ### The announcements -/

/-- The readings of the clock, in order. -/
def Report.readings : Report → List Int
  | .woke now => [now]
  | .announced _ time after => [time, after]
  | _ => []

/-- The reading a turn begins with. -/
def Report.woke? : Report → Option Int
  | .woke now => some now
  | _ => none

namespace Master

/-- The time that was noted last. -/
def noted (start : Int) (trace : List Report) : Int :=
  trace.foldl (fun before o => match o with
    | .announced _ _ after => after
    | _ => before) start

/-- What the server of the process has shown. -/
def served (trace : List Report) : List Server.Observation := trace.filterMap Report.observation?

/-- When an announcement may come, and what it says. -/
def Announces (start : Int) (before : List Report) : Report → Prop
  | .announced conns _ _ =>
      (∃ woken now, before = woken ++ [.woke now] ∧ noted start before + 2 < now) ∧
        conns + (served before).countP Server.Observation.removes =
          (served before).countP Server.Observation.accepts
  | _ => True

section announcements

variable {setup : Setup} {tasks : List Bytes} {trace shown : List Report} {m m' : Master} {start : Int}

theorem noted_append (trace shown : List Report) : noted start (trace ++ shown) = noted (noted start trace) shown :=
  List.foldl_append

theorem noted_sights (sights : List Sight) : noted start (sights.map .sight) = start := by
  induction sights with
  | nil => rfl
  | cons o sights ih => exact ih

theorem served_append (trace shown : List Report) : served (trace ++ shown) = served trace ++ served shown :=
  List.filterMap_append

/-- While the process serves, its trace is one of its server. -/
theorem Reached.serving (hrun : Reached setup tasks start trace m) (hmain : m.daemon.main = .serving) :
    Server.Reached setup tasks (served trace) m.daemon.server := by
  obtain ⟨-, strace, hserver, htrace⟩ := Daemon.serving_reached hrun.daemon hmain
  have hserved : served trace =
      (trace.filterMap Report.sight?).filterMap fun o => Report.observation? (.sight o) := by
    rw [List.filterMap_filterMap, served]
    apply List.filterMap_congr
    intro o _
    cases o <;> rfl
  rw [htrace, List.filterMap_map] at hserved
  have hsame : ((fun o => Report.observation? (.sight o)) ∘ Sight.server) = some := rfl
  rw [hsame, List.filterMap_some] at hserved
  rw [hserved]
  exact hserver

theorem throughout_sights {legal : List Report → Report → Prop} (hlegal : ∀ before o, legal before (.sight o))
    (h : Throughout legal trace) (sights : List Sight) : Throughout legal (trace ++ sights.map .sight) := by
  rw [throughout_append]
  refine ⟨h, fun before o after heq => ?_⟩
  have hmem : o ∈ sights.map Report.sight := by
    rw [heq]
    exact List.mem_append_right _ List.mem_cons_self
  obtain ⟨sight, -, rfl⟩ := List.mem_map.mp hmem
  exact hlegal _ sight

theorem throughout_hreat {announced : List Report} {now time after : Int}
    (h : Throughout (Announces start) trace) (hnoted : m.beforeTime = noted start trace)
    (hcount : m.daemon.server.table.length + (served trace).countP Server.Observation.removes =
      (served trace).countP Server.Observation.accepts)
    (hhreat : Hreat m now time after announced m') :
    Throughout (Announces start) (trace ++ .woke now :: announced) ∧
      m'.beforeTime = noted start (trace ++ .woke now :: announced) := by
  have hwoke : Throughout (Announces start) (trace ++ [.woke now]) := throughout_append_singleton.mpr ⟨h, trivial⟩
  have hnoted' : noted start (trace ++ [.woke now]) = m.beforeTime := by
    rw [noted_append, hnoted]
    rfl
  cases hhreat with
  | early hearly => exact ⟨hwoke, hnoted'.symm⟩
  | due hdue =>
      have hserved : served (trace ++ [.woke now]) = served trace := by
        rw [served_append]
        exact List.append_nil _
      have hsplit : trace ++ [.woke now, .announced m.daemon.server.table.length time after] =
          (trace ++ [.woke now]) ++ [.announced m.daemon.server.table.length time after] := by
        rw [List.append_assoc]
        rfl
      rw [hsplit]
      refine ⟨throughout_append_singleton.mpr ⟨hwoke, ⟨trace, now, rfl, ?_⟩, ?_⟩, ?_⟩
      · rw [hnoted']
        omega
      · rw [hserved]
        exact hcount
      · rw [noted_append]
        rfl

theorem Reached.announces (hrun : Reached setup tasks start trace m) :
    Throughout (Announces start) trace ∧ m.beforeTime = noted start trace := by
  induction hrun with
  | start hinit =>
      rw [hinit]
      exact ⟨throughout_nil, rfl⟩
  | @next trace shown m m' hbefore hstep ih =>
      have hbefore : Reached setup tasks start trace m := hbefore
      have hcount : m.daemon.main = .serving → _ := fun hmain => (hbefore.serving hmain).table_length
      obtain ⟨hlegal, hnoted⟩ := ih
      have hsights : ∀ before o, Announces start before (.sight o) := fun _ _ => trivial
      cases hstep.moved with
      | daemon dm hrunning hown hmove hstays =>
          refine ⟨throughout_sights hsights hlegal _, ?_⟩
          rw [noted_append, noted_sights]
          exact hnoted
      | withdraws dm hrunning hown hmove hexits =>
          rw [← List.append_assoc]
          refine ⟨throughout_append_singleton.mpr ⟨throughout_sights hsights hlegal _, trivial⟩, ?_⟩
          rw [noted_append, noted_append, noted_sights]
          exact hnoted
      | caught signo =>
          refine ⟨throughout_append_singleton.mpr ⟨hlegal, trivial⟩, ?_⟩
          rw [noted_append]
          exact hnoted
      | handled signo rest hpipe =>
          refine ⟨throughout_append_singleton.mpr ⟨hlegal, trivial⟩, ?_⟩
          rw [noted_append]
          cases signo <;> exact hnoted
      | stuck | killed | leaves =>
          rw [List.append_nil]
          exact ⟨hlegal, hnoted⟩
      | turns now time after hrunning hserving hquit hhreat hmove =>
          obtain ⟨hlegal', hnoted'⟩ := throughout_hreat hlegal hnoted (hcount hserving) hhreat
          rw [← List.append_assoc]
          refine ⟨throughout_sights hsights hlegal' _, ?_⟩
          rw [noted_append, noted_sights]
          exact hnoted'
      | raises now time after hrunning hserving hquit hhreat =>
          have hraised := throughout_hreat hlegal hnoted (hcount hserving) hhreat
          exact hraised

/-! ### The pace -/

/-- The readings of the clock. -/
def clock (trace : List Report) : List Int := trace.flatMap Report.readings

theorem clock_append (trace shown : List Report) : clock (trace ++ shown) = clock trace ++ clock shown :=
  List.flatMap_append

theorem noted_eq_or_mem (start : Int) (trace : List Report) :
    noted start trace = start ∨ noted start trace ∈ clock trace := by
  induction trace generalizing start with
  | nil => exact .inl rfl
  | cons o trace ih =>
      cases o with
      | announced conns time after =>
          have hclock : clock (.announced conns time after :: trace) = [time, after] ++ clock trace := rfl
          right
          rw [hclock, List.mem_append]
          rcases ih after with hsame | hmem
          · left
            change noted after trace ∈ _
            rw [hsame]
            exact List.mem_cons_of_mem _ List.mem_cons_self
          · exact .inr hmem
      | woke now =>
          rcases ih start with hsame | hmem
          · exact .inl hsame
          · exact .inr (List.mem_cons_of_mem _ hmem)
      | _ => exact ih start

theorem noted_mem (trace : List Report) : noted start trace ∈ start :: clock trace :=
  List.mem_cons.mpr (noted_eq_or_mem start trace)

/-- Where the clock does not go back, what is noted does not either. -/
theorem noted_le (hclock : (start :: clock (trace ++ shown)).Pairwise (· ≤ ·)) :
    noted start trace ≤ noted start (trace ++ shown) := by
  rw [clock_append, ← List.cons_append, List.pairwise_append] at hclock
  rw [noted_append]
  rcases noted_eq_or_mem (noted start trace) shown with hsame | hmem
  · rw [hsame]
  · exact hclock.2.2 _ (noted_mem trace) _ hmem

theorem woke_le_noted {announced : List Report} {now time after : Int} {sights : List Sight}
    (hclock : (start :: clock (trace ++ (.woke now :: announced ++ sights.map .sight))).Pairwise (· ≤ ·))
    (hnoted : m.beforeTime = noted start trace) (hhreat : Hreat m now time after announced m') {woken : Int}
    (hmem : .woke woken ∈ .woke now :: announced ++ sights.map Report.sight) :
    woken ≤ noted start (trace ++ (.woke now :: announced ++ sights.map .sight)) + 2 := by
  have hwoken : woken = now := by
    have hnot : .woke woken ∉ sights.map Report.sight := by simp
    rw [List.mem_append, List.mem_cons] at hmem
    rcases hmem with (heq | hannounced) | hsight
    · exact Report.woke.inj heq
    · cases hhreat with
      | due => cases List.mem_singleton.mp hannounced
      | early => exact (List.not_mem_nil hannounced).elim
    · exact (hnot hsight).elim
  rw [hwoken]
  have hle := noted_le hclock
  cases hhreat with
  | early hearly => omega
  | due hdue =>
      have hlast : noted start (trace ++ (.woke now :: [.announced m.daemon.server.table.length time after] ++
          sights.map .sight)) = after := by
        rw [noted_append, noted_append, noted_sights]
        rfl
      rw [clock_append, ← List.cons_append, List.pairwise_append] at hclock
      have hshown := hclock.2.1
      have hturn : clock (.woke now :: [.announced m.daemon.server.table.length time after] ++ sights.map .sight) =
          now :: time :: after :: clock (sights.map .sight) := rfl
      rw [hturn, List.pairwise_cons] at hshown
      have hafter : now ≤ after := hshown.1 after (List.mem_cons_of_mem _ List.mem_cons_self)
      rw [hlast]
      omega

/-- Every turn so far began at most two seconds behind the announcement that it found or made. -/
theorem Reached.woke_le (hrun : Reached setup tasks start trace m) (hclock : (start :: clock trace).Pairwise (· ≤ ·)) :
    ∀ now, .woke now ∈ trace → now ≤ noted start trace + 2 := by
  induction hrun with
  | start hinit => exact fun now hmem => (List.not_mem_nil hmem).elim
  | @next trace shown m m' hbefore hstep ih =>
      have hbefore : Reached setup tasks start trace m := hbefore
      have hle := noted_le hclock
      have hearlier : (start :: clock trace).Pairwise (· ≤ ·) := by
        rw [clock_append, ← List.cons_append, List.pairwise_append] at hclock
        exact hclock.1
      intro now hmem
      rcases List.mem_append.mp hmem with hold | hnew
      · have hbound := ih hearlier now hold
        omega
      · have hnoted := hbefore.announces.2
        cases hstep.moved with
        | daemon | stuck | killed | leaves | caught | handled | withdraws => simp at hnew
        | turns woken time after hrunning hserving hquit hhreat hmove =>
            exact woke_le_noted hclock hnoted hhreat hnew
        | @raises announced m₁ woken time after hrunning hserving hquit hhreat =>
            have hsame : Report.woke woken :: announced =
                .woke woken :: announced ++ ([] : List Sight).map .sight := (List.append_nil _).symm
            rw [hsame] at hclock hnew ⊢
            exact woke_le_noted hclock hnoted hhreat hnew

/-- The trace goes on with an announcement. -/
def StartsAnnounced (rest : List Report) : Prop := ∃ conns time after more, rest = .announced conns time after :: more

theorem StartsAnnounced.append {rest : List Report} (h : StartsAnnounced rest) (shown : List Report) :
    StartsAnnounced (rest ++ shown) := by
  obtain ⟨conns, time, after, more, rfl⟩ := h
  exact ⟨conns, time, after, more ++ shown, rfl⟩

/-- A turn begins what it shows, and announces first of all if that is due. -/
theorem Moved.turn (h : Moved setup m shown m') {more rest : List Report} {now : Int}
    (hshown : shown = more ++ .woke now :: rest) :
    more = [] ∧ (2 < now - m.beforeTime → StartsAnnounced rest) := by
  have hturn : ∀ {woken time after : Int} {announced : List Report} {m₁ : Master} (sights : List Sight),
      Hreat m woken time after announced m₁ →
      .woke woken :: announced ++ sights.map .sight = more ++ .woke now :: rest →
      more = [] ∧ (2 < now - m.beforeTime → StartsAnnounced rest) := by
    intro woken time after announced m₁ sights hhreat heq
    cases more with
    | nil =>
        obtain ⟨hwoken, rfl⟩ := List.cons.inj heq
        obtain rfl := Report.woke.inj hwoken
        refine ⟨rfl, fun hdue => ?_⟩
        cases hhreat with
        | due => exact ⟨_, time, after, sights.map .sight, rfl⟩
        | early hearly => exact (hearly hdue).elim
    | cons first more =>
        have hrest : announced ++ sights.map Report.sight = more ++ .woke now :: rest := (List.cons.inj heq).2
        have hmem : .woke now ∈ announced ++ sights.map Report.sight := by
          rw [hrest]
          exact List.mem_append_right _ List.mem_cons_self
        cases hhreat <;> simp at hmem
  have hmem : .woke now ∈ shown := by
    rw [hshown]
    exact List.mem_append_right _ List.mem_cons_self
  cases h with
  | daemon | stuck | killed | leaves | caught | handled | withdraws => simp at hmem
  | turns woken time after hrunning hserving hquit hhreat hmove => exact hturn _ hhreat hshown
  | raises woken time after hrunning hserving hquit hhreat => exact hturn [] hhreat (by rw [← hshown]; simp)

/-- A turn finds a state of the process, and an announcement that is due comes first. -/
theorem Reached.turn (hrun : Reached setup tasks start trace m) {before rest : List Report} {now : Int}
    (htrace : trace = before ++ .woke now :: rest) :
    (∃ m₁, Reached setup tasks start before m₁) ∧ (noted start before + 2 < now → StartsAnnounced rest) := by
  induction hrun generalizing rest with
  | start => exact absurd htrace.symm (by simp)
  | @next trace shown m m' hbefore hstep ih =>
      have hbefore : Reached setup tasks start trace m := hbefore
      rcases append_eq_append_cons htrace with ⟨more, hold, hrest⟩ | ⟨more, hfirst, hshown⟩
      · obtain ⟨hreached, hannounced⟩ := ih hold
        rw [hrest]
        exact ⟨hreached, fun hdue => (hannounced hdue).append _⟩
      · obtain ⟨rfl, hannounced⟩ := hstep.moved.turn hshown
        rw [List.append_nil] at hfirst
        rw [hfirst]
        refine ⟨⟨m, hbefore⟩, fun hdue => hannounced ?_⟩
        rw [hbefore.announces.2]
        omega

/-- The readings that the turns begin with. -/
def turns (trace : List Report) : List Int := trace.filterMap Report.woke?

theorem turns_append (trace shown : List Report) : turns (trace ++ shown) = turns trace ++ turns shown :=
  List.filterMap_append

theorem mem_turns {now : Int} : now ∈ turns trace ↔ .woke now ∈ trace := by
  rw [turns, List.mem_filterMap]
  constructor
  · rintro ⟨o, ho, hnow⟩
    cases o with
    | woke now' =>
        cases hnow
        exact ho
    | _ => cases hnow
  · intro h
    exact ⟨_, h, rfl⟩

/-- **The entry is renewed in time and not too often**, if the clock does not go back: an announcement
comes more than two seconds behind the time noted at the one before it or at the start, a turn announces
exactly if it begins more than two seconds behind that time, and where the turns begin at most `d` seconds
apart, none begins more than `d` seconds behind the moment at which it was due. -/
theorem paced (hrun : Reached setup tasks start trace m) (hclock : (start :: clock trace).Pairwise (· ≤ ·)) :
    (∀ before conns time after rest, trace = before ++ .announced conns time after :: rest →
      noted start before + 2 < time) ∧
    (∀ before now rest, trace = before ++ .woke now :: rest →
      (StartsAnnounced rest ↔ noted start before + 2 < now)) ∧
    ∀ d, (start :: turns trace).IsChain (fun earlier later => later ≤ earlier + d) →
      ∀ before now rest, trace = before ++ .woke now :: rest → now ≤ noted start before + 2 + d := by
  refine ⟨?_, ?_, ?_⟩
  · intro before conns time after rest htrace
    obtain ⟨⟨woken, now, hwoken, hdue⟩, -⟩ := hrun.announces.1 before _ rest htrace
    have hsplit : clock trace = clock woken ++ now :: time :: after :: clock rest := by
      rw [htrace, hwoken, List.append_assoc, clock_append]
      rfl
    rw [hsplit, ← List.cons_append, List.pairwise_append] at hclock
    have hle : now ≤ time := (List.pairwise_cons.mp hclock.2.1).1 time List.mem_cons_self
    omega
  · intro before now rest htrace
    refine ⟨fun hannounced => ?_, (hrun.turn htrace).2⟩
    obtain ⟨conns, time, after, more, rfl⟩ := hannounced
    have hsplit : trace = (before ++ [.woke now]) ++ .announced conns time after :: more := by
      rw [htrace, List.append_assoc]
      rfl
    obtain ⟨⟨woken, now', hwoken, hdue⟩, -⟩ := hrun.announces.1 _ _ _ hsplit
    obtain ⟨rfl, hnow⟩ := List.append_inj' hwoken rfl
    obtain rfl := Report.woke.inj (List.singleton_inj.mp hnow)
    rwa [noted_append] at hdue
  · intro d hturns before now rest htrace
    obtain ⟨⟨m₁, hbefore⟩, -⟩ := hrun.turn htrace
    have hearlier : (start :: clock before).Pairwise (· ≤ ·) := by
      rw [htrace, clock_append, ← List.cons_append, List.pairwise_append] at hclock
      exact hclock.1
    have hsplit : turns trace = turns before ++ now :: turns rest := by
      rw [htrace, turns_append]
      rfl
    rw [hsplit, ← List.cons_append] at hturns
    have hne : start :: turns before ≠ [] := List.cons_ne_nil _ _
    have hpace : now ≤ (start :: turns before).getLast hne + d :=
      hturns.rel_getLast_head_of_append hne (List.cons_ne_nil _ _)
    -- the turn before this one, or the start, is not far behind the time noted
    have hlast : (start :: turns before).getLast hne ≤ noted start before + 2 := by
      rcases List.mem_cons.mp (List.getLast_mem hne) with hfirst | hturn
      · have hstart : noted start [] ≤ noted start ([] ++ before) := noted_le hearlier
        change start ≤ noted start before at hstart
        omega
      · exact hbefore.woke_le hearlier _ (mem_turns.mp hturn)
    omega

end announcements

/-- Three turns of an idle process; the second one comes too early, and the last announcement takes a second. -/
def announcesTwice : List Move :=
  [.wake 3 3 3, .daemon (.server .ltrim), .wake 4 4 4, .daemon (.server .ltrim), .wake 6 6 7]

/-- With turns at most three seconds apart. -/
theorem paced_announcesTwice : ∃ trace m, Reached bareSetup [] 0 trace m ∧ turns trace = [3, 4, 6] ∧
    noted 0 trace = 7 ∧ (∀ before now rest, trace = before ++ .woke now :: rest →
      (StartsAnnounced rest ↔ noted 0 before + 2 < now)) ∧
    ∀ before now rest, trace = before ++ .woke now :: rest → now ≤ noted 0 before + 2 + 3 := by
  have hplays : (play (fun mv m => m.move bareSetup mv) announcesTwice (Master.start [] 0)).any (fun next =>
      decide (noted 0 next.2 = 7 ∧ clock next.2 = [3, 3, 3, 4, 6, 6, 7] ∧ turns next.2 = [3, 4, 6])) = true := by
    decide +kernel
  obtain ⟨⟨m, trace⟩, hplay, hwanted⟩ := (Option.any_eq_true _ _).mp hplays
  obtain ⟨hnoted, hclock, hturns⟩ := of_decide_eq_true hwanted
  have hsorted : ((0 : Int) :: clock trace).Pairwise (· ≤ ·) := by
    rw [hclock]
    decide
  have hrun := reached_of_play hplay
  obtain ⟨-, hexact, hpace⟩ := paced hrun hsorted
  refine ⟨trace, m, hrun, hturns, hnoted, hexact, hpace 3 ?_⟩
  rw [hturns]
  decide

end Master

/-! ### The registry of the servers -/

/-- The field of a process in the hash under `serverList`. -/
def Launch.field (launch : Launch) : Bytes := cStr launch.serverKey

/-- What HSET writes. -/
def Launch.status (launch : Launch) (conns : Nat) (time : Int) : Bytes :=
  cStr (statusToJson launch.toStyledString launch.setup.conf launch.pid conns time)

/-- What a process makes of its own entry. -/
def Report.enters (launch : Launch) (entry : Option Bytes) : Report → Option Bytes
  | .announced conns time _ => some (launch.status conns time)
  | .withdrawn => none
  | _ => entry

/-- Processes that share a registry. -/
structure Fleet where
  masters : Nat → Option Master
  registry : Bytes → Option Bytes

/-- The entry stays as it is. -/
def Report.keeps : Report → Bool
  | .announced _ _ _ => false
  | .withdrawn => false
  | _ => true

namespace Fleet

inductive Event where
  | started (n : Nat) (now : Int)
  | of (n : Nat) (r : Report)

/-- A process starts with its loop, when every process that had its address has ended. -/
inductive Step (launches : Nat → Launch) (tasks : Nat → List Bytes) : Fleet → List Event → Fleet → Prop where
  | started {f : Fleet} (n : Nat) (now : Int) (hnew : f.masters n = none)
      (haddress : ∀ n' m, f.masters n' = some m → (launches n').field = (launches n).field → m.ended = true) :
      Step launches tasks f [.started n now]
        { f with masters := Function.update f.masters n (some (.start (tasks n) now)) }
  | moves {f : Fleet} {m m' : Master} {shown : List Report} (n : Nat) (hm : f.masters n = some m)
      (hstep : m.Step (launches n).setup shown m') :
      Step launches tasks f (shown.map (.of n))
        { masters := Function.update f.masters n (some m')
          registry := Function.update f.registry (launches n).field
            (shown.foldl (Report.enters (launches n)) (f.registry (launches n).field)) }

/-- All processes are about to start; the registry may hold anything. -/
def Start (f : Fleet) : Prop := ∀ n, f.masters n = none

abbrev Reached (launches : Nat → Launch) (tasks : Nat → List Bytes) : List Event → Fleet → Prop :=
  Run Start (Step launches tasks)

/-! ### One process of the fleet -/

def Event.report? (n : Nat) : Event → Option Report
  | .of n' r => if n' = n then some r else none
  | .started _ _ => none

/-- What process `n` has shown. -/
def view (n : Nat) (trace : List Event) : List Report := trace.filterMap (Event.report? n)

section view

variable {n n' : Nat}

theorem view_append (n : Nat) (trace shown : List Event) : view n (trace ++ shown) = view n trace ++ view n shown :=
  List.filterMap_append

theorem view_started (now : Int) (trace : List Event) : view n (.started n' now :: trace) = view n trace := rfl

theorem view_map_self (n : Nat) (shown : List Report) : view n (shown.map (.of n)) = shown := by
  rw [view, List.filterMap_map]
  have hsome : Event.report? n ∘ Event.of n = some := by
    funext r
    simp [Event.report?]
  rw [hsome, List.filterMap_some]

theorem view_map_ne (hne : n' ≠ n) (shown : List Report) : view n (shown.map (.of n')) = [] := by
  rw [view, List.filterMap_map, List.filterMap_eq_nil_iff]
  intro r _
  simp [Event.report?, hne]

end view

section fleet

variable {launches : Nat → Launch} {tasks : Nat → List Bytes} {trace shown before rest : List Event} {f f' : Fleet}
  {n : Nat} {now : Int}

/-- A process that has not started has shown nothing. -/
theorem Reached.unborn (hrun : Reached launches tasks trace f) : ∀ n, f.masters n = none → view n trace = [] := by
  refine hrun.invariant (fun trace f => ∀ n, f.masters n = none → view n trace = []) (fun _ _ _ _ => rfl) ?_
  intro trace f shown f' ih hstep n hnone
  cases hstep with
  | started n' now hnew haddress =>
      rw [view_append]
      by_cases hn : n = n'
      · rw [hn] at hnone
        simp at hnone
      · rw [ih n (by simpa [hn] using hnone)]
        rfl
  | moves n' hm hmoves =>
      by_cases hn : n = n'
      · rw [hn] at hnone
        simp at hnone
      · rw [view_append, view_map_ne (Ne.symm hn), ih n (by simpa [hn] using hnone)]
        rfl

/-- The process is the last one that started with its address, and the registry has what it wrote. -/
structure Holds (launches : Nat → Launch) (tasks : Nat → List Bytes) (n : Nat) (now : Int) (entry : Option Bytes)
    (trace : List Event) (f : Fleet) : Prop where
  run : ∃ m, f.masters n = some m ∧ Master.Reached (launches n).setup (tasks n) now (view n trace) m
  sole : ∀ n' m, f.masters n' = some m → (launches n').field = (launches n).field → n' ≠ n → m.ended = true
  entry : f.registry (launches n).field = (view n trace).foldl (Report.enters (launches n)) entry

theorem Holds.step {entry : Option Bytes} (h : Holds launches tasks n now entry trace f)
    (hstep : Step launches tasks f shown f')
    (hother : ∀ n' now', .started n' now' ∈ shown → (launches n').field ≠ (launches n).field) :
    Holds launches tasks n now entry (trace ++ shown) f' := by
  obtain ⟨m, hm, hmaster⟩ := h.run
  cases hstep with
  | started n' now' hnew haddress =>
      have hfield := hother n' now' List.mem_cons_self
      have hne : n ≠ n' := fun hn => hfield (by rw [hn])
      have hview : view n (trace ++ [.started n' now']) = view n trace := by
        rw [view_append]
        exact List.append_nil _
      refine ⟨⟨m, (Function.update_of_ne hne ..).trans hm, ?_⟩, fun n₁ m₁ hm₁ hfield₁ hn₁ => ?_, ?_⟩
      · rw [hview]
        exact hmaster
      · have hn' : n₁ ≠ n' := fun hn => hfield (by rw [← hn]; exact hfield₁)
        exact h.sole n₁ m₁ ((Function.update_of_ne hn' ..).symm.trans hm₁) hfield₁ hn₁
      · rw [hview]
        exact h.entry
  | @moves m₀ m' shown n' hm₀ hmoves =>
      by_cases hn : n' = n
      · subst hn
        obtain rfl := Option.some.inj (hm.symm.trans hm₀)
        have hview : view n' (trace ++ shown.map (.of n')) = view n' trace ++ shown := by
          rw [view_append, view_map_self]
        refine ⟨⟨m', Function.update_self .., ?_⟩, fun n₁ m₁ hm₁ hfield₁ hn₁ => ?_, ?_⟩
        · rw [hview]
          exact hmaster.next hmoves
        · exact h.sole n₁ m₁ ((Function.update_of_ne hn₁ ..).symm.trans hm₁) hfield₁ hn₁
        · rw [hview, List.foldl_append, ← h.entry]
          exact Function.update_self ..
      · have hview : view n (trace ++ shown.map (.of n')) = view n trace := by
          rw [view_append, view_map_ne hn, List.append_nil]
        have hfield : (launches n').field ≠ (launches n).field := by
          intro heq
          have hended := h.sole n' m₀ hm₀ heq hn
          rw [hmoves.running] at hended
          cases hended
        refine ⟨⟨m, (Function.update_of_ne (Ne.symm hn) ..).trans hm, ?_⟩, fun n₁ m₁ hm₁ hfield₁ hn₁ => ?_, ?_⟩
        · rw [hview]
          exact hmaster
        · have hn' : n₁ ≠ n' := by
            intro heq
            rw [heq] at hfield₁
            exact hfield hfield₁
          exact h.sole n₁ m₁ ((Function.update_of_ne hn' ..).symm.trans hm₁) hfield₁ hn₁
        · rw [hview, ← h.entry]
          exact Function.update_of_ne (Ne.symm hfield) ..

theorem Holds.started {n : Nat} (hrun : Reached launches tasks trace f) (hnew : f.masters n = none)
    (haddress : ∀ n' m, f.masters n' = some m → (launches n').field = (launches n).field → m.ended = true) :
    Holds launches tasks n now (f.registry (launches n).field) (trace ++ [.started n now])
      { f with masters := Function.update f.masters n (some (.start (tasks n) now)) } := by
  have hview : view n (trace ++ [.started n now]) = [] := by
    rw [view_append, hrun.unborn n hnew]
    rfl
  refine ⟨⟨_, Function.update_self .., ?_⟩, fun n' m hm hfield hn => ?_, ?_⟩
  · rw [hview]
    exact .start rfl
  · exact haddress n' m ((Function.update_of_ne hn ..).symm.trans hm) hfield
  · rw [hview]
    rfl

theorem Reached.holds (hrun : Reached launches tasks trace f) : ∀ before n now rest,
    trace = before ++ .started n now :: rest →
    (∀ n' now', .started n' now' ∈ rest → (launches n').field ≠ (launches n).field) →
    ∃ entry, Holds launches tasks n now entry trace f := by
  induction hrun with
  | start => exact fun before n now rest htrace => absurd htrace.symm (by simp)
  | @next trace shown f f' hbefore hstep ih =>
      intro before n now rest htrace hlast
      rcases append_eq_append_cons htrace with ⟨more, hold, hrest⟩ | ⟨more, -, hshown⟩
      · rw [hrest] at hlast
        obtain ⟨entry, hholds⟩ := ih before n now more hold
          fun n' now' hmem => hlast n' now' (List.mem_append_left _ hmem)
        exact ⟨entry, hholds.step hstep fun n' now' hmem => hlast n' now' (List.mem_append_right _ hmem)⟩
      · cases hstep with
        | started n' now' hnew haddress =>
            obtain ⟨rfl, hsame, -⟩ : more = [] ∧ Event.started n' now' = .started n now ∧ rest = [] := by
              cases more with
              | nil => simpa using hshown
              | cons o more => simp at hshown
            cases hsame
            exact ⟨_, Holds.started hbefore hnew haddress⟩
        | @moves m m' shown n' hm hmoves =>
            have hmem : .started n now ∈ shown.map (Event.of n') := by
              rw [hshown]
              exact List.mem_append_right _ List.mem_cons_self
            simp at hmem

/-! ### What the registry says -/

theorem foldl_enters_keeps {launch : Launch} {shown : List Report} (h : ∀ o ∈ shown, o.keeps = true)
    (entry : Option Bytes) : shown.foldl (Report.enters launch) entry = entry := by
  induction shown generalizing entry with
  | nil => rfl
  | cons o shown ih =>
      have hfirst : o.enters launch entry = entry := by
        have hkeeps := h o List.mem_cons_self
        cases o with
        | announced => cases hkeeps
        | withdrawn => cases hkeeps
        | _ => rfl
      rw [List.foldl_cons, hfirst]
      exact ih (fun o hmem => h o (List.mem_cons_of_mem _ hmem)) entry

/-- The process withdraws last of all. -/
theorem withdrawn_last {said more : List Report} {m : Master} (h : Master.Obeys (said ++ .withdrawn :: more) m) :
    more = [] := by
  obtain ⟨duty, hof, -⟩ := h.duty
  unfold Master.Duty.of at hof
  rw [List.foldlM_append, Option.bind_eq_bind, Option.bind_eq_some_iff] at hof
  obtain ⟨before, -, hrest⟩ := hof
  rw [List.foldlM_cons, Option.bind_eq_bind, Option.bind_eq_some_iff] at hrest
  obtain ⟨behind, hwithdraws, hmore⟩ := hrest
  have hgone : behind = .gone := by
    cases before with
    | quitting => exact (Option.some.inj hwithdraws).symm
    | _ => cases hwithdraws
  cases more with
  | nil => rfl
  | cons o more =>
      rw [hgone, List.foldlM_cons] at hmore
      cases hmore

/-- **The registry tells the truth**: under the address of a process stands, until another one is started
there, what it announced last, with the number of connections it had accepted and not yet removed; behind
its withdrawal nothing does. -/
theorem registry_true (hrun : Reached launches tasks trace f) (hstarted : trace = before ++ .started n now :: rest)
    (hlast : ∀ n' now', .started n' now' ∈ rest → (launches n').field ≠ (launches n).field) :
    (∀ said conns time after more, view n trace = said ++ .announced conns time after :: more →
      (∀ o ∈ more, o.keeps = true) → f.registry (launches n).field = some ((launches n).status conns time) ∧
        conns + (Master.served said).countP Server.Observation.removes =
          (Master.served said).countP Server.Observation.accepts) ∧
      (.withdrawn ∈ view n trace → f.registry (launches n).field = none) := by
  obtain ⟨entry, ⟨m, -, hmaster⟩, -, hentry⟩ := hrun.holds before n now rest hstarted hlast
  constructor
  · intro said conns time after more hview hkeeps
    refine ⟨?_, (hmaster.announces.1 said _ more hview).2⟩
    rw [hentry, hview, List.foldl_append, List.foldl_cons]
    exact foldl_enters_keeps hkeeps _
  · intro hmem
    obtain ⟨said, more, hview⟩ := List.append_of_mem hmem
    have hobeys := hmaster.obeys
    rw [hview] at hobeys
    rw [hentry, hview, withdrawn_last hobeys, List.foldl_append]
    rfl

/-- A process runs on while the others wait. -/
theorem Reached.go_on {m m' : Master} {more : List Report} (hrun : Reached launches tasks trace f)
    (hm : f.masters n = some m) (hmore : Run (· = m) (Master.Step (launches n).setup) more m') :
    ∃ registry, Reached launches tasks (trace ++ more.map (.of n))
      ⟨Function.update f.masters n (some m'), registry⟩ := by
  induction hmore with
  | start hinit =>
      refine ⟨f.registry, ?_⟩
      rw [hinit, ← hm, Function.update_eq_self, List.map_nil, List.append_nil]
      exact hrun
  | @next more shown m₁ m' hbefore hstep ih =>
      obtain ⟨registry, hreached⟩ := ih
      have hnext := hreached.next (.moves n (Function.update_self ..) hstep)
      rw [Function.update_idem, List.append_assoc, ← List.map_append] at hnext
      exact ⟨_, hnext⟩

/-- A process starts and runs while the others wait. -/
theorem Reached.run_next {m : Master} {more : List Report} (hrun : Reached launches tasks trace f) (n : Nat)
    (hnew : f.masters n = none)
    (haddress : ∀ n' m, f.masters n' = some m → (launches n').field = (launches n).field → m.ended = true)
    (hmore : Master.Reached (launches n).setup (tasks n) now more m) :
    ∃ registry, Reached launches tasks (trace ++ .started n now :: more.map (.of n))
      ⟨Function.update f.masters n (some m), registry⟩ := by
  have hstarted := hrun.next (.started n now hnew haddress)
  obtain ⟨registry, hreached⟩ := Reached.go_on hstarted (Function.update_self ..) hmore
  rw [Function.update_idem, List.append_assoc] at hreached
  exact ⟨registry, hreached⟩

end fleet

/-! ### Three processes -/

/-- `toStyledString` for an entry; jsoncpp sorts the members by their names. -/
def styledStatus (status : Json) : Bytes :=
  let members := [text "localhost", text "processId", text "serverBeforeHreatTime", text "serverConnectionNO"].map
    fun key => text "   \"" ++ key ++ text "\" : \"" ++ status.textOf key ++ text "\""
  text "\x7b\n" ++ [44, 10].intercalate members ++ text "\n\x7d\n"

def launched (conf : LPushConfig) (pid : Int) (hport : (decimal conf.port).length < 5) : Launch where
  setup := ⟨conf, barePlatform, fun _ _ => none⟩
  toStyledString := styledStatus
  taskPrefix := text "task:"
  pid := pid
  serverKey := conf.hostname
  taskKey := text "task:" ++ conf.hostname
  initialized := if_pos hport

/-- Processes 0 and 1 have one address, process 2 another one. -/
def threeLaunches : Nat → Launch
  | 0 => launched bareConfig 42 (by decide)
  | 1 => launched bareConfig 43 (by decide)
  | _ => launched { bareConfig with localhost := text "127.0.0.2" } 44 (by decide)

/-- The process announces its connection and is killed. -/
def dies : List Master.Move := [.daemon (.server (.accept 7 [] true true)), .wake 3 3 3, .kill]

/-- The next process there has two connections when it announces itself. -/
def restarts : List Master.Move :=
  [.daemon (.server (.accept 7 [] true true)), .daemon (.server (.accept 8 [] true true)), .wake 8 8 8]

/-- A process announces itself, and SIGTERM makes it withdraw. -/
def withdraws : List Master.Move :=
  [.wake 3 3 3, .daemon (.server .ltrim), .signalCatcher .term, .cycle, .wake 4 4 4, .daemon .listenerEnds,
    .daemon .close]

/-- The entry of process 43. -/
def secondStatus : Bytes :=
  text "\x7b\n   \"localhost\" : \"127.0.0.1\",\n   \"processId\" : \"43\",\n" ++
    text "   \"serverBeforeHreatTime\" : \"8\",\n   \"serverConnectionNO\" : \"2\"\n\x7d\n"

def announcement : Report → Option (Nat × Int × Int)
  | .announced conns time after => some (conns, time, after)
  | _ => none

theorem eq_of_announcement {o : Report} {conns : Nat} {time after : Int}
    (h : announcement o = some (conns, time, after)) : o = .announced conns time after := by
  cases o with
  | announced =>
      cases h
      rfl
  | _ => cases h

/-- What a schedule of one process computes, if it ends as wanted. -/
theorem reached_of_play (n : Nat) (now : Int) (moves : List Master.Move) (wanted : Master × List Report → Bool)
    (hplays : (play (fun mv m => m.move (threeLaunches n).setup mv) moves (Master.start [] now)).any wanted = true) :
    ∃ shown m, Master.Reached (threeLaunches n).setup [] now shown m ∧ wanted (m, shown) = true := by
  obtain ⟨⟨m, shown⟩, hplay, hwanted⟩ := (Option.any_eq_true _ _).mp hplays
  exact ⟨shown, m, Master.reached_of_play hplay, hwanted⟩

/-- The entry of the process that was killed has been replaced, and that of process 2 is gone. -/
theorem registry_true_restarted : ∃ trace f, Reached threeLaunches (fun _ => []) trace f ∧
    .of 0 (.announced 1 3 3) ∈ trace ∧ .of 2 .withdrawn ∈ trace ∧
      f.registry (text "127.0.0.1:9737") = some secondStatus ∧ f.registry (text "127.0.0.2:9737") = none := by
  obtain ⟨shown₀, m₀, hrun₀, hwanted₀⟩ := reached_of_play 0 0 dies
    (fun next => next.1.ended && decide (next.2.getLast?.bind announcement = some (1, 3, 3))) (by decide +kernel)
  obtain ⟨shown₂, m₂, hrun₂, hwanted₂⟩ := reached_of_play 2 0 withdraws
    (fun next => next.2.any (· matches .withdrawn)) (by decide +kernel)
  obtain ⟨shown₁, m₁, hrun₁, hwanted₁⟩ := reached_of_play 1 5 restarts
    (fun next => decide (next.2.getLast?.bind announcement = some (2, 8, 8))) (by decide +kernel)
  -- what the three have shown
  have hended : m₀.ended = true := (Bool.and_eq_true_iff.mp hwanted₀).1
  have hlast₀ : shown₀.getLast?.bind announcement = some (1, 3, 3) :=
    of_decide_eq_true (Bool.and_eq_true_iff.mp hwanted₀).2
  have hlast₁ : shown₁.getLast?.bind announcement = some (2, 8, 8) := of_decide_eq_true hwanted₁
  have hmem₀ : .announced 1 3 3 ∈ shown₀ := by
    obtain ⟨o, hlast, ho⟩ := Option.bind_eq_some_iff.mp hlast₀
    rw [← eq_of_announcement ho]
    exact List.mem_of_getLast? hlast
  obtain ⟨said, hshown₁⟩ : ∃ said, shown₁ = said ++ [.announced 2 8 8] := by
    obtain ⟨o, hlast, ho⟩ := Option.bind_eq_some_iff.mp hlast₁
    rw [← eq_of_announcement ho]
    exact ⟨_, (List.dropLast_append_getLast? o hlast).symm⟩
  have hmem₂ : .withdrawn ∈ shown₂ := by
    obtain ⟨o, ho, hwithdrawn⟩ := List.any_eq_true.mp hwanted₂
    cases o <;> first | exact ho | cases hwithdrawn
  -- one behind the other
  have hfield₁ : (threeLaunches 1).field = text "127.0.0.1:9737" := by decide
  have hfield₂ : (threeLaunches 2).field = text "127.0.0.2:9737" := by decide
  have hstatus : (threeLaunches 1).status 2 8 = secondStatus := by decide +kernel
  have hstart : Reached threeLaunches (fun _ => []) [] ⟨fun _ => none, fun _ => none⟩ := .start fun _ => rfl
  obtain ⟨_, hreached₀⟩ := hstart.run_next 0 rfl (fun n m hm => by cases hm) hrun₀
  have hdead : ∀ n m, Function.update (fun _ => none) 0 (some m₀) n = some m → m.ended = true := by
    intro n m hm
    rcases eq_or_ne n 0 with rfl | hn
    · cases hm
      exact hended
    · rw [Function.update_of_ne hn] at hm
      cases hm
  obtain ⟨_, hreached₂⟩ := Reached.run_next hreached₀ 2 rfl (fun n m hm _ => hdead n m hm) hrun₂
  have halone : ∀ n m, Function.update (Function.update (fun _ => none) 0 (some m₀)) 2 (some m₂) n = some m →
      (threeLaunches n).field = (threeLaunches 1).field → m.ended = true := by
    intro n m hm hfield
    rcases eq_or_ne n 2 with rfl | hn
    · exact absurd hfield (by decide)
    · rw [Function.update_of_ne hn] at hm
      exact hdead n m hm
  obtain ⟨registry, hrun⟩ := Reached.run_next hreached₂ 1 rfl halone hrun₁
  refine ⟨_, _, hrun, ?_, ?_, ?_, ?_⟩
  · simp [hmem₀]
  · simp [hmem₂]
  · have hlast : ∀ n now, Event.started n now ∈ shown₁.map (.of 1) →
        (threeLaunches n).field ≠ (threeLaunches 1).field := by simp
    have hview : view 1 (([] ++ .started 0 0 :: shown₀.map (.of 0)) ++ .started 2 0 :: shown₂.map (.of 2) ++
        .started 1 5 :: shown₁.map (.of 1)) = said ++ [.announced 2 8 8] := by
      have hzero := view_map_ne (show 0 ≠ 1 by decide) shown₀
      have htwo := view_map_ne (show 2 ≠ 1 by decide) shown₂
      simp only [view_append, view_started, view_map_self, hzero, htwo, hshown₁]
      rfl
    obtain ⟨hentry, -⟩ := (registry_true hrun rfl hlast).1 said 2 8 8 [] hview (by simp)
    rw [hfield₁, hstatus] at hentry
    exact hentry
  · have hlast : ∀ n now, Event.started n now ∈ shown₂.map (.of 2) ++ .started 1 5 :: shown₁.map (.of 1) →
        (threeLaunches n).field ≠ (threeLaunches 2).field := by
      intro n now hmem
      obtain rfl : n = 1 := by simp at hmem; exact hmem.1
      decide
    have hview : .withdrawn ∈ view 2 (([] ++ .started 0 0 :: shown₀.map (.of 0)) ++
        .started 2 0 :: shown₂.map (.of 2) ++ .started 1 5 :: shown₁.map (.of 1)) := by
      simp only [view_append, view_started, view_map_self]
      exact List.mem_append_left _ (List.mem_append_right _ hmem₂)
    have hentry := (registry_true hrun (List.append_assoc _ _ _) hlast).2 hview
    rw [hfield₂] at hentry
    exact hentry

end Fleet

end LinkedonPush
