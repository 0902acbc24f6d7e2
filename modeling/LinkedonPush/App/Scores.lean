import LinkedonPush.App.Clocks
import LinkedonPush.App.Schedule

/-!
# Last-activity scores

`createConnection` scores a user by `st_utime`, `hreatbeat` by a time that is set in the constructor
and nowhere else. The scores of a run are recorded with the clock they were written at.
-/

namespace LinkedonPush

open Theory

namespace LPushConn

/-! ### The time of `hreatbeat` -/

/-- A connection whose third time has its first value. -/
structure Unset (c : LPushConn) : Prop where
  place : c.point.inLoop = true ∨ c.point.Outside
  hreat : c.hreatDataTime = 0

section unset

variable {surroundings : Env → Prop} {env : Env} {w : World} {c c' : LPushConn} {p : Progress}
  {thread : ThreadName} {trace effects : List Effect} {key member : Bytes} {score : Int}

/-- The loop of `do_cycle` writes no score. -/
theorem unset_poll (h : Unset c) :
    Unset c.poll.1 ∧ ∀ key score member, .redis (.zadd key score member) ∉ c.poll.2 := by
  have hfinish (ret : Int) :
      Unset (c.finish ret).1 ∧ ∀ key score member, .redis (.zadd key score member) ∉ (c.finish ret).2 := by
    refine ⟨⟨.inr (finishes_finish c ret).ends.outside, (hreat_finish c ret).trans h.hreat⟩, ?_⟩
    intro key score member hmem
    obtain heq | heq | ⟨address, heq⟩ | hparting := mem_finish c hmem
    · cases heq
    · cases heq
    · cases heq
    · exact hparting
  unfold poll
  split
  · exact hfinish _
  · split
    · exact hfinish _
    · exact ⟨⟨.inl rfl, h.hreat⟩, fun _ _ _ => List.not_mem_nil⟩

theorem Calm.zadd {written : Int} (h : Calm written effects) (hmem : .redis (.zadd key score member) ∈ effects) :
    score = written := h _ hmem

/-- What a thread scores: `createConnection` the clock, `hreatbeat` nothing. -/
theorem Unset.step (h : Unset c) (hstep : c.step env w thread = some (c', effects)) :
    Unset c' ∧ ∀ key score member, .redis (.zadd key score member) ∈ effects →
      score = if thread = .cycle then w.utime.tdiv 1000 else 0 := by
  unfold LPushConn.step at hstep
  rw [if_neg (by rw [crashed_of_step hstep]; exact Bool.false_ne_true)] at hstep
  have hzero : c.hreatDataTime.tdiv 1000 = 0 := by
    rw [h.hreat]
    rfl
  cases thread with
  | cycle =>
      rcases h.place with hloop | houtside
      · obtain ⟨hunset, hnone⟩ := unset_poll h
        rw [← cycle_of_inLoop hloop hstep] at hunset hnone
        exact ⟨hunset, fun key score member hmem => (hnone key score member hmem).elim⟩
      · cases fate_cycle houtside (cycle_spec hstep) with
        | away houtside' hhreat hcalm =>
            exact ⟨⟨.inr houtside', hhreat.trans h.hreat⟩, fun _ _ _ hmem => hcalm.zadd hmem⟩
        | enters hloop hbefore hnow hhreat hcalm =>
            exact ⟨⟨.inl hloop, hhreat.trans h.hreat⟩, fun _ _ _ hmem => hcalm.zadd hmem⟩
  | recv =>
      cases tidings_recv (recv_done hstep) with
      | kept hkept =>
          refine ⟨⟨?_, hkept.hreat.trans h.hreat⟩, fun _ _ _ hmem => (hkept.calm.zadd hmem).trans hzero⟩
          rw [hkept.point]
          exact h.place
      | frame message first second heffects hfirst hsecond hpoint hhreat htimes =>
          refine ⟨⟨?_, hhreat.trans h.hreat⟩, fun key score member hmem => ?_⟩
          · rw [hpoint]
            exact h.place
          · have heffects : effects = first ++ .forward message :: second := heffects
            rw [heffects, List.mem_append, List.mem_cons] at hmem
            obtain hmem | hmem | hmem := hmem
            · exact (hfirst.zadd hmem).trans hzero
            · cases hmem
            · exact (hsecond.zadd hmem).trans hzero
  | consum =>
      have hkept := kept_consum (consum_done hstep)
      refine ⟨⟨?_, hkept.hreat.trans h.hreat⟩, fun _ _ _ hmem => (hkept.calm.zadd hmem).trans hzero⟩
      rw [hkept.point]
      exact h.place

theorem history_unset (hrun : History surroundings trace c) : Unset c := by
  induction hrun with
  | start haccepted =>
      obtain ⟨stfd, beyond, rfl | rfl⟩ := haccepted
      · exact ⟨.inr trivial, rfl⟩
      · exact ⟨.inr trivial, rfl⟩
  | next before hstep ih =>
      cases hstep with
      | thread env w thread henv hstep => exact (ih.step hstep).1
      | queued msg hrunning hpush =>
          obtain ⟨client, -, rfl⟩ := Option.map_eq_some_iff.mp hpush
          exact ⟨ih.place, ih.hreat⟩

end unset

end LPushConn

namespace Server

/-! ### The scores of a run -/

/-- A score, with the clock it was written at. -/
structure Writing where
  utime : Int
  /-- By `createConnection`, not by `hreatbeat`. -/
  connects : Bool
  key : Bytes
  score : Int
  member : Bytes
deriving DecidableEq

/-- What a move writes. -/
def Writing.of (m : Move) (o : Observation) : Option Writing :=
  match m, o with
  | .thread _ thread w, .conn _ (.redis (.zadd key score member)) =>
      some ⟨w.utime, decide (thread = .cycle), key, score, member⟩
  | _, _ => none

/-- `st_utime` at a move of a connection. -/
def Move.utime? : Move → Option Int
  | .thread _ _ w => some w.utime
  | _ => none

/-- The moves of a server under a clock that never goes back, showing the scores. -/
inductive Scoring (setup : Setup) : Int × Server → List Writing → Int × Server → Prop where
  | move {clock : Int} {s s' : Server} {shown : List Observation} (m : Move)
      (hclock : ∀ utime, m.utime? = some utime → clock ≤ utime) (hmove : s.move setup m = some (s', shown)) :
      Scoring setup (clock, s) (shown.filterMap (Writing.of m)) (m.utime?.getD clock, s')

/-- The runs of a server from its start; `st_utime_t` has no sign. -/
abbrev Scored (setup : Setup) (tasks : List Bytes) : List Writing → Int × Server → Prop :=
  Run (fun start => 0 ≤ start.1 ∧ start.2 = initial tasks) (Scoring setup)

/-- The writings to one member of one sorted set. -/
def writingsAt (key member : Bytes) (ws : List Writing) : List Writing :=
  ws.filter fun x => x.key == key && x.member == member

/-- The scores of a member never go back. -/
def NeverBack (key member : Bytes) (ws : List Writing) : Prop :=
  (writingsAt key member ws).Pairwise fun earlier later => earlier.score ≤ later.score

/-- No heartbeat is scored after a connect that the clock gives a score above zero. -/
def Unbeaten (key member : Bytes) (ws : List Writing) : Prop :=
  (writingsAt key member ws).Pairwise fun earlier later =>
    later.connects = false → earlier.connects = true → earlier.utime < 1000

/-- What the clock makes of the scores. -/
structure Timely (clock : Int) (ws : List Writing) : Prop where
  start : 0 ≤ clock
  score : ∀ x ∈ ws, x.score = if x.connects then x.utime.tdiv 1000 else 0
  utime : ∀ x ∈ ws, 0 ≤ x.utime ∧ x.utime ≤ clock
  ordered : ws.Pairwise fun earlier later => earlier.utime ≤ later.utime

section scored

variable {setup : Setup} {tasks : List Bytes} {ws : List Writing} {next : Int × Server} {clock : Int}
  {key member : Bytes}

/-- Every score of a move is written by a thread of a connection, which does not know the time. -/
theorem score_of_move {s s' : Server} {shown : List Observation} {m : Move} {x : Writing}
    (hunset : ∀ id c, s.conns id = some c → c.Unset) (hmove : s.move setup m = some (s', shown))
    (hmem : x ∈ shown.filterMap (Writing.of m)) :
    m.utime? = some x.utime ∧ x.score = if x.connects then x.utime.tdiv 1000 else 0 := by
  obtain ⟨o, ho, hof⟩ := List.mem_filterMap.mp hmem
  cases m with
  | thread id thread w =>
      rw [move] at hmove
      split at hmove
      · obtain ⟨c, c', effects, hc, hstep, hnext⟩ := threadStep_spec hmove
        obtain ⟨-, hscores⟩ := (hunset id c hc).step hstep
        obtain ⟨rfl, rfl⟩ := Prod.mk.inj hnext
        unfold Writing.of at hof
        split at hof
        · rename_i m o id' thread' w' id'' key score member heq
          obtain ⟨-, rfl, rfl⟩ := Move.thread.inj heq
          obtain rfl := Option.some.inj hof
          have heffect := mem_of_conn_mem_performAll _ _ ho
          refine ⟨rfl, ?_⟩
          rw [hscores key score member heffect.2]
          simp only [decide_eq_true_eq]
        · cases hof
      · cases hmove
  | _ => cases hof

theorem Timely.move {s s' : Server} {shown : List Observation} {m : Move} (h : Timely clock ws)
    (hunset : ∀ id c, s.conns id = some c → c.Unset) (hclock : ∀ utime, m.utime? = some utime → clock ≤ utime)
    (hmove : s.move setup m = some (s', shown)) :
    Timely (m.utime?.getD clock) (ws ++ shown.filterMap (Writing.of m)) := by
  have hlater : clock ≤ m.utime?.getD clock := by
    cases hutime : m.utime? with
    | none => exact le_rfl
    | some utime => exact hclock utime hutime
  have hnew : ∀ x ∈ shown.filterMap (Writing.of m), x.utime = m.utime?.getD clock := by
    intro x hx
    rw [(score_of_move hunset hmove hx).1]
    rfl
  refine ⟨h.start.trans hlater, fun x hx => ?_, fun x hx => ?_, ?_⟩
  · rcases List.mem_append.mp hx with hx | hx
    · exact h.score x hx
    · exact (score_of_move hunset hmove hx).2
  · rcases List.mem_append.mp hx with hx | hx
    · exact ⟨(h.utime x hx).1, (h.utime x hx).2.trans hlater⟩
    · rw [hnew x hx]
      exact ⟨h.start.trans hlater, le_rfl⟩
  · refine List.pairwise_append.mpr ⟨h.ordered, ?_, fun earlier hearlier later hlate => ?_⟩
    · refine List.pairwise_of_forall_mem_list fun earlier hearlier later hlate => ?_
      rw [hnew earlier hearlier, hnew later hlate]
    · rw [hnew later hlate]
      exact (h.utime earlier hearlier).2.trans hlater

theorem Scored.reached (hrun : Scored setup tasks ws next) : ∃ trace, Reached setup tasks trace next.2 := by
  induction hrun with
  | start hinit => exact ⟨[], .start hinit.2⟩
  | next before hstep ih =>
      obtain ⟨trace, hreached⟩ := ih
      cases hstep with
      | move m hclock hmove =>
          exact ⟨_, hreached.next (hreached.step_of_move hmove)⟩

theorem Scored.unset (hrun : Scored setup tasks ws next) (id : Nat) (c : LPushConn)
    (hc : next.2.conns id = some c) : c.Unset := by
  obtain ⟨trace, hreached⟩ := Scored.reached hrun
  exact LPushConn.history_unset (hreached.history hc)

theorem Scored.timely (hrun : Scored setup tasks ws next) : Timely next.1 ws := by
  induction hrun with
  | start hinit =>
      exact ⟨hinit.1, fun _ hx => (List.not_mem_nil hx).elim, fun _ hx => (List.not_mem_nil hx).elim, .nil⟩
  | next before hstep ih =>
      cases hstep with
      | move m hclock hmove => exact ih.move (Scored.unset before) hclock hmove

/-- Two scores are in order unless the later one forgets the clock of the earlier one. -/
theorem Timely.le_iff {earlier later : Writing} (h : Timely clock ws) (hearlier : earlier ∈ ws) (hlater : later ∈ ws)
    (hle : earlier.utime ≤ later.utime) : earlier.score ≤ later.score ↔
      (later.connects = false → earlier.connects = true → earlier.utime < 1000) := by
  have hpos := (h.utime earlier hearlier).1
  have hpos' := (h.utime later hlater).1
  rw [h.score earlier hearlier, h.score later hlater, Int.tdiv_eq_ediv_of_nonneg hpos,
    Int.tdiv_eq_ediv_of_nonneg hpos']
  cases earlier.connects with
  | false =>
      cases later.connects with
      | false => simp
      | true =>
          simp only [Bool.false_eq_true, if_false, if_true, Bool.true_eq_false, false_implies, iff_true]
          omega
  | true =>
      cases later.connects with
      | false =>
          simp only [Bool.false_eq_true, if_false, if_true, forall_const]
          omega
      | true =>
          simp only [if_true, Bool.true_eq_false, false_implies, iff_true]
          omega

/-- **The scores of a member never go back exactly if none of its heartbeats comes after a connect at
which the clock had reached its first millisecond.** -/
theorem neverBack_iff_unbeaten (hrun : Scored setup tasks ws next) (key member : Bytes) :
    NeverBack key member ws ↔ Unbeaten key member ws := by
  have htimely := Scored.timely hrun
  have hordered : (writingsAt key member ws).Pairwise fun earlier later => earlier.utime ≤ later.utime :=
    htimely.ordered.filter _
  have hmem : ∀ x ∈ writingsAt key member ws, x ∈ ws := fun x hx => (List.mem_filter.mp hx).1
  unfold NeverBack Unbeaten
  constructor
  · intro h
    refine (h.and hordered).imp_of_mem fun {earlier later} hearlier hlater hboth => ?_
    exact (htimely.le_iff (hmem _ hearlier) (hmem _ hlater) hboth.2).mp hboth.1
  · intro h
    refine (h.and hordered).imp_of_mem fun {earlier later} hearlier hlater hboth => ?_
    exact (htimely.le_iff (hmem _ hearlier) (hmem _ hlater) hboth.2).mpr hboth.1

end scored

/-! ### One heartbeat -/

/-- Moves one after the other, with the scores they write. -/
def playScores (setup : Setup) : Int × Server → List Move → Option ((Int × Server) × List Writing)
  | start, [] => some (start, [])
  | (clock, s), m :: moves =>
      match s.move setup m with
      | none => none
      | some (s, shown) =>
          if clock ≤ m.utime?.getD clock then
            (playScores setup (m.utime?.getD clock, s) moves).map fun (last, more) =>
              (last, shown.filterMap (Writing.of m) ++ more)
          else none

theorem scored_of_play {setup : Setup} {tasks : List Bytes} {ws more : List Writing} {start last : Int × Server}
    (hrun : Scored setup tasks ws start) {moves : List Move}
    (h : playScores setup start moves = some (last, more)) : Scored setup tasks (ws ++ more) last := by
  induction moves generalizing start ws more with
  | nil =>
      cases h
      rwa [List.append_nil]
  | cons m moves ih =>
      obtain ⟨clock, s⟩ := start
      rw [playScores] at h
      split at h
      · cases h
      · rename_i s' shown hmove
        split at h
        · rename_i hclock
          obtain ⟨⟨last', more'⟩, hplay, heq⟩ := Option.map_eq_some_iff.mp h
          obtain ⟨rfl, rfl⟩ := Prod.mk.inj heq
          rw [← List.append_assoc]
          refine ih (hrun.next (.move m (fun utime hutime => ?_) hmove)) hplay
          rwa [hutime] at hclock
        · cases h

instance (key member : Bytes) (ws : List Writing) : Decidable (NeverBack key member ws) :=
  inferInstanceAs (Decidable (List.Pairwise _ _))

/-- The same move at another time. -/
def Move.during (utime : Int) : Move → Move
  | .thread id name w => .thread id name { w with utime := utime }
  | m => m

/-- User 7 of application "app" connects and sends a heartbeat. -/
def beatsOnce : List Move :=
  enters 0 7 9 (opening userSeven) ++ activates 0 9 10 ++
    [.thread 0 .recv { calm 10 with delivery := .ok (LPushProtocol.sendPacket (heartbeatChunk 0)) }]

/-- Within the first millisecond, nothing goes back. -/
theorem neverBack_iff_unbeaten_early : ∃ ws next, Scored (visitorSetup [userSeven]) [] ws next ∧ ws.length = 4 ∧
    NeverBack (text "USER_APPKEY_ZSET_app") (text "7") ws ∧ Unbeaten (text "USER_APPKEY_ZSET_app") (text "7") ws := by
  have hplays : (playScores (visitorSetup [userSeven]) (0, initial []) beatsOnce).any (fun next =>
      next.2.length == 4 && decide (NeverBack (text "USER_APPKEY_ZSET_app") (text "7") next.2)) = true := by
    decide +kernel
  obtain ⟨⟨next, ws⟩, hplay, hws⟩ := (Option.any_eq_true _ _).mp hplays
  obtain ⟨hlength, hback⟩ := Bool.and_eq_true_iff.mp hws
  have hstart : Scored (visitorSetup [userSeven]) [] [] (0, initial []) := .start ⟨le_rfl, rfl⟩
  have hrun := scored_of_play hstart hplay
  have hback := of_decide_eq_true hback
  exact ⟨ws, next, hrun, beq_iff_eq.mp hlength, hback, (neverBack_iff_unbeaten hrun _ _).mp hback⟩

/-- Five milliseconds after the start of the clock, the first heartbeat takes the user back to zero. -/
theorem not_neverBack : ¬ ∀ setup tasks ws next, Scored setup tasks ws next →
    ∀ key member, NeverBack key member ws := by
  intro h
  have hplays : (playScores (visitorSetup [userSeven]) (0, initial []) (beatsOnce.map (Move.during 5000))).any
      (fun next => !decide (NeverBack (text "USER_APPKEY_ZSET_app") (text "7") next.2)) = true := by
    decide +kernel
  obtain ⟨⟨next, ws⟩, hplay, hws⟩ := (Option.any_eq_true _ _).mp hplays
  have hstart : Scored (visitorSetup [userSeven]) [] [] (0, initial []) := .start ⟨le_rfl, rfl⟩
  have hrun := scored_of_play hstart hplay
  rw [Bool.not_eq_true', decide_eq_false_iff_not] at hws
  exact hws (h _ _ _ _ hrun _ _)

end Server

end LinkedonPush
