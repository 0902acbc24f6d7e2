import LinkedonPush.App.Lifecycle
import LinkedonPush.Protocol.Codes

/-!
# The clocks of a connection

A connection keeps three times: the last two that its client showed, and the one that `hreatbeat`
writes. What a step of each of its threads does to them, and the scores it writes.
-/

namespace LinkedonPush

open Theory

/-- The client's clock when it made the frame. -/
def LPushChunk.time (message : LPushChunk) : Int := message.header.timestamp.toInt

/-- The cycle thread is in the loop of `do_cycle`. -/
def CyclePoint.inLoop : CyclePoint → Bool
  | .polling => true
  | _ => false

/-- The cycle thread is not in the loop, and neither the reading it is at nor its refusal can end with
the code of the timeout. -/
def CyclePoint.Outside : CyclePoint → Prop
  | .handshake r => r.Yields fun result => result.1 ∈ readCodes
  | .createConnection r => r.Yields fun result => result.1 ∈ readCodes
  | .refusing _ ret => ret ≠ errorConnHreatbeatTimeout
  | .polling => False
  | _ => True

theorem CyclePoint.Outside.inLoop {point : CyclePoint} (h : point.Outside) : point.inLoop = false := by
  cases point with
  | polling => exact h.elim
  | _ => rfl

namespace LPushConn

/-! ### Effects -/

/-- What the destructor shows behind the request of the history loader. -/
def Parting : Effect → Prop
  | .destroyKey _ => True
  | .deleteClient _ => True
  | .close => True
  | _ => False

/-- Effects that hand on no frame and do not end the connection for its times; scores are `score`. -/
def Calm (score : Int) (effects : List Effect) : Prop :=
  ∀ e ∈ effects, match e with
    | .forward _ => False
    | .returned ret => ret ≠ errorConnHreatbeatTimeout
    | .redis (.zadd _ written _) => written = score
    | _ => True

section effects

variable {score : Int} {first second : List Effect}

theorem calm_append : Calm score (first ++ second) ↔ Calm score first ∧ Calm score second := by
  simp only [Calm, List.forall_mem_append]

theorem Calm.of_eq {score' : Int} (h : Calm score first) (heq : score = score') : Calm score' first := by
  rwa [← heq]

theorem calm_nil : Calm score [] := fun _ h => (List.not_mem_nil h).elim

theorem calm_singleton {e : Effect} (h : match e with
    | .forward _ => False
    | .returned ret => ret ≠ errorConnHreatbeatTimeout
    | .redis (.zadd _ written _) => written = score
    | _ => True) : Calm score [e] := by
  intro e' he
  rwa [List.mem_singleton.mp he]

theorem calm_of_parting (h : ∀ e ∈ first, Parting e) : Calm score first := by
  intro e he
  have hparting := h e he
  cases e with
  | destroyKey | deleteClient | close => trivial
  | _ => exact hparting.elim

end effects

section ends

variable (c : LPushConn) {score : Int}

theorem parting_release : (∀ e ∈ c.release.2, Parting e) ∧ c.release.1.hreatDataTime = c.hreatDataTime := by
  unfold release
  cases c.client <;> simp [Parting]

theorem parting_deleteTrd2 :
    (∀ e ∈ c.deleteTrd2.2, Parting e) ∧ c.deleteTrd2.1.hreatDataTime = c.hreatDataTime := by
  unfold deleteTrd2
  split
  · exact parting_release c
  · dsimp only
    split
    · exact parting_release c
    · exact parting_release c
    · exact ⟨fun e he => (List.not_mem_nil he).elim, rfl⟩

theorem parting_deleteTrd :
    (∀ e ∈ c.deleteTrd.2, Parting e) ∧ c.deleteTrd.1.hreatDataTime = c.hreatDataTime := by
  unfold deleteTrd
  split
  · exact parting_deleteTrd2 c
  · dsimp only
    split
    · exact parting_deleteTrd2 _
    · exact parting_deleteTrd2 _
    · exact ⟨fun e he => (List.not_mem_nil he).elim, rfl⟩

theorem hreat_finish (ret : Int) : (c.finish ret).1.hreatDataTime = c.hreatDataTime :=
  (parting_deleteTrd c).2

theorem mem_finish {ret : Int} {e : Effect} (h : e ∈ (c.finish ret).2) :
    e = .returned ret ∨ e = .removed ∨ (∃ address, e = .findPop address) ∨ Parting e := by
  unfold finish Progress.after at h
  simp only [List.mem_append, List.mem_cons, List.not_mem_nil, or_false] at h
  obtain ((rfl | rfl) | hpop) | hparting := h
  · exact .inl rfl
  · exact .inr (.inl rfl)
  · cases hmie : c.mie with
    | none =>
        rw [hmie] at hpop
        exact (List.not_mem_nil hpop).elim
    | some address =>
        rw [hmie] at hpop
        exact .inr (.inr (.inl ⟨address, List.mem_singleton.mp hpop⟩))
  · exact .inr (.inr (.inr ((parting_deleteTrd c).1 e hparting)))

theorem calm_finish {ret : Int} (hret : ret ≠ errorConnHreatbeatTimeout) : Calm score (c.finish ret).2 := by
  intro e he
  obtain rfl | rfl | ⟨address, rfl⟩ | hparting := mem_finish c he
  · exact hret
  · trivial
  · trivial
  · have hcalm : Calm score [e] := calm_of_parting (by simpa using hparting)
    exact hcalm e List.mem_cons_self

theorem Ends.outside {c c' : LPushConn} (h : Ends c c') : c'.point.Outside := by
  have hphase := h.phase
  cases hpoint : c'.point with
  | polling | handshake | createConnection | refusing =>
      rw [hpoint] at hphase
      rcases hphase with hphase | hphase <;> cases hphase
  | _ => trivial

end ends

/-! ### The cycle thread -/

/-- Where the cycle thread gets from outside its loop, with the third time at `hreat`. -/
inductive Fate (w : World) (hreat : Int) (p : Progress) : Prop where
  | away (houtside : p.1.point.Outside) (hhreat : p.1.hreatDataTime = hreat)
      (hcalm : Calm (w.utime.tdiv 1000) p.2)
  /-- It has just read the clock. -/
  | enters (hloop : p.1.point.inLoop = true) (hbefore : p.1.beforeDataTime = w.now)
      (hnow : p.1.nowDataTime = w.now) (hhreat : p.1.hreatDataTime = hreat) (hcalm : Calm (w.utime.tdiv 1000) p.2)

section fate

variable {env : Env} {w : World} {c : LPushConn} {p : Progress} {effects : List Effect}
  {hreat : Int}

theorem Fate.after (h : Fate w hreat p) (hcalm : Calm (w.utime.tdiv 1000) effects) :
    Fate w hreat (p.after effects) := by
  cases h with
  | away houtside hhreat hp => exact .away houtside hhreat (calm_append.mpr ⟨hcalm, hp⟩)
  | enters hloop hbefore hnow hhreat hp =>
      exact .enters hloop hbefore hnow hhreat (calm_append.mpr ⟨hcalm, hp⟩)

theorem fate_finish (c : LPushConn) {ret : Int} (hret : ret ≠ errorConnHreatbeatTimeout)
    (hhreat : c.hreatDataTime = hreat) : Fate w hreat (c.finish ret) :=
  .away (finishes_finish c ret).ends.outside ((hreat_finish c ret).trans hhreat) (calm_finish c hret)

theorem fate_die (houtside : c.point.Outside) (hhreat : c.hreatDataTime = hreat) (fault : Fault) :
    Fate w hreat (c.die fault) := .away houtside hhreat (calm_singleton trivial)

theorem fate_started (c : LPushConn) (w : World) (hhreat : c.hreatDataTime = hreat) :
    Fate w hreat (c.started w) := by
  unfold started poll
  split
  · refine fate_finish _ ?_ hhreat
    decide
  · split
    · rename_i hlate
      simp only [sub_self, lpHreatTimeoutUs] at hlate
      omega
    · exact .enters rfl rfl rfl hhreat calm_nil

theorem fate_startTrd2 (houtside : c.point.Outside) (hhreat : c.hreatDataTime = hreat) (w : World) :
    Fate w hreat (c.startTrd2 w) := by
  unfold startTrd2
  split
  · exact fate_die houtside hhreat _
  · dsimp only
    split
    · exact .away trivial hhreat calm_nil
    · exact fate_started _ w hhreat

theorem fate_connected (houtside : c.point.Outside) (hhreat : c.hreatDataTime = hreat) (env : Env) (w : World) :
    Fate w hreat (c.connected env w) := by
  unfold connected
  split
  · exact fate_die houtside hhreat _
  · refine Fate.after ?_ (calm_singleton trivial)
    unfold startTrd
    dsimp only
    split
    · exact .away trivial hhreat calm_nil
    · refine fate_startTrd2 ?_ ?_ w
      · exact houtside
      · exact hhreat

theorem fate_register (houtside : c.point.Outside) (hhreat : c.hreatDataTime = hreat) (env : Env) (w : World) :
    Fate w hreat (c.register env w) := by
  unfold register
  split
  · exact fate_die houtside hhreat _
  · rename_i msg hmsg
    dsimp only
    split
    · refine .away ?_ hhreat ?_
      · show errorUserIsExist ≠ errorConnHreatbeatTimeout
        decide
      · simp [Calm, RedisClient.set, RedisClient.expire, RedisClient.zadd]
    · exact .away trivial hhreat (by simp [Calm, RedisClient.set, RedisClient.expire, RedisClient.zadd])

theorem ne_timeout_of_mem {ret : Int} (h : ret ∈ readCodes) : ret ≠ errorConnHreatbeatTimeout := by
  rintro rfl
  revert h
  decide

theorem fate_createConnection {r : MessageReading} (houtside : c.point.Outside)
    (hhreat : c.hreatDataTime = hreat) (hr : r.Yields fun result => result.1 ∈ readCodes) (env : Env) (w : World) :
    Fate w hreat (c.createConnection env w r) := by
  cases r with
  | need size resume => exact .away hr hhreat calm_nil
  | abort => exact fate_die houtside hhreat _
  | done result =>
      obtain ⟨ret, lpc, b⟩ := result
      unfold createConnection
      refine Fate.after ?_ (calm_singleton trivial)
      dsimp only
      split
      · exact fate_finish _ (ne_timeout_of_mem hr) hhreat
      · split
        · refine fate_finish _ ?_ hhreat
          rcases LPushProtocol.createConnection_code lpc with hcode | hcode <;> rw [hcode] <;> decide
        · refine fate_register ?_ ?_ env w
          · exact houtside
          · exact hhreat

theorem fate_handshake {r : MessageReading} (houtside : c.point.Outside) (hhreat : c.hreatDataTime = hreat)
    (hr : r.Yields fun result => result.1 ∈ readCodes) (env : Env) (w : World) :
    Fate w hreat (c.handshake env w r) := by
  cases r with
  | need size resume => exact .away hr hhreat calm_nil
  | abort => exact fate_die houtside hhreat _
  | done result =>
      obtain ⟨ret, lpc, b⟩ := result
      unfold handshake
      refine Fate.after ?_ (calm_singleton trivial)
      dsimp only
      split
      · exact .away (ne_timeout_of_mem hr) hhreat calm_nil
      · split
        · refine fate_die ?_ ?_ _
          · exact houtside
          · exact hhreat
        · rename_i ret' lpsm hresult
          split
          · refine .away ?_ hhreat calm_nil
            show ret' ≠ errorConnHreatbeatTimeout
            rcases LPushProtocol.handshake_code hresult with rfl | rfl <;> decide
          · split
            · refine .away ?_ hhreat (calm_singleton trivial)
              show checkUserMessage env lpsm ≠ errorConnHreatbeatTimeout
              unfold checkUserMessage
              dsimp only
              split
              · decide
              · split <;> decide
            · exact .away trivial hhreat (calm_singleton trivial)

theorem fate_withProtocol {next : MessageReading → Progress} (houtside : c.point.Outside)
    (hhreat : c.hreatDataTime = hreat)
    (hnext : ∀ r : MessageReading, (r.Yields fun result => result.1 ∈ readCodes) → Fate w hreat (next r)) :
    Fate w hreat (c.withProtocol next) := by
  unfold withProtocol
  split
  · exact fate_die houtside hhreat _
  · exact hnext _ (LPushProtocol.yields_readMessage _)

/-- A step of the cycle thread outside its loop. -/
theorem fate_cycle (houtside : c.point.Outside) (hturn : CycleTurn env w c p) : Fate w c.hreatDataTime p := by
  cases hturn with
  | created hpoint =>
      exact fate_withProtocol houtside rfl fun r hr => fate_handshake houtside rfl hr env w
  | handshake size resume hpoint hallowed =>
      refine Fate.after (fate_handshake houtside rfl ?_ env w) (calm_singleton trivial)
      rw [hpoint] at houtside
      exact houtside w.delivery
  | refusing chunk ret hpoint =>
      refine Fate.after (fate_finish c ?_ rfl) (calm_singleton trivial)
      rw [hpoint] at houtside
      exact houtside
  | unwritten chunk e hpoint hwrite =>
      refine Fate.after (fate_finish c ?_ rfl) (calm_singleton trivial)
      cases e <;> decide
  | accepting chunk hpoint hwrite =>
      refine Fate.after ?_ (calm_singleton trivial)
      exact fate_withProtocol houtside rfl fun r hr => fate_createConnection houtside rfl hr env w
  | createConnection size resume hpoint hallowed =>
      refine Fate.after (fate_createConnection houtside rfl ?_ env w) (calm_singleton trivial)
      rw [hpoint] at houtside
      exact houtside w.delivery
  | connecting chunk hpoint hwrite =>
      exact Fate.after (fate_connected houtside rfl env w) (calm_singleton trivial)
  | noThread hpoint => exact fate_die houtside rfl _
  | unready hpoint => exact .away houtside rfl calm_nil
  | startRecv t hpoint htrd hcid =>
      refine fate_startTrd2 ?_ ?_ w
      · exact houtside
      · rfl
  | startConsum t hpoint htrd2 hcid => exact fate_started _ w rfl
  | polling hpoint =>
      rw [hpoint] at houtside
      exact houtside.elim
  | joinRecv t hpoint htrd hended =>
      obtain ⟨hparting, hhreat⟩ := parting_deleteTrd2 { c with trd := none }
      exact .away (ends_deleteTrd2 _).2.outside hhreat (calm_of_parting hparting)
  | joinConsum t hpoint htrd2 hended =>
      obtain ⟨hparting, hhreat⟩ := parting_release c
      exact .away (ends_release c).2.outside hhreat (calm_of_parting hparting)

end fate

section loop

variable {env : Env} {w : World} {c : LPushConn} {p : Progress}

theorem point_of_inLoop (hloop : c.point.inLoop = true) : c.point = .polling := by
  cases hpoint : c.point with
  | polling => rfl
  | _ =>
      rw [hpoint] at hloop
      cases hloop

theorem cycle_of_inLoop (hloop : c.point.inLoop = true) (hstep : c.cycle env w = some p) : p = c.poll := by
  rw [cycle, point_of_inLoop hloop] at hstep
  exact (Option.some.inj hstep).symm

end loop

/-! ### The helper threads -/

/-- A helper thread leaves the cycle thread and its times alone. -/
structure Kept (c : LPushConn) (p : Progress) : Prop where
  point : p.1.point = c.point
  before : p.1.beforeDataTime = c.beforeDataTime
  now : p.1.nowDataTime = c.nowDataTime
  hreat : p.1.hreatDataTime = c.hreatDataTime
  calm : Calm (c.hreatDataTime.tdiv 1000) p.2

/-- What the recv thread does with the times. -/
inductive Tidings (c : LPushConn) (p : Progress) : Prop where
  | kept (h : Kept c p)
  /-- A frame was handed on; the process may have ended with it. -/
  | frame (message : LPushChunk) (first second : List Effect) (heffects : p.2 = first ++ .forward message :: second)
      (hfirst : Calm (c.hreatDataTime.tdiv 1000) first) (hsecond : Calm (c.hreatDataTime.tdiv 1000) second)
      (hpoint : p.1.point = c.point)
      (hhreat : p.1.hreatDataTime = c.hreatDataTime) (htimes : p.1.crashed = false →
        p.1.beforeDataTime = c.nowDataTime ∧ p.1.nowDataTime = message.time)

section helpers

variable {env : Env} {w : World} {c c' : LPushConn} {p : Progress} {effects : List Effect}

theorem Kept.trans (h : Kept c (c', effects)) (h' : Kept c' p) : Kept c (p.after effects) := by
  have hreat : c'.hreatDataTime = c.hreatDataTime := h.hreat
  have hcalm := h'.calm.of_eq (congrArg (Int.tdiv · 1000) hreat)
  exact ⟨h'.point.trans h.point, h'.before.trans h.before, h'.now.trans h.now, h'.hreat.trans hreat,
    calm_append.mpr ⟨h.calm, hcalm⟩⟩

theorem Kept.after (h : Kept c p) (hcalm : Calm (c.hreatDataTime.tdiv 1000) effects) : Kept c (p.after effects) :=
  ⟨h.point, h.before, h.now, h.hreat, calm_append.mpr ⟨hcalm, h.calm⟩⟩

theorem Tidings.after (h : Tidings c p) (hcalm : Calm (c.hreatDataTime.tdiv 1000) effects) :
    Tidings c (p.after effects) := by
  cases h with
  | kept hkept => exact .kept (hkept.after hcalm)
  | frame message first second heffects hfirst hsecond hpoint hhreat htimes =>
      refine .frame message (effects ++ first) second ?_ (calm_append.mpr ⟨hcalm, hfirst⟩) hsecond hpoint hhreat
        htimes
      rw [Progress.after, heffects, List.append_assoc]

theorem kept_stop (hpoint : c'.point = c.point) (hbefore : c'.beforeDataTime = c.beforeDataTime)
    (hnow : c'.nowDataTime = c.nowDataTime) (hhreat : c'.hreatDataTime = c.hreatDataTime) : Kept c (c', []) :=
  ⟨hpoint, hbefore, hnow, hhreat, calm_nil⟩

theorem kept_die (c : LPushConn) (fault : Fault) : Kept c (c.die fault) :=
  ⟨rfl, rfl, rfl, rfl, calm_singleton trivial⟩

/-- The commands of an acknowledgement write no score. -/
theorem calm_results {score : Int} {commands : List RedisCommand}
    (h : ∀ command ∈ commands, ∃ key value, command = RedisClient.lPushForList key value) :
    Calm score (commands.map .redis) := by
  intro e he
  obtain ⟨command, hmem, rfl⟩ := List.mem_map.mp he
  obtain ⟨key, value, rfl⟩ := h command hmem
  trivial

theorem kept_doDispose (h : c.doDispose = some p) : Kept c p := by
  unfold doDispose at h
  split at h
  · cases h
    exact ⟨rfl, rfl, rfl, rfl, by simp [Calm, RedisClient.zrem, RedisClient.del]⟩
  · cases h

theorem kept_dispatch {beyond : Nat → UInt8} {message : LPushChunk} {ret : Int}
    (h : dispatch env beyond c message = .ok (ret, p)) : Kept c p := by
  unfold dispatch at h
  split at h
  · split at h
    · cases h
    · rename_i effects heffects
      cases h
      unfold hreatbeat at heffects
      split at heffects
      · cases heffects
        exact ⟨rfl, rfl, rfl, rfl, by simp [Calm, RedisClient.zadd, RedisClient.expire]⟩
      · cases heffects
  · split at h
    · split at h
      · cases h
      · rename_i progress hdispose
        cases h
        exact kept_doDispose hdispose
    · split at h
      · split at h
        · cases h
        · rename_i ret' commands hresult
          cases h
          exact ⟨rfl, rfl, rfl, rfl, calm_results (recvPushCallback_commands hresult)⟩
      · cases h
        exact kept_stop rfl rfl rfl rfl

/-- The handler notes the time of the frame. -/
theorem times_forwardServer {beyond : Nat → UInt8} {message : LPushChunk} {ret : Int}
    (h : forwardServer env beyond c message = .ok (ret, c', effects)) :
    (c'.point = c.point ∧ c'.hreatDataTime = c.hreatDataTime ∧ Calm (c.hreatDataTime.tdiv 1000) effects) ∧
      c'.beforeDataTime = c.nowDataTime ∧ c'.nowDataTime = message.time := by
  unfold forwardServer at h
  split at h
  · cases h
  · rename_i ret'' c'' effects' hdispatch
    cases h
    have hkept := kept_dispatch hdispatch
    exact ⟨⟨hkept.point, hkept.hreat, hkept.calm⟩, hkept.now, rfl⟩

theorem kept_rests {stopped : LPushConn → LPushConn → Prop}
    (hstopped : ∀ {c c'}, stopped c c' → Kept c (c', [])) (h : Rests stopped c p) : Kept c p := by
  cases h with
  | stops hstop => exact hstopped hstop
  | disposes hdispose hstop => exact (kept_doDispose hdispose).trans (hstopped hstop)
  | undisposed => exact kept_die c _

theorem kept_recvStopped (h : RecvStopped c c') : Kept c (c', []) := by
  obtain ⟨t, rfl⟩ := h
  exact kept_stop rfl rfl rfl rfl

theorem kept_consumStopped (h : ConsumStopped c c') : Kept c (c', []) := by
  obtain ⟨u, rfl, -⟩ := h
  exact kept_stop rfl rfl rfl rfl

theorem tidings_recv (h : RecvDone env w c p) : Tidings c p := by
  have hmessage : ∀ ret lpc, Calm (c.hreatDataTime.tdiv 1000) [.message ret lpc] := fun _ _ => calm_singleton trivial
  have hread : ∀ b, Kept c ({ c with lpushProtocol := some b }, []) := fun _ => kept_stop rfl rfl rfl rfl
  induction h with
  | rests h => exact .kept (kept_rests kept_recvStopped h)
  | received h ih => exact ih.after (calm_singleton trivial)
  | aborted => exact .kept (kept_die c _)
  | refused ret lpc b h => exact .kept (((hread b).trans (kept_rests kept_recvStopped h)).after (hmessage ret lpc))
  | failed ret lpc b fault hresult =>
      exact .frame lpc [.message ret lpc] [.died fault] rfl (hmessage ret lpc) (calm_singleton trivial) rfl rfl
        fun h => by cases h
  | @forwarded ret lpc b ret' c' effects p hresult h =>
      obtain ⟨⟨hpoint, hhreat, hcalm⟩, hbefore, hnow⟩ := times_forwardServer hresult
      have hkept := kept_rests kept_recvStopped h
      have hmore := hkept.calm.of_eq (congrArg (Int.tdiv · 1000) hhreat)
      refine .frame lpc [.message ret lpc] (effects ++ [.forwardReturned ret'] ++ p.2) rfl (hmessage ret lpc)
        (calm_append.mpr ⟨calm_append.mpr ⟨hcalm, calm_singleton trivial⟩, hmore⟩) (hkept.point.trans hpoint)
        (hkept.hreat.trans hhreat) fun _ => ⟨hkept.before.trans hbefore, hkept.now.trans hnow⟩

theorem kept_consum (h : ConsumDone env w c p) : Kept c p := by
  induction h with
  | rests h => exact kept_rests kept_consumStopped h
  | wrote u work chunk ok htrd2 hpoint h ih => exact ih.after (calm_singleton trivial)
  | popped => exact kept_stop rfl rfl rfl rfl
  | died fault hfault => exact kept_die c fault

end helpers

end LPushConn

end LinkedonPush
