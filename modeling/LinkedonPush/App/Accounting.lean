import LinkedonPush.App.Scores
import LinkedonPush.App.Stages

/-!
# What a connection sends to Redis

Every command of a connection has a reason: its announcement, a frame that its recv thread handed to
`forwardServer`, or a `do_dispose` behind a failure. A run is read as the list of these reasons, in
their order.
-/

namespace LinkedonPush

open Theory

/-- The names under which `createConnection` announces a user. -/
structure Names where
  clientKey : Bytes
  redisApp : LPushAPPKey
  redisPlatform : LPushPlatform

namespace Names

def create (conf : LPushConfig) (msg : LPushHandshakeMessage) : Names where
  clientKey := msg.appId ++ msg.userId
  redisApp := LPushAPPKey.create msg.appId msg.userId conf.localhost conf.port
  redisPlatform := LPushPlatform.create msg.clientFlag msg.appId msg.userId conf.localhost conf.port

/-- The commands of `hreatbeat`. -/
def renewal (names : Names) : List RedisCommand :=
  [RedisClient.zadd names.redisApp.appKey 0 names.redisApp.key,
    RedisClient.zadd names.redisPlatform.platformKey 0 names.redisPlatform.key,
    RedisClient.expire names.clientKey 60]

/-- The commands of `do_dispose`. -/
def disposal (names : Names) : List RedisCommand :=
  [RedisClient.del names.clientKey, RedisClient.zrem names.redisApp.appKey names.redisApp.key,
    RedisClient.zrem names.redisPlatform.platformKey names.redisPlatform.key]

end Names

/-- The connection goes by these names. -/
structure Record.Bears (r : Record) (names : Names) : Prop where
  clientKey : r.clientKey = names.clientKey
  redisApp : r.redisApp = some names.redisApp
  redisPlatform : r.redisPlatform = some names.redisPlatform

namespace LPushConn

/-- What `forwardServer` sends for a frame. -/
inductive Answers (conf : LPushConfig) (platform : Platform) (names : Names) (frame : LPushChunk) :
    List RedisCommand → Prop where
  | hreatbeat (htype : frame.header.dataType = lpushHeaderTypeHreatbeat) :
      Answers conf platform names frame names.renewal
  | close (htype : frame.header.dataType = lpushHeaderTypeClose) : Answers conf platform names frame names.disposal
  | push (beyond : Nat → UInt8) (ret : Int) (commands : List RedisCommand)
      (htype : frame.header.dataType = lpushHeaderTypePush)
      (hresult : (recvPushCallback conf platform beyond frame).result = some (ret, commands)) :
      Answers conf platform names frame commands
  | other (htype : frame.header.dataType ≠ lpushHeaderTypeHreatbeat ∧
        frame.header.dataType ≠ lpushHeaderTypeClose ∧ frame.header.dataType ≠ lpushHeaderTypePush) :
      Answers conf platform names frame []

/-- A reason for commands after the announcement. -/
inductive Entry where
  | answered (frame : LPushChunk) (commands : List RedisCommand)
  /-- A thread has failed. -/
  | disposed

namespace Entry

def commands (names : Names) : Entry → List RedisCommand
  | .answered _ commands => commands
  | .disposed => names.disposal

def frame? : Entry → Option LPushChunk
  | .answered frame _ => some frame
  | .disposed => none

def Sound (conf : LPushConfig) (platform : Platform) (names : Names) : Entry → Prop
  | .answered frame commands => Answers conf platform names frame commands
  | .disposed => True

end Entry

/-- The effects are explained by the entries. A process that dies leaves a frame without an answer. -/
structure Explains (conf : LPushConfig) (platform : Platform) (names : Names) (effects : List Effect) (crashed : Bool)
    (entries : List Entry) (unanswered : List LPushChunk) : Prop where
  commands : commands effects = entries.flatMap (Entry.commands names)
  handed : handed effects = entries.filterMap Entry.frame? ++ unanswered
  answered : crashed = false → unanswered = []
  sound : ∀ entry ∈ entries, entry.Sound conf platform names

def Explained (conf : LPushConfig) (platform : Platform) (names : Names) (effects : List Effect) (crashed : Bool) :
    Prop :=
  ∃ entries unanswered, Explains conf platform names effects crashed entries unanswered

section explained

variable {conf : LPushConfig} {platform : Platform} {names : Names} {first second effects : List Effect}
  {crashed : Bool}

theorem handed_append (first second : List Effect) : handed (first ++ second) = handed first ++ handed second :=
  List.filterMap_append

theorem commands_redis (sent : List RedisCommand) : commands (sent.map .redis) = sent := by
  rw [commands, List.filterMap_map]
  exact List.filterMap_some

theorem handed_redis (sent : List RedisCommand) : handed (sent.map .redis) = [] := by
  rw [handed, List.filterMap_map, List.filterMap_eq_nil_iff]
  exact fun _ _ => rfl

theorem Explained.append (hfirst : Explained conf platform names first false)
    (hsecond : Explained conf platform names second crashed) :
    Explained conf platform names (first ++ second) crashed := by
  obtain ⟨entries, unanswered, hcommands, hhanded, hanswered, hsound⟩ := hfirst
  obtain ⟨entries', unanswered', hcommands', hhanded', hanswered', hsound'⟩ := hsecond
  obtain rfl : unanswered = [] := hanswered rfl
  refine ⟨entries ++ entries', unanswered', ?_, ?_, hanswered', fun entry hentry => ?_⟩
  · rw [commands_append, hcommands, hcommands', List.flatMap_append]
  · rw [handed_append, hhanded, hhanded', List.append_nil, List.filterMap_append, List.append_assoc]
  · exact (List.mem_append.mp hentry).elim (hsound entry) (hsound' entry)

theorem explained_quiet (hcommands : commands effects = []) (hhanded : handed effects = []) :
    Explained conf platform names effects crashed :=
  ⟨[], [], hcommands, hhanded, fun _ => rfl, fun _ h => (List.not_mem_nil h).elim⟩

theorem explained_disposal :
    Explained conf platform names (names.disposal.map .redis) crashed :=
  ⟨[.disposed], [], rfl, rfl, fun _ => rfl, fun entry h => by rw [List.mem_singleton.mp h]; trivial⟩

end explained

/-! ### The handlers -/

/-- A connection behind its announcement. -/
structure Announced (c : LPushConn) (names : Names) : Prop where
  bears : c.record.Bears names
  hreat : c.hreatDataTime = 0

section handlers

variable {env : Env} {w : World} {c c' : LPushConn} {p : Progress} {names : Names}

theorem doDispose_of_announced (h : c.Announced names) :
    c.doDispose = some ({ c with dispose := true }, names.disposal.map .redis) := by
  have happ : c.redisApp = some names.redisApp := h.bears.redisApp
  have hplatform : c.redisPlatform = some names.redisPlatform := h.bears.redisPlatform
  have hkey : c.clientKey = names.clientKey := h.bears.clientKey
  simp only [doDispose, happ, hplatform, hkey]
  rfl

theorem hreatbeat_of_announced (h : c.Announced names) : c.hreatbeat = some (names.renewal.map .redis) := by
  have happ : c.redisApp = some names.redisApp := h.bears.redisApp
  have hplatform : c.redisPlatform = some names.redisPlatform := h.bears.redisPlatform
  have hkey : c.clientKey = names.clientKey := h.bears.clientKey
  simp only [hreatbeat, happ, hplatform, hkey, h.hreat]
  rfl

/-- The handler sends what the frame asks for. -/
theorem answers_forwardServer {beyond : Nat → UInt8} {message : LPushChunk} {ret : Int} (h : c.Announced names)
    (hresult : forwardServer env beyond c message = .ok (ret, p)) :
    ∃ commands, p.2 = commands.map .redis ∧ Answers env.conf env.platform names message commands := by
  unfold forwardServer dispatch at hresult
  by_cases hhreatbeat : message.header.dataType = lpushHeaderTypeHreatbeat
  · rw [if_pos hhreatbeat, hreatbeat_of_announced h] at hresult
    cases hresult
    exact ⟨names.renewal, rfl, .hreatbeat hhreatbeat⟩
  · rw [if_neg hhreatbeat] at hresult
    by_cases hclose : message.header.dataType = lpushHeaderTypeClose
    · rw [if_pos hclose, doDispose_of_announced h] at hresult
      cases hresult
      exact ⟨names.disposal, rfl, .close hclose⟩
    · rw [if_neg hclose] at hresult
      by_cases hpush : message.header.dataType = lpushHeaderTypePush
      · rw [if_pos hpush] at hresult
        cases hcallback : (recvPushCallback env.conf env.platform beyond message).result with
        | none =>
            rw [hcallback] at hresult
            cases hresult
        | some result =>
            rw [hcallback] at hresult
            cases hresult
            exact ⟨result.2, rfl, .push beyond result.1 result.2 hpush hcallback⟩
      · rw [if_neg hpush] at hresult
        cases hresult
        exact ⟨[], rfl, .other ⟨hhreatbeat, hclose, hpush⟩⟩

theorem Announced.forwardServer {beyond : Nat → UInt8} {message : LPushChunk} {ret : Int} (h : c.Announced names)
    (hresult : LPushConn.forwardServer env beyond c message = .ok (ret, p)) : p.1.Announced names := by
  have hrecord : p.1.record = { c.record with dispose := p.1.dispose } := (asking_forwardServer hresult).record
  refine ⟨⟨?_, ?_, ?_⟩, ?_⟩
  · rw [hrecord]
    exact h.bears.clientKey
  · rw [hrecord]
    exact h.bears.redisApp
  · rw [hrecord]
    exact h.bears.redisPlatform
  · unfold LPushConn.forwardServer at hresult
    cases hdispatch : dispatch env beyond c message with
    | error fault =>
        rw [hdispatch] at hresult
        cases hresult
    | ok result =>
        rw [hdispatch] at hresult
        cases hresult
        exact (kept_dispatch hdispatch).hreat.trans h.hreat

end handlers

/-! ### The helper threads -/

/-- What a thread has done is explained. -/
def Accounted (env : Env) (names : Names) (p : Progress) : Prop :=
  Explained env.conf env.platform names p.2 p.1.crashed

section helpers

variable {env : Env} {w : World} {c : LPushConn} {p : Progress} {names : Names}

theorem Accounted.after {effects : List Effect} (h : Accounted env names p)
    (hbefore : Explained env.conf env.platform names effects false) : Accounted env names (p.after effects) :=
  hbefore.append h

theorem accounted_stop (c : LPushConn) : Accounted env names (c, []) := explained_quiet rfl rfl

theorem accounted_die (c : LPushConn) (fault : Fault) : Accounted env names (c.die fault) := explained_quiet rfl rfl

theorem accounted_rests {stopped : LPushConn → LPushConn → Prop} (h : c.Announced names) (hrests : Rests stopped c p) :
    Accounted env names p := by
  cases hrests with
  | stops hstopped => exact accounted_stop _
  | disposes hdispose hstopped =>
      rw [doDispose_of_announced h] at hdispose
      cases hdispose
      exact (accounted_stop _).after explained_disposal
  | undisposed hdispose =>
      rw [doDispose_of_announced h] at hdispose
      cases hdispose

theorem accounted_recv (h : c.Announced names) (hprotocol : c.lpushProtocol.isSome = true)
    (hdone : RecvDone env w c p) : Accounted env names p := by
  have hnext : ∀ b, ({ c with lpushProtocol := some b } : LPushConn).Announced names := by
    intro b
    refine ⟨?_, h.hreat⟩
    rw [record_protocol hprotocol b]
    exact h.bears
  induction hdone with
  | rests hrests => exact accounted_rests h hrests
  | received hdone ih => exact ih.after (explained_quiet rfl rfl)
  | aborted => exact accounted_die _ _
  | refused ret lpc b hrests => exact (accounted_rests (hnext b) hrests).after (explained_quiet rfl rfl)
  | failed ret lpc b fault hresult =>
      -- the process dies with the frame in its hands
      have hdied : Accounted env names (Progress.after [.forward lpc] ({ c with lpushProtocol := some b }.die fault)) :=
        ⟨[], [lpc], rfl, rfl, (by intro hcrashed; cases hcrashed), fun _ hmem => (List.not_mem_nil hmem).elim⟩
      exact hdied.after (explained_quiet rfl rfl)
  | @forwarded ret lpc b ret' c' effects p hresult hrests =>
      obtain ⟨commands, heffects, hanswers⟩ := answers_forwardServer (hnext b) hresult
      have hafter : c'.Announced names := (hnext b).forwardServer hresult
      have heffects : effects = commands.map .redis := heffects
      have hanswered : Explained env.conf env.platform names
          ([.forward lpc] ++ (effects ++ [.forwardReturned ret'])) false := by
        refine ⟨[.answered lpc commands], [], ?_, ?_, fun _ => rfl, fun entry hentry => ?_⟩
        · rw [commands_append, commands_append, heffects, commands_redis]
          rfl
        · rw [handed_append, handed_append, heffects, handed_redis]
          rfl
        · rw [List.mem_singleton.mp hentry]
          exact hanswers
      have hrest : Accounted env names
          (Progress.after [.forward lpc] (Progress.after (effects ++ [.forwardReturned ret']) p)) := by
        rw [after_after]
        exact (accounted_rests hafter hrests).after hanswered
      exact hrest.after (explained_quiet rfl rfl)

theorem accounted_consum (h : c.Announced names) (hdone : ConsumDone env w c p) : Accounted env names p := by
  induction hdone with
  | rests hrests => exact accounted_rests h hrests
  | wrote u work chunk ok htrd2 hpoint hdone ih => exact ih.after (explained_quiet rfl rfl)
  | popped => exact accounted_stop _
  | died fault hfault => exact accounted_die c fault

end helpers

/-! ### The cycle thread -/

section cycle

variable {env : Env} {w : World} {c : LPushConn} {p : Progress} {score : Int} {effects : List Effect}

theorem handed_of_calm (h : Calm score effects) : handed effects = [] := by
  refine List.filterMap_eq_nil_iff.mpr fun e he => ?_
  have hcalm := h e he
  cases e with
  | forward message => exact hcalm.elim
  | _ => rfl

/-- The cycle thread hands on no frame. -/
theorem handed_cycle (h : c.Unset) (hstep : c.cycle env w = some p) : handed p.2 = [] := by
  rcases h.place with hloop | houtside
  · rw [cycle_of_inLoop hloop hstep]
    have hfinish : ∀ ret, handed (c.finish ret).2 = [] := by
      intro ret
      refine List.filterMap_eq_nil_iff.mpr fun e he => ?_
      obtain rfl | rfl | ⟨address, rfl⟩ | hparting := mem_finish c he
      · rfl
      · rfl
      · rfl
      · cases e with
        | forward message => exact hparting.elim
        | _ => rfl
    unfold poll
    split
    · exact hfinish _
    · split
      · exact hfinish _
      · rfl
  · cases fate_cycle houtside (cycle_spec hstep) with
    | away _ _ hcalm => exact handed_of_calm hcalm
    | enters _ _ _ _ hcalm => exact handed_of_calm hcalm

theorem commands_of_outward_nil (h : outward effects = []) : commands effects = [] := by
  rw [commands_eq_outward, h]
  rfl

theorem commands_of_leaving (h : outward effects = .removed :: (c.mie.map .findPop).toList) :
    commands effects = [] := by
  rw [commands_eq_outward, h]
  cases c.mie <;> rfl

theorem commands_starts (h : Starts c p) : commands p.2 = [] := by
  rcases h with ⟨-, houtward, -⟩ | ⟨-, houtward, -⟩
  · exact commands_of_outward_nil houtward
  · exact commands_of_leaving houtward

/-- With helper threads the announcement is over. -/
theorem commands_cycle (hphase : c.point.phase = .running ∨ c.point.phase = .leaving)
    (hstep : c.cycle env w = some p) : commands p.2 = [] := by
  have hearly : c.point.phase ≠ .opening ∧ c.point.phase ≠ .refusing ∧ c.point.phase ≠ .connecting := by
    rcases hphase with hphase | hphase <;> rw [hphase] <;> decide
  cases cycle_spec hstep with
  | created hpoint | handshake _ _ hpoint | accepting _ hpoint | createConnection _ _ hpoint =>
      rw [hpoint] at hearly
      exact (hearly.1 rfl).elim
  | refusing chunk ret hpoint =>
      rw [hpoint] at hearly
      exact (hearly.2.1 rfl).elim
  | unwritten chunk e hpoint hwrite =>
      rcases hpoint with hpoint | hpoint
      · rw [hpoint] at hearly
        exact (hearly.1 rfl).elim
      · rw [hpoint] at hearly
        exact (hearly.2.2 rfl).elim
  | connecting chunk hpoint =>
      rw [hpoint] at hearly
      exact (hearly.2.2 rfl).elim
  | noThread => rfl
  | unready => rfl
  | startRecv t hpoint =>
      unfold startTrd2
      dsimp only
      split
      · rfl
      · split
        · rfl
        · exact commands_starts (starts_started _ w)
  | startConsum t hpoint => exact commands_starts (starts_started _ w)
  | polling hpoint =>
      unfold poll
      split
      · exact commands_of_leaving (finishes_finish c _).outward_eq
      · split
        · exact commands_of_leaving (finishes_finish c _).outward_eq
        · rfl
  | joinRecv t hpoint => exact commands_of_outward_nil (ends_deleteTrd2 _).1
  | joinConsum t hpoint => exact commands_of_outward_nil (ends_release c).1

end cycle

/-! ### Histories -/

/-- All commands of a connection have their reasons. -/
inductive Reasoned (conf : LPushConfig) (platform : Platform) (trace : List Effect) (c : LPushConn) : Prop where
  | silent (hphase : c.point.phase = .opening ∨ c.point.phase = .refusing ∨ c.point.phase = .closed)
      (hcommands : commands trace = []) (hhanded : handed trace = [])
  | announced (msg : LPushHandshakeMessage) (utime : Int) (entries : List Entry) (unanswered : List LPushChunk)
      (hbears : c.point.phase ≠ .closed → c.record.Bears (.create conf msg))
      (hphase : c.point.phase ≠ .opening)
      (hcommands : commands trace =
        announcement conf utime msg ++ entries.flatMap (Entry.commands (.create conf msg)))
      (hhanded : handed trace = entries.filterMap Entry.frame? ++ unanswered)
      (hanswered : c.crashed = false → unanswered = [])
      (hsound : ∀ entry ∈ entries, entry.Sound conf platform (.create conf msg))

section reasoned

variable {surroundings : Env → Prop} {conf : LPushConfig} {platform : Platform} {trace : List Effect}
  {c c' : LPushConn} {env : Env} {w : World} {p : Progress}

/-- A step that says nothing to Redis and hands on nothing. -/
theorem Reasoned.quiet (h : Reasoned conf platform trace c) {effects : List Effect} (hcrashed : c.crashed = false)
    (hcommands : commands effects = []) (hhanded : handed effects = [])
    (hphase : c.point.phase = .opening ∨ c.point.phase = .refusing ∨ c.point.phase = .closed →
      c'.point.phase = .opening ∨ c'.point.phase = .refusing ∨ c'.point.phase = .closed)
    (hopening : c.point.phase ≠ .opening → c'.point.phase ≠ .opening)
    (hopen : c'.point.phase ≠ .closed → c.point.phase ≠ .closed ∧ c'.clientKey = c.clientKey ∧
      c'.redisApp = c.redisApp ∧ c'.redisPlatform = c.redisPlatform) :
    Reasoned conf platform (trace ++ effects) c' := by
  cases h with
  | silent hbefore hnone hhanded' =>
      refine .silent (hphase hbefore) ?_ ?_
      · rw [commands_append, hnone, hcommands, List.append_nil]
      · rw [handed_append, hhanded', hhanded, List.append_nil]
  | announced msg utime entries unanswered hbears hbefore hsent hhanded' hanswered hsound =>
      refine .announced msg utime entries unanswered (fun hnot => ?_) (hopening hbefore) ?_ ?_
        (fun _ => hanswered hcrashed) hsound
      · obtain ⟨hbefore', hkey, happ, hplatform⟩ := hopen hnot
        obtain ⟨hkey', happ', hplatform'⟩ := hbears hbefore'
        exact ⟨hkey.trans hkey', happ.trans happ', hplatform.trans hplatform'⟩
      · rw [commands_append, hcommands, List.append_nil, hsent]
      · rw [handed_append, hhanded, List.append_nil, hhanded']

/-- The names stay until the destructor is through. -/
theorem names_of_record {r : Record} (hrecord : c'.record = r) (hkey : r.clientKey = c.clientKey)
    (happ : r.redisApp = c.redisApp) (hplatform : r.redisPlatform = c.redisPlatform) :
    c'.clientKey = c.clientKey ∧ c'.redisApp = c.redisApp ∧ c'.redisPlatform = c.redisPlatform := by
  subst hrecord
  exact ⟨hkey, happ, hplatform⟩

theorem Ends.names (h : Ends c c') (hopen : c'.point.phase ≠ .closed) :
    c'.clientKey = c.clientKey ∧ c'.redisApp = c.redisApp ∧ c'.redisPlatform = c.redisPlatform := by
  rcases h with ⟨-, hrecord⟩ | ⟨hclosed, -⟩
  · exact names_of_record hrecord rfl rfl rfl
  · exact (hopen hclosed).elim

/-- The cycle thread announces the user, once. -/
theorem Reasoned.cycle {d : Dialogue} (h : Reasoned env.conf platform trace c) (hcrashed : c.crashed = false)
    (hcoherent : Coherent d c) (hunset : c.Unset) (hturn : Turn env w c p) (hstep : c.cycle env w = some p) :
    Reasoned env.conf platform (trace ++ p.2) p.1 := by
  have hhanded : handed p.2 = [] := handed_cycle hunset hstep
  have hannounces : ∀ msg, c.point.phase = .opening → p.1.point.phase ≠ .opening →
      p.1.record.Bears (.create env.conf msg) →
      outward p.2 = (announcement env.conf w.utime msg).map .redis →
      Reasoned env.conf platform (trace ++ p.2) p.1 := by
    intro msg hopening hphase hbears houtward
    cases h with
    | silent _ hnone hnothing =>
        refine .announced msg w.utime [] [] (fun _ => hbears) hphase ?_ ?_ (fun _ => rfl)
          fun _ hmem => (List.not_mem_nil hmem).elim
        · rw [commands_append, hnone, commands_of_outward houtward]
          exact (List.append_nil _).symm
        · rw [handed_append, hnothing, hhanded]
          rfl
    | announced _ _ _ _ _ hlater => exact (hlater hopening).elim
  cases hturn with
  | stays hrecord houtward hphase =>
      have hnames := names_of_record (c := c) hrecord rfl rfl rfl
      refine h.quiet hcrashed (commands_of_outward_nil houtward) hhanded ?_ ?_ ?_
      · intro hbefore
        rcases hphase with hsame | ⟨-, hrefusing⟩
        · rwa [hsame]
        · exact .inr (.inl hrefusing)
      · intro hnot
        rcases hphase with hsame | ⟨hopening, -⟩
        · rwa [hsame]
        · exact (hnot hopening).elim
      · intro hopen
        refine ⟨?_, hnames⟩
        rcases hphase with hsame | ⟨hopening, -⟩
        · rwa [← hsame]
        · rw [hopening]
          decide
  | refused msg hopening _ hrecord houtward hrefusing =>
      refine hannounces msg hopening (by rw [hrefusing]; decide) ?_ houtward
      rw [hrecord]
      exact ⟨rfl, rfl, rfl⟩
  | enrolled msg hopening _ hrecord houtward hconnecting =>
      refine hannounces msg hopening (by rw [hconnecting]; decide) ?_ houtward
      rw [hrecord]
      exact ⟨rfl, rfl, rfl⟩
  | connects msg hconnecting hrecord houtward hrunning =>
      have hnames := names_of_record (c := c) hrecord rfl rfl rfl
      have hnone : commands p.2 = [] := by
        rw [commands_eq_outward, houtward]
        rfl
      refine h.quiet hcrashed hnone hhanded ?_ ?_ ?_
      · intro hbefore
        rw [hconnecting] at hbefore
        rcases hbefore with hbefore | hbefore | hbefore <;> cases hbefore
      · intro _
        rw [hrunning]
        decide
      · intro _
        refine ⟨?_, hnames⟩
        rw [hconnecting]
        decide
  | finishes hopen hfinishes =>
      refine h.quiet hcrashed (commands_of_leaving hfinishes.outward_eq) hhanded ?_ ?_ ?_
      · intro hbefore
        have hidle : c.point.phase ≠ .running := by
          intro hrunning
          rw [hrunning] at hbefore
          rcases hbefore with hbefore | hbefore | hbefore <;> cases hbefore
        obtain ⟨htrd, htrd2⟩ := hcoherent.no_threads hidle hopen.1
        exact .inr (.inr (hfinishes.closes htrd htrd2))
      · intro _
        rcases hfinishes.ends.phase with hphase | hphase <;> rw [hphase] <;> decide
      · intro hnot
        exact ⟨hopen.2, hfinishes.ends.names hnot⟩
  | ends hleaving houtward hends =>
      refine h.quiet hcrashed (commands_of_outward_nil houtward) hhanded ?_ ?_ ?_
      · intro hbefore
        rw [hleaving] at hbefore
        rcases hbefore with hbefore | hbefore | hbefore <;> cases hbefore
      · intro _
        rcases hends.phase with hphase | hphase <;> rw [hphase] <;> decide
      · intro hnot
        refine ⟨?_, hends.names hnot⟩
        rw [hleaving]
        decide
  | asks hthreads hasking =>
      have hnone := commands_cycle (hcoherent.active_of_threads hthreads) hstep
      have hnames := names_of_record (c := c) hasking.record rfl rfl rfl
      refine h.quiet hcrashed hnone hhanded ?_ ?_ ?_
      · rw [hasking.phase]
        exact id
      · rw [hasking.phase]
        exact id
      · intro hnot
        rw [hasking.phase] at hnot
        exact ⟨hnot, hnames⟩

/-- A helper thread finds the names. -/
theorem Reasoned.helper {d : Dialogue} (h : Reasoned env.conf env.platform trace c) (hcrashed : c.crashed = false)
    (hcoherent : Coherent d c) (hunset : c.Unset) (hthreads : c.trd.isSome = true ∨ c.trd2.isSome = true)
    (hasking : Asking c p) (haccounted : ∀ names, c.Announced names → Accounted env names p) :
    Reasoned env.conf env.platform (trace ++ p.2) p.1 := by
  have hactive := hcoherent.active_of_threads hthreads
  cases h with
  | silent hphase =>
      rcases hactive with hactive | hactive <;> rw [hactive] at hphase <;>
        rcases hphase with hphase | hphase | hphase <;> cases hphase
  | announced msg utime entries unanswered hbears hopening hsent hhanded hanswered hsound =>
      have hopen : c.point.phase ≠ .closed := by
        rcases hactive with hactive | hactive <;> rw [hactive] <;> decide
      obtain rfl := hanswered hcrashed
      obtain ⟨entries', unanswered', hsent', hhanded', hanswered', hsound'⟩ :=
        haccounted _ ⟨hbears hopen, hunset.hreat⟩
      obtain ⟨hkey, happ, hplatform⟩ := hbears hopen
      refine .announced msg utime (entries ++ entries') unanswered' (fun _ => ?_) ?_ ?_ ?_ hanswered'
        fun entry hentry => ?_
      · rw [hasking.record]
        exact ⟨hkey, happ, hplatform⟩
      · rwa [hasking.phase]
      · rw [commands_append, hsent, hsent', List.flatMap_append, List.append_assoc]
      · rw [handed_append, hhanded, hhanded', List.append_nil, List.filterMap_append, List.append_assoc]
      · exact (List.mem_append.mp hentry).elim (hsound entry) (hsound' entry)

/-- Any thread of a connection that is in order. -/
theorem Reasoned.step {d : Dialogue} {thread : ThreadName} (h : Reasoned env.conf env.platform trace c)
    (hcoherent : Coherent d c) (hfiled : Filed env.conf trace c) (hunset : c.Unset)
    (hstep : c.step env w thread = some p) : Reasoned env.conf env.platform (trace ++ p.2) p.1 := by
  have hcrashed : c.crashed = false := crashed_of_step hstep
  have horderly := hcoherent.orderly hfiled.stage
  have hturn := turn_step hcoherent horderly hstep
  unfold LPushConn.step at hstep
  rw [if_neg (by rw [hcrashed]; exact Bool.false_ne_true)] at hstep
  cases thread with
  | cycle => exact h.cycle hcrashed hcoherent hunset hturn hstep
  | recv =>
      obtain ⟨t, htrd, -⟩ := recv_spec hstep
      have hthreads : c.trd.isSome = true ∨ c.trd2.isSome = true := .inl (by rw [htrd]; rfl)
      have hprotocol : c.lpushProtocol.isSome = true := by
        apply horderly.protocol
        rcases hcoherent.active_of_threads hthreads with hphase | hphase <;> rw [hphase] <;> decide
      exact h.helper hcrashed hcoherent hunset hthreads (asking_recv hprotocol (recv_done hstep))
        fun names hnames => accounted_recv hnames hprotocol (recv_done hstep)
  | consum =>
      obtain ⟨t, htrd2, -⟩ := consum_spec hstep
      have hthreads : c.trd.isSome = true ∨ c.trd2.isSome = true := .inr (by rw [htrd2]; rfl)
      exact h.helper hcrashed hcoherent hunset hthreads (asking_consum (consum_done hstep))
        fun names hnames => accounted_consum hnames (consum_done hstep)

/-- **Every command has its reason**, in every history. -/
theorem history_reasoned (hsurroundings : ∀ env, surroundings env → env.conf = conf ∧ env.platform = platform)
    (hrun : History surroundings trace c) : Reasoned conf platform trace c := by
  induction hrun with
  | start haccepted =>
      obtain ⟨stfd, beyond, rfl | rfl⟩ := haccepted
      · exact .silent (.inl rfl) rfl rfl
      · exact .silent (.inl rfl) rfl rfl
  | next hbefore hstep ih =>
      cases hstep with
      | thread env w thread henv hstep =>
          have hcoherent := (history_proper hbefore).2 (crashed_of_step hstep)
          have hfiled := history_filed (fun env henv => (hsurroundings env henv).1) hbefore
          obtain ⟨rfl, rfl⟩ := hsurroundings env henv
          exact ih.step hcoherent hfiled (history_unset hbefore) hstep
      | queued msg hrunning hpush =>
          obtain ⟨client, -, rfl⟩ := Option.map_eq_some_iff.mp hpush
          exact ih.quiet hrunning rfl rfl id id fun hopen => ⟨hopen, rfl, rfl, rfl⟩

end reasoned

end LPushConn

namespace Server

section reasoned

variable {setup : Setup} {tasks : List Bytes} {trace : List Observation} {s : Server} {id : Nat} {c : LPushConn}

/-- Every connection of a run has its reasons. -/
theorem Reached.reasoned (hrun : Reached setup tasks trace s) (hc : s.conns id = some c) :
    LPushConn.Reasoned setup.conf setup.platform (view id trace) c :=
  LPushConn.history_reasoned (fun _ henv => ⟨henv.1, henv.2.1⟩) (hrun.history hc)

/-- **Every command of a connection has one reason, and every reason its commands**: behind the four
commands of the announcement come, in the order in which the frames were handed on, the answers to all
of them, between them the commands of `do_dispose` for threads that failed, and nothing else. Only a
process that dies leaves a frame without its answer. -/
theorem commands_accounted (hrun : Reached setup tasks trace s) (hc : s.conns id = some c) :
    (LPushConn.commands (view id trace) = [] ∧ handed (view id trace) = []) ∨
      ∃ (msg : LPushHandshakeMessage) (utime : Int) (entries : List LPushConn.Entry) (unanswered : List LPushChunk),
        LPushConn.commands (view id trace) = LPushConn.announcement setup.conf utime msg ++
          entries.flatMap (LPushConn.Entry.commands (.create setup.conf msg)) ∧
        handed (view id trace) = entries.filterMap LPushConn.Entry.frame? ++ unanswered ∧
        (c.crashed = false → unanswered = []) ∧
        ∀ entry ∈ entries, entry.Sound setup.conf setup.platform (.create setup.conf msg) := by
  cases hrun.reasoned hc with
  | silent _ hcommands hhanded => exact .inl ⟨hcommands, hhanded⟩
  | announced msg utime entries unanswered _ _ hcommands hhanded hanswered hsound =>
      exact .inr ⟨msg, utime, entries, unanswered, hcommands, hhanded, hanswered, hsound⟩

end reasoned

/-- User 7 has sent one heartbeat. -/
theorem commands_accounted_beatsOnce : ∃ trace s c,
    Reached (visitorSetup [userSeven]) [] trace s ∧ s.conns 0 = some c ∧
      (LPushConn.commands (view 0 trace)).length = 7 ∧
      ∃ (msg : LPushHandshakeMessage) (utime : Int) (entries : List LPushConn.Entry) (unanswered : List LPushChunk),
        LPushConn.commands (view 0 trace) = LPushConn.announcement bareConfig utime msg ++
          entries.flatMap (LPushConn.Entry.commands (.create bareConfig msg)) ∧
        handed (view 0 trace) = entries.filterMap LPushConn.Entry.frame? ++ unanswered := by
  obtain ⟨trace, s, hrun, hwanted⟩ := reached_of_play (visitorSetup [userSeven]) [] beatsOnce
    (fun next => (next.1.conns 0).isSome && (LPushConn.commands (view 0 next.2)).length == 7) (by decide +kernel)
  obtain ⟨hsome, hlength⟩ := Bool.and_eq_true_iff.mp hwanted
  obtain ⟨c, hc⟩ := Option.isSome_iff_exists.mp hsome
  refine ⟨trace, s, c, hrun, hc, beq_iff_eq.mp hlength, ?_⟩
  rcases commands_accounted hrun hc with ⟨hnone, -⟩ | ⟨msg, utime, entries, unanswered, hcommands, hhanded, -⟩
  · rw [hnone] at hlength
    cases hlength
  · exact ⟨msg, utime, entries, unanswered, hcommands, hhanded⟩

end Server

end LinkedonPush
