import LinkedonPush.App.Enrolment

/-!
# What a connection leaves elsewhere

A connection has entries in Redis, in the queue of the history loader and in the table of the
server. A step of its threads adds to them or takes from them in a few ways only, each in one phase
of its cycle thread.
-/

namespace LinkedonPush

open Theory

/-- The phase a cycle thread is in. -/
inductive Phase where
  /-- Up to the commands of `createConnection`. -/
  | opening
  | refusing
  | connecting
  | running
  | leaving
  | closed
deriving DecidableEq

def CyclePoint.phase : CyclePoint → Phase
  | .unstarted => .opening
  | .created => .opening
  | .handshake _ => .opening
  | .refusing _ _ => .refusing
  | .accepting _ => .opening
  | .createConnection _ => .opening
  | .connecting _ => .connecting
  | .startRecv => .running
  | .startConsum => .running
  | .polling => .running
  | .joinRecv => .leaving
  | .joinConsum => .leaving
  | .closed => .closed

theorem CyclePoint.eq_closed {point : CyclePoint} (h : point.phase = .closed) : point = .closed := by
  cases point with
  | closed => rfl
  | _ => cases h

/-- Effects on what is kept elsewhere, the maps of `LPushSource` apart. -/
def Effect.outward : Effect → Bool
  | .redis _ => true
  | .pushHistory _ _ => true
  | .findPop _ => true
  | .removed => true
  | _ => false

def outward (effects : List Effect) : List Effect := effects.filter Effect.outward

/-- What a connection knows of its entries, and the objects it uses for them. -/
structure Record where
  client : Option LPushClient
  redisApp : Option LPushAPPKey
  redisPlatform : Option LPushPlatform
  clientKey : Bytes
  hostname : Bytes
  mie : Option Nat
  dispose : Bool
  protocol : Bool

/-- The destructor has run. -/
def Record.released (r : Record) : Record :=
  { r with client := none, redisApp := none, redisPlatform := none, protocol := false }

/-- `createConnection` has made the key objects. -/
def Record.registered (r : Record) (conf : LPushConfig) (msg : LPushHandshakeMessage) : Record :=
  { r with
    redisApp := some (LPushAPPKey.create msg.appId msg.userId conf.localhost conf.port)
    redisPlatform := some
      (LPushPlatform.create msg.clientFlag msg.appId msg.userId conf.localhost conf.port)
    clientKey := msg.appId ++ msg.userId
    hostname := conf.hostname }

namespace LPushConn

def record (c : LPushConn) : Record where
  client := c.client.map LPushClient.bare
  redisApp := c.redisApp
  redisPlatform := c.redisPlatform
  clientKey := c.clientKey
  hostname := c.hostname
  mie := c.mie
  dispose := c.dispose
  protocol := c.lpushProtocol.isSome

/-- The record does not tell one buffer from another. -/
theorem record_protocol {c : LPushConn} (hprotocol : c.lpushProtocol.isSome = true) (b : LPushFastBuffer) :
    ({ c with lpushProtocol := some b } : LPushConn).record = c.record := by
  simp only [record, hprotocol, Option.isSome_some]

/-- The commands by which `createConnection` announces a user. -/
def announcement (conf : LPushConfig) (utime : Int) (msg : LPushHandshakeMessage) : List RedisCommand :=
  let redisApp := LPushAPPKey.create msg.appId msg.userId conf.localhost conf.port
  let redisPlatform :=
    LPushPlatform.create msg.clientFlag msg.appId msg.userId conf.localhost conf.port
  [RedisClient.set (msg.appId ++ msg.userId) conf.hostname,
    RedisClient.expire (msg.appId ++ msg.userId) 60,
    RedisClient.zadd redisApp.appKey (utime.tdiv 1000) redisApp.key,
    RedisClient.zadd redisPlatform.platformKey (utime.tdiv 1000) redisPlatform.key]

/-- A command of a helper thread; only the last three come from `do_dispose`. -/
inductive Asks (r : Record) (disposed : Bool) : RedisCommand → Prop where
  | scoreApp (redisApp : LPushAPPKey) (score : Int) (hredis : r.redisApp = some redisApp) :
      Asks r disposed (RedisClient.zadd redisApp.appKey score redisApp.key)
  | scorePlatform (redisPlatform : LPushPlatform) (score : Int)
      (hredis : r.redisPlatform = some redisPlatform) :
      Asks r disposed (RedisClient.zadd redisPlatform.platformKey score redisPlatform.key)
  | expire : Asks r disposed (RedisClient.expire r.clientKey 60)
  | result (key value : Bytes) : Asks r disposed (RedisClient.lPushForList key value)
  | del (hdisposed : disposed = true) : Asks r disposed (RedisClient.del r.clientKey)
  | zremApp (redisApp : LPushAPPKey) (hredis : r.redisApp = some redisApp) (hdisposed : disposed = true) :
      Asks r disposed (RedisClient.zrem redisApp.appKey redisApp.key)
  | zremPlatform (redisPlatform : LPushPlatform) (hredis : r.redisPlatform = some redisPlatform)
      (hdisposed : disposed = true) :
      Asks r disposed (RedisClient.zrem redisPlatform.platformKey redisPlatform.key)

/-- A helper thread sends commands, and the connection keeps its record, `dispose` apart. -/
structure Asking (c : LPushConn) (p : Progress) : Prop where
  commands : ∃ commands : List RedisCommand, outward p.2 = commands.map .redis ∧
    ∀ command ∈ commands, Asks c.record p.1.dispose command
  phase : p.1.point.phase = c.point.phase
  record : p.1.record = { c.record with dispose := p.1.dispose }
  dispose : c.dispose = true → p.1.dispose = true

/-- The destructor runs up to a join or to its end. -/
def Ends (c c' : LPushConn) : Prop :=
  (c'.point.phase = .leaving ∧ c'.record = c.record) ∨
    (c'.point.phase = .closed ∧ c'.record = c.record.released)

/-- `LPushServer::remove` and the destructor, up to its first join. -/
structure Finishes (c : LPushConn) (p : Progress) : Prop where
  outward_eq : outward p.2 = .removed :: (c.mie.map .findPop).toList
  ends : Ends c p.1
  /-- Without helper threads there is nothing to join. -/
  closes : c.trd = none → c.trd2 = none → p.1.point.phase = .closed

/-- What one step does about the entries of its connection. -/
inductive Turn (env : Env) (w : World) (c : LPushConn) (p : Progress) : Prop where
  | stays (hrecord : p.1.record = c.record) (houtward : outward p.2 = [])
      (hphase : p.1.point.phase = c.point.phase ∨
        (c.point.phase = .opening ∧ p.1.point.phase = .refusing))
  | refused (msg : LPushHandshakeMessage) (hphase : c.point.phase = .opening)
      (hmsg : c.lphandshakeMsg = some msg) (hrecord : p.1.record = c.record.registered env.conf msg)
      (houtward : outward p.2 = (announcement env.conf w.utime msg).map .redis)
      (hphase' : p.1.point.phase = .refusing)
  | enrolled (msg : LPushHandshakeMessage) (hphase : c.point.phase = .opening)
      (hmsg : c.lphandshakeMsg = some msg)
      (hrecord : p.1.record =
        { c.record.registered env.conf msg with client := some (.create c.stfd msg) })
      (houtward : outward p.2 = (announcement env.conf w.utime msg).map .redis)
      (hphase' : p.1.point.phase = .connecting)
  | connects (msg : LPushHandshakeMessage) (hphase : c.point.phase = .connecting)
      (hrecord : p.1.record = { c.record with mie := some w.address })
      (houtward : outward p.2 = [.pushHistory w.address (historyRequest env.conf msg)])
      (hphase' : p.1.point.phase = .running)
  | finishes (hopen : c.point.phase ≠ .leaving ∧ c.point.phase ≠ .closed) (hfinishes : Finishes c p)
  | ends (hphase : c.point.phase = .leaving) (houtward : outward p.2 = []) (hends : Ends c p.1)
  | asks (hthreads : c.trd.isSome = true ∨ c.trd2.isSome = true) (hasking : Asking c p)

section turn

variable {env : Env} {w : World} {c c₁ : LPushConn} {p : Progress} {effects : List Effect}

@[simp] theorem outward_nil : outward [] = [] := rfl

theorem outward_append (first second : List Effect) :
    outward (first ++ second) = outward first ++ outward second := List.filter_append ..

theorem outward_redis (commands : List RedisCommand) :
    outward (commands.map .redis) = commands.map .redis := by
  rw [outward, List.filter_eq_self]
  intro e he
  obtain ⟨command, -, rfl⟩ := List.mem_map.mp he
  rfl

/-- Only the record and the phase of the starting point count. -/
theorem Turn.of_eq (h : Turn env w c₁ p) (hrecord : c₁.record = c.record)
    (hphase : c₁.point.phase = c.point.phase) (hmsg : c₁.lphandshakeMsg = c.lphandshakeMsg)
    (hstfd : c₁.stfd = c.stfd) (htrd : c₁.trd = c.trd) (htrd2 : c₁.trd2 = c.trd2) : Turn env w c p := by
  have hmie : c₁.mie = c.mie := congrArg Record.mie hrecord
  have hdispose₁ : c₁.dispose = c.dispose := congrArg Record.dispose hrecord
  have hends : Ends c₁ p.1 → Ends c p.1 := by
    unfold Ends
    rw [hrecord]
    exact id
  cases h with
  | stays h₁ h₂ h₃ =>
      rw [hphase] at h₃
      exact .stays (h₁.trans hrecord) h₂ h₃
  | refused msg h₁ h₂ h₃ h₄ h₅ =>
      rw [hrecord] at h₃
      exact .refused msg (hphase.symm.trans h₁) (hmsg.symm.trans h₂) h₃ h₄ h₅
  | enrolled msg h₁ h₂ h₃ h₄ h₅ =>
      rw [hrecord, hstfd] at h₃
      exact .enrolled msg (hphase.symm.trans h₁) (hmsg.symm.trans h₂) h₃ h₄ h₅
  | connects msg h₁ h₂ h₃ h₄ =>
      rw [hrecord] at h₂
      exact .connects msg (hphase.symm.trans h₁) h₂ h₃ h₄
  | finishes h₁ h₂ =>
      obtain ⟨houtward, hends', hcloses⟩ := h₂
      rw [hphase] at h₁
      rw [hmie] at houtward
      rw [htrd, htrd2] at hcloses
      exact .finishes h₁ ⟨houtward, hends hends', hcloses⟩
  | ends h₁ h₂ h₃ => exact .ends (hphase.symm.trans h₁) h₂ (hends h₃)
  | asks hthreads h =>
      obtain ⟨h₁, h₂, h₃, h₄⟩ := h
      rw [hrecord] at h₁ h₃
      rw [hdispose₁] at h₄
      rw [htrd, htrd2] at hthreads
      exact .asks hthreads ⟨h₁, h₂.trans hphase, h₃, h₄⟩

/-- Effects that stay inside the connection may come first. -/
theorem Turn.after (h : Turn env w c p) (hinward : outward effects = []) :
    Turn env w c (p.after effects) := by
  have hsame : outward (p.after effects).2 = outward p.2 := by
    rw [Progress.after, outward_append, hinward, List.nil_append]
  cases h with
  | stays h₁ h₂ h₃ => exact .stays h₁ (hsame.trans h₂) h₃
  | refused msg h₁ h₂ h₃ h₄ h₅ => exact .refused msg h₁ h₂ h₃ (hsame.trans h₄) h₅
  | enrolled msg h₁ h₂ h₃ h₄ h₅ => exact .enrolled msg h₁ h₂ h₃ (hsame.trans h₄) h₅
  | connects msg h₁ h₂ h₃ h₄ => exact .connects msg h₁ h₂ (hsame.trans h₃) h₄
  | finishes h₁ h₂ => exact .finishes h₁ ⟨hsame.trans h₂.outward_eq, h₂.ends, h₂.closes⟩
  | ends h₁ h₂ h₃ => exact .ends h₁ (hsame.trans h₂) h₃
  | asks hthreads h =>
      obtain ⟨⟨commands, houtward, hcommands⟩, hphase, hrecord, hdispose⟩ := h
      exact .asks hthreads ⟨⟨commands, hsame.trans houtward, hcommands⟩, hphase, hrecord, hdispose⟩

theorem turn_die (c : LPushConn) (fault : Fault) : Turn env w c (c.die fault) :=
  .stays rfl rfl (.inl rfl)

end turn

/-! ### The end -/

section ends

variable {c c₁ : LPushConn}

theorem Ends.of_record {c' : LPushConn} (h : Ends c₁ c') (hrecord : c₁.record = c.record) : Ends c c' := by
  rwa [Ends, hrecord] at h

/-- The destructor clears neither the pointer to the request nor the key. -/
theorem Ends.kept {c' : LPushConn} (h : Ends c c') : c'.mie = c.mie ∧ c'.clientKey = c.clientKey := by
  rcases h with ⟨-, hrecord⟩ | ⟨-, hrecord⟩
  · exact ⟨congrArg Record.mie hrecord, congrArg Record.clientKey hrecord⟩
  · exact ⟨congrArg Record.mie hrecord, congrArg Record.clientKey hrecord⟩

theorem Ends.phase {c' : LPushConn} (h : Ends c c') :
    c'.point.phase = .leaving ∨ c'.point.phase = .closed := h.imp And.left And.left

theorem ends_release (c : LPushConn) : outward c.release.2 = [] ∧ Ends c c.release.1 := by
  refine ⟨?_, .inr ⟨rfl, rfl⟩⟩
  unfold release
  cases c.client <;> rfl

theorem ends_deleteTrd2 (c : LPushConn) : outward c.deleteTrd2.2 = [] ∧ Ends c c.deleteTrd2.1 := by
  unfold deleteTrd2
  split
  · exact ends_release c
  · dsimp only
    split
    · exact ends_release c
    · exact ends_release c
    · exact ⟨rfl, .inl ⟨rfl, rfl⟩⟩

theorem ends_deleteTrd (c : LPushConn) : outward c.deleteTrd.2 = [] ∧ Ends c c.deleteTrd.1 := by
  obtain ⟨houtward, hends⟩ := ends_deleteTrd2 { c with trd := none }
  unfold deleteTrd
  split
  · exact ends_deleteTrd2 c
  · dsimp only
    split
    · exact ⟨houtward, hends.of_record rfl⟩
    · exact ⟨houtward, hends.of_record rfl⟩
    · exact ⟨rfl, .inl ⟨rfl, rfl⟩⟩

theorem finishes_finish (c : LPushConn) (ret : Int) : Finishes c (c.finish ret) := by
  obtain ⟨houtward, hends⟩ := ends_deleteTrd c
  refine ⟨?_, hends, fun htrd htrd2 => ?_⟩
  · unfold finish
    rw [Progress.after, outward_append, houtward, List.append_nil]
    cases c.mie <;> rfl
  · simp only [finish, Progress.after, deleteTrd, htrd, deleteTrd2, htrd2]
    rfl

end ends

/-! ### The cycle thread -/

/-- The cycle thread goes on with its loop, or leaves it. -/
def Starts (c : LPushConn) (p : Progress) : Prop :=
  (p.1.record = c.record ∧ outward p.2 = [] ∧ p.1.point.phase = .running) ∨
    (c.dispose = true ∧ outward p.2 = .removed :: (c.mie.map .findPop).toList ∧ Ends c p.1)

section cycle

variable {env : Env} {w : World} {c c₁ : LPushConn} {p : Progress} {t : LPushRecvThread}
  {u : LPushConsumThread}

theorem Starts.of_record (h : Starts c₁ p) (hrecord : c₁.record = c.record) : Starts c p := by
  have hmie : c₁.mie = c.mie := congrArg Record.mie hrecord
  have hdispose : c₁.dispose = c.dispose := congrArg Record.dispose hrecord
  rcases h with ⟨h₁, h₂, h₃⟩ | ⟨h₁, h₂, h₃⟩
  · exact .inl ⟨h₁.trans hrecord, h₂, h₃⟩
  · rw [hmie] at h₂
    exact .inr ⟨hdispose.symm.trans h₁, h₂, h₃.of_record hrecord⟩

theorem Starts.turn (h : Starts c p) (hphase : c.point.phase = .running) (htrd : c.trd.isSome = true) :
    Turn env w c p := by
  rcases h with ⟨h₁, h₂, h₃⟩ | ⟨-, houtward, hends⟩
  · exact .stays h₁ h₂ (.inl (h₃.trans hphase.symm))
  · refine .finishes (by simp [hphase]) ⟨houtward, hends, fun hnone => ?_⟩
    rw [hnone] at htrd
    cases htrd

theorem turn_poll (hphase : c.point.phase = .running) : Turn env w c c.poll := by
  have hopen : c.point.phase ≠ .leaving ∧ c.point.phase ≠ .closed := by simp [hphase]
  unfold poll
  split
  · exact .finishes hopen (finishes_finish c _)
  · split
    · exact .finishes hopen (finishes_finish c _)
    · exact .stays rfl rfl (.inl hphase.symm)

theorem starts_started (c : LPushConn) (w : World) : Starts c (c.started w) := by
  unfold started poll
  split
  · rename_i hdispose
    have hfinishes := finishes_finish { c with beforeDataTime := w.now, nowDataTime := w.now } errorSuccess
    exact .inr ⟨hdispose, hfinishes.outward_eq, hfinishes.ends⟩
  · rw [if_neg (by simp [lpHreatTimeoutUs])]
    exact .inl ⟨rfl, rfl, rfl⟩

theorem starts_startTrd2 (htrd2 : c.trd2 = some u) : Starts c (c.startTrd2 w) := by
  unfold startTrd2
  rw [htrd2]
  dsimp only
  split
  · exact .inl ⟨rfl, rfl, rfl⟩
  · exact (starts_started _ w).of_record rfl

theorem starts_startTrd (htrd : c.trd = some t) (htrd2 : c.trd2 = some u) : Starts c (c.startTrd w) := by
  unfold startTrd
  rw [htrd]
  dsimp only
  split
  · exact .inl ⟨rfl, rfl, rfl⟩
  · exact starts_startTrd2 htrd2

theorem turn_connected (hphase : c.point.phase = .connecting) (hdispose : c.dispose = false) :
    Turn env w c (c.connected env w) := by
  unfold connected
  cases hmsg : c.lphandshakeMsg with
  | none => exact turn_die c _
  | some msg =>
      have hstarts := starts_startTrd (w := w) (c := { c with
        lphandshakeMsg := some msg
        mie := some w.address
        trd := some ⟨.init, .created⟩
        trd2 := some ⟨.init, false, .created⟩ }) rfl rfl
      rcases hstarts with ⟨h₁, h₂, h₃⟩ | ⟨hdisposed, -⟩
      · refine .connects msg hphase h₁ ?_ h₃
        dsimp only
        rw [Progress.after, outward_append, h₂]
        rfl
      · cases hdispose.symm.trans hdisposed

theorem turn_register (hphase : c.point.phase = .opening) : Turn env w c (c.register env w) := by
  unfold register
  cases hmsg : c.lphandshakeMsg with
  | none => exact turn_die c _
  | some msg =>
      dsimp only
      split
      · exact .refused msg hphase hmsg rfl rfl rfl
      · exact .enrolled msg hphase hmsg rfl rfl rfl

theorem turn_createConnection {r : MessageReading} (hphase : c.point.phase = .opening)
    (hprotocol : c.lpushProtocol.isSome = true) : Turn env w c (c.createConnection env w r) := by
  have hopen : c.point.phase ≠ .leaving ∧ c.point.phase ≠ .closed := by simp [hphase]
  cases r with
  | need size resume => exact .stays rfl rfl (.inl hphase.symm)
  | abort => exact turn_die c _
  | done result =>
      obtain ⟨ret, lpc, b⟩ := result
      have hrecord := record_protocol hprotocol b
      have hturn : ∀ {p}, Turn env w { c with lpushProtocol := some b } p → Turn env w c p :=
        fun h => h.of_eq hrecord rfl rfl rfl rfl rfl
      simp only [createConnection]
      refine (hturn ?_).after rfl
      split
      · exact .finishes hopen (finishes_finish _ _)
      · split
        · exact .finishes hopen (finishes_finish _ _)
        · exact turn_register hphase

theorem turn_handshake {r : MessageReading} (hphase : c.point.phase = .opening)
    (hprotocol : c.lpushProtocol.isSome = true) : Turn env w c (c.handshake env w r) := by
  cases r with
  | need size resume => exact .stays rfl rfl (.inl hphase.symm)
  | abort => exact turn_die c _
  | done result =>
      obtain ⟨ret, lpc, b⟩ := result
      have hrecord := record_protocol hprotocol b
      have hrefusing : ∀ chunk ret, Turn env w c
          ({ c with lpushProtocol := some b, point := .refusing chunk ret }, []) :=
        fun chunk ret => .stays hrecord rfl (.inr ⟨hphase, rfl⟩)
      simp only [handshake]
      split
      · exact (hrefusing _ _).after rfl
      · split
        · exact ((turn_die _ _).of_eq hrecord rfl rfl rfl rfl rfl).after rfl
        · split
          · exact (hrefusing _ _).after rfl
          · split
            · exact .stays hrecord rfl (.inr ⟨hphase, rfl⟩)
            · exact .stays hrecord rfl (.inl hphase.symm)

theorem turn_withProtocol {next : MessageReading → Progress} (hnext : ∀ r, Turn env w c (next r)) :
    Turn env w c (c.withProtocol next) := by
  unfold withProtocol
  split
  · exact turn_die c _
  · exact hnext _

/-- What is known of a connection between two steps. -/
structure Orderly (c : LPushConn) : Prop where
  protocol : c.point.phase ≠ .closed → c.lpushProtocol.isSome = true
  dispose : c.point.phase = .connecting → c.dispose = false
  threads : c.point.phase = .running → c.trd.isSome = true ∧ c.trd2.isSome = true

theorem turn_cycle (h : Orderly c) (hstep : c.cycle env w = some p) : Turn env w c p := by
  cases cycle_spec hstep with
  | created hpoint =>
      have hphase : c.point.phase = .opening := by rw [hpoint]; rfl
      exact turn_withProtocol fun r => turn_handshake hphase (h.protocol (by simp [hphase]))
  | handshake size resume hpoint =>
      have hphase : c.point.phase = .opening := by rw [hpoint]; rfl
      exact (turn_handshake hphase (h.protocol (by simp [hphase]))).after rfl
  | refusing chunk ret hpoint =>
      exact Turn.after (.finishes (by simp [hpoint, CyclePoint.phase]) (finishes_finish c _)) rfl
  | unwritten chunk e hpoint =>
      refine Turn.after (.finishes ?_ (finishes_finish c _)) rfl
      rcases hpoint with hpoint | hpoint <;> simp [hpoint, CyclePoint.phase]
  | accepting chunk hpoint =>
      have hphase : c.point.phase = .opening := by rw [hpoint]; rfl
      refine Turn.after (turn_withProtocol fun r => ?_) rfl
      exact turn_createConnection hphase (h.protocol (by simp [hphase]))
  | createConnection size resume hpoint =>
      have hphase : c.point.phase = .opening := by rw [hpoint]; rfl
      exact (turn_createConnection hphase (h.protocol (by simp [hphase]))).after rfl
  | connecting chunk hpoint =>
      have hphase : c.point.phase = .connecting := by rw [hpoint]; rfl
      exact (turn_connected hphase (h.dispose hphase)).after rfl
  | noThread => exact turn_die c _
  | unready => exact .stays rfl rfl (.inl rfl)
  | startRecv t hpoint =>
      have hphase : c.point.phase = .running := by rw [hpoint]; rfl
      obtain ⟨u, htrd2⟩ := Option.isSome_iff_exists.mp (h.threads hphase).2
      refine Starts.turn (Starts.of_record (starts_startTrd2 htrd2) ?_) hphase (h.threads hphase).1
      rfl
  | startConsum t hpoint =>
      have hphase : c.point.phase = .running := by rw [hpoint]; rfl
      refine Starts.turn (Starts.of_record (starts_started _ w) ?_) hphase (h.threads hphase).1
      rfl
  | polling hpoint =>
      have hphase : c.point.phase = .running := by rw [hpoint]; rfl
      exact turn_poll hphase
  | joinRecv t hpoint =>
      have hphase : c.point.phase = .leaving := by rw [hpoint]; rfl
      obtain ⟨houtward, hends⟩ := ends_deleteTrd2 { c with trd := none }
      exact .ends hphase houtward (hends.of_record rfl)
  | joinConsum t hpoint =>
      have hphase : c.point.phase = .leaving := by rw [hpoint]; rfl
      obtain ⟨houtward, hends⟩ := ends_release c
      exact .ends hphase houtward hends

end cycle

/-! ### The helper threads -/

section asking

variable {env : Env} {w : World} {c c' : LPushConn} {p : Progress} {effects : List Effect}

theorem Asks.later {r r' : Record} {disposed disposed' : Bool} {command : RedisCommand}
    (h : Asks r disposed command) (happ : r.redisApp = r'.redisApp)
    (hplatform : r.redisPlatform = r'.redisPlatform) (hkey : r.clientKey = r'.clientKey)
    (himp : disposed = true → disposed' = true) : Asks r' disposed' command := by
  cases h with
  | scoreApp redisApp score hredis => exact .scoreApp redisApp score (happ.symm.trans hredis)
  | scorePlatform redisPlatform score hredis =>
      exact .scorePlatform redisPlatform score (hplatform.symm.trans hredis)
  | expire =>
      rw [hkey]
      exact .expire
  | result key value => exact .result key value
  | del hdisposed =>
      rw [hkey]
      exact .del (himp hdisposed)
  | zremApp redisApp hredis hdisposed =>
      exact .zremApp redisApp (happ.symm.trans hredis) (himp hdisposed)
  | zremPlatform redisPlatform hredis hdisposed =>
      exact .zremPlatform redisPlatform (hplatform.symm.trans hredis) (himp hdisposed)

theorem Asking.trans (h : Asking c (c', effects)) (h' : Asking c' p) : Asking c (p.after effects) := by
  obtain ⟨⟨first, houtward, hfirst⟩, hphase, hrecord, hdispose⟩ := h
  obtain ⟨⟨last, houtward', hlast⟩, hphase', hrecord', hdispose'⟩ := h'
  dsimp only at houtward hfirst hphase hrecord hdispose
  have happ : c'.record.redisApp = c.record.redisApp := by rw [hrecord]
  have hplatform : c'.record.redisPlatform = c.record.redisPlatform := by rw [hrecord]
  have hkey : c'.record.clientKey = c.record.clientKey := by rw [hrecord]
  refine ⟨⟨first ++ last, ?_, fun command hmem => ?_⟩, hphase'.trans hphase, ?_,
    fun hdisposed => hdispose' (hdispose hdisposed)⟩
  · rw [Progress.after, outward_append, houtward, houtward', List.map_append]
  · rcases List.mem_append.mp hmem with hmem | hmem
    · exact (hfirst command hmem).later rfl rfl rfl hdispose'
    · exact (hlast command hmem).later happ hplatform hkey id
  · rw [hrecord] at hrecord'
    exact hrecord'

/-- The thread sends nothing. -/
theorem asking_stop (hrecord : c'.record = c.record) (hphase : c'.point.phase = c.point.phase)
    (houtward : outward effects = []) : Asking c (c', effects) := by
  have hdispose : c'.dispose = c.dispose := congrArg Record.dispose hrecord
  refine ⟨⟨[], houtward, fun _ hmem => (List.not_mem_nil hmem).elim⟩, hphase, ?_, fun h => hdispose.trans h⟩
  rw [hrecord]
  dsimp only
  rw [hdispose]
  rfl

theorem asking_die (c : LPushConn) (fault : Fault) : Asking c (c.die fault) := asking_stop rfl rfl rfl

theorem asking_doDispose (h : c.doDispose = some p) : Asking c p := by
  unfold doDispose at h
  split at h
  · rename_i redisApp redisPlatform happ hplatform
    cases h
    refine ⟨⟨[RedisClient.del c.clientKey, RedisClient.zrem redisApp.appKey redisApp.key,
      RedisClient.zrem redisPlatform.platformKey redisPlatform.key], rfl, fun command hmem => ?_⟩, rfl, rfl,
      fun _ => rfl⟩
    simp only [List.mem_cons, List.not_mem_nil, or_false] at hmem
    rcases hmem with rfl | rfl | rfl
    · exact .del rfl
    · exact .zremApp redisApp happ rfl
    · exact .zremPlatform redisPlatform hplatform rfl
  · cases h

theorem asking_hreatbeat (h : c.hreatbeat = some effects) : Asking c (c, effects) := by
  unfold hreatbeat at h
  split at h
  · rename_i redisApp redisPlatform happ hplatform
    cases h
    refine ⟨⟨[RedisClient.zadd redisApp.appKey (c.hreatDataTime.tdiv 1000) redisApp.key,
      RedisClient.zadd redisPlatform.platformKey (c.hreatDataTime.tdiv 1000) redisPlatform.key,
      RedisClient.expire c.clientKey 60], rfl, fun command hmem => ?_⟩, rfl, rfl, fun h => h⟩
    simp only [List.mem_cons, List.not_mem_nil, or_false] at hmem
    rcases hmem with rfl | rfl | rfl
    · exact .scoreApp redisApp _ happ
    · exact .scorePlatform redisPlatform _ hplatform
    · exact .expire
  · cases h

/-- An acknowledgement ends up in a result list. -/
theorem recvPushCallback_commands {conf : LPushConfig} {platform : Platform} {beyond : Nat → UInt8}
    {message : LPushChunk} {ret : Int} {commands : List RedisCommand}
    (h : (recvPushCallback conf platform beyond message).result = some (ret, commands)) :
    ∀ command ∈ commands, ∃ key value, command = RedisClient.lPushForList key value := by
  unfold recvPushCallback at h
  rw [Access.result_bind] at h
  obtain ⟨⟨result, taskId⟩, -, h⟩ := Option.bind_eq_some_iff.mp h
  dsimp only at h
  split at h
  · cases h
    exact fun _ hmem => (List.not_mem_nil hmem).elim
  · rw [Access.result_bind] at h
    obtain ⟨⟨result', msgId⟩, -, h⟩ := Option.bind_eq_some_iff.mp h
    dsimp only at h
    split at h
    · cases h
      exact fun _ hmem => (List.not_mem_nil hmem).elim
    · split at h
      · cases h
        exact fun _ hmem => (List.not_mem_nil hmem).elim
      · cases h
        intro command hmem
        exact ⟨_, _, List.mem_singleton.mp hmem⟩

theorem asking_dispatch {beyond : Nat → UInt8} {message : LPushChunk} {ret : Int}
    (h : dispatch env beyond c message = .ok (ret, p)) : Asking c p := by
  unfold dispatch at h
  split at h
  · cases heffects : c.hreatbeat with
    | none =>
        rw [heffects] at h
        cases h
    | some effects =>
        rw [heffects] at h
        cases h
        exact asking_hreatbeat heffects
  · split at h
    · cases hdispose : c.doDispose with
      | none =>
          rw [hdispose] at h
          cases h
      | some progress =>
          rw [hdispose] at h
          cases h
          exact asking_doDispose hdispose
    · split at h
      · cases hresult : (recvPushCallback env.conf env.platform beyond message).result with
        | none =>
            rw [hresult] at h
            cases h
        | some result =>
            obtain ⟨ret', commands⟩ := result
            rw [hresult] at h
            cases h
            refine ⟨⟨commands, outward_redis commands, fun command hmem => ?_⟩, rfl, rfl, fun h => h⟩
            obtain ⟨key, value, rfl⟩ := recvPushCallback_commands hresult command hmem
            exact .result key value
      · cases h
        exact asking_stop rfl rfl rfl

theorem asking_forwardServer {beyond : Nat → UInt8} {message : LPushChunk} {ret : Int}
    (h : forwardServer env beyond c message = .ok (ret, p)) : Asking c p := by
  unfold forwardServer at h
  cases hresult : dispatch env beyond c message with
  | error fault =>
      rw [hresult] at h
      cases h
  | ok result =>
      obtain ⟨ret', c', effects⟩ := result
      rw [hresult] at h
      cases h
      obtain ⟨hcommands, hphase, hrecord, hdispose⟩ := asking_dispatch hresult
      exact ⟨hcommands, hphase, hrecord, hdispose⟩

theorem asking_rests {stopped : LPushConn → LPushConn → Prop}
    (hstopped : ∀ {c c'}, stopped c c' → Asking c (c', [])) (h : Rests stopped c p) : Asking c p := by
  cases h with
  | stops hstop => exact hstopped hstop
  | disposes hdispose hstop => exact (asking_doDispose hdispose).trans (hstopped hstop)
  | undisposed => exact asking_die c _

theorem asking_recvStopped (h : RecvStopped c c') : Asking c (c', []) := by
  obtain ⟨t, rfl⟩ := h
  exact asking_stop rfl rfl rfl

theorem asking_consumStopped (h : ConsumStopped c c') : Asking c (c', []) := by
  obtain ⟨u, rfl, -⟩ := h
  exact asking_stop rfl rfl rfl

theorem asking_recv (hprotocol : c.lpushProtocol.isSome = true) (h : RecvDone env w c p) : Asking c p := by
  have hmessage : ∀ ret lpc b, Asking c ({ c with lpushProtocol := some b }, [.message ret lpc]) := fun _ _ b =>
    asking_stop (record_protocol hprotocol b) rfl rfl
  have hforward : ∀ (c : LPushConn) lpc, Asking c (c, [.forward lpc]) := fun _ _ => asking_stop rfl rfl rfl
  induction h with
  | rests h => exact asking_rests asking_recvStopped h
  | received h ih =>
      have hreceived : Asking c (c, [.received w.delivery]) := asking_stop rfl rfl rfl
      exact hreceived.trans ih
  | aborted => exact asking_die c _
  | refused ret lpc b h => exact (hmessage ret lpc b).trans (asking_rests asking_recvStopped h)
  | failed ret lpc b fault hresult =>
      exact (hmessage ret lpc b).trans ((hforward _ lpc).trans (asking_die _ fault))
  | @forwarded ret lpc b ret' c' effects p hresult h =>
      have hreturned : Asking c' (c', [.forwardReturned ret']) := asking_stop rfl rfl rfl
      rw [← after_after]
      exact (hmessage ret lpc b).trans ((hforward _ lpc).trans ((asking_forwardServer hresult).trans
        (hreturned.trans (asking_rests asking_recvStopped h))))

theorem asking_consum (h : ConsumDone env w c p) : Asking c p := by
  induction h with
  | rests h => exact asking_rests asking_consumStopped h
  | wrote u work chunk ok htrd2 hpoint h ih =>
      have hwrote : Asking c (c, [.wrote chunk ok (some work)]) := asking_stop rfl rfl rfl
      exact hwrote.trans ih
  | popped u client work queue chunk hclient hqueue hchunk =>
      refine asking_stop ?_ rfl rfl
      simp only [record, hclient]
      rfl
  | died fault hfault => exact asking_die c fault

end asking

/-! ### Steps -/

section step

variable {env : Env} {w : World} {thread : ThreadName} {c : LPushConn} {p : Progress}

/-- **What a step does about the entries of its connection.** -/
theorem turn_step {d : Dialogue} (hcoherent : Coherent d c) (h : Orderly c)
    (hstep : c.step env w thread = some p) : Turn env w c p := by
  have hopen : c.point.phase ≠ .closed := by
    intro hclosed
    rw [hcoherent.step_closed (CyclePoint.eq_closed hclosed)] at hstep
    cases hstep
  unfold step at hstep
  split at hstep
  · cases hstep
  · cases thread with
    | cycle => exact turn_cycle h hstep
    | recv =>
        refine .asks (.inl ?_) (asking_recv (h.protocol hopen) (recv_done hstep))
        obtain ⟨t, htrd, -⟩ := recv_spec hstep
        rw [htrd, Option.isSome_some]
    | consum =>
        refine .asks (.inr ?_) (asking_consum (consum_done hstep))
        obtain ⟨t, htrd2, -⟩ := consum_spec hstep
        rw [htrd2, Option.isSome_some]

end step

end LPushConn

end LinkedonPush
