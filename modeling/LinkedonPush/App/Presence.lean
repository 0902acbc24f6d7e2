import LinkedonPush.App.Authentication
import LinkedonPush.App.Cluster

/-!
# Presence

A user is found through two entries in Redis, which `createConnection` writes, a heartbeat renews
and `do_dispose` removes. They carry the names of the application and of the user only, so that two
connections of one user share them wherever they are.
-/

namespace LinkedonPush

open Theory

namespace Server

section records

variable {setup : Setup} {tasks : List Bytes} {trace shown : List Observation} {s s' : Server} {id : Nat}
  {c c' : LPushConn}

/-- Pushes leave the records of the connections as they were. -/
theorem delivering_record {address : LPushWorkerMessage → Bytes × Bytes × Bytes}
    (hrun : Run (· = s) (Delivering address) shown s') (hc' : s'.conns id = some c') :
    ∃ c, s.conns id = some c ∧ c'.record = c.record := by
  refine hrun.invariant_state (fun s' => ∀ c', s'.conns id = some c' →
    ∃ c, s.conns id = some c ∧ c'.record = c.record) ?_ ?_ c' hc'
  · intro s' hs' c' hc'
    rw [hs'] at hc'
    exact ⟨c', hc', rfl⟩
  · intro s' _ s'' h hstep c'' hc''
    cases hstep with
    | queued id' msg hinstance hpush =>
        obtain ⟨c₁, c₂, hc₁, hpushed, rfl⟩ := push_spec hpush
        rcases update_eq_some.mp hc'' with ⟨rfl, rfl⟩ | ⟨-, hc''⟩
        · obtain ⟨client, hclient, rfl⟩ := Option.map_eq_some_iff.mp hpushed
          obtain ⟨c, hc, hrecord⟩ := h c₁ hc₁
          refine ⟨c, hc, ?_⟩
          rw [← hrecord]
          simp only [LPushConn.record, hclient]
          rfl
        · exact h c'' hc''
    | _ => exact h c'' hc''

/-- A client that is there after a step of its connection was there before, or its user was announced
in the step. -/
theorem Reached.client_turn (hrun : Reached setup tasks trace s) (hc : s.conns id = some c) {w : World}
    {thread : LPushConn.ThreadName} {effects : List Effect}
    (hstep : c.step (s.env setup) w thread = some (c', effects)) {client : LPushClient}
    (hclient : c'.record.client = some client) (hdispose : c'.dispose = false) :
    (c.record.client = some client ∧ c.dispose = false) ∨
      (c'.point.phase = .connecting ∧ ∃ msg utime, client = .create c'.stfd msg ∧
        LPushConn.commands effects = LPushConn.announcement setup.conf utime msg) := by
  have hstfd : c'.stfd = c.stfd := (LPushConn.outcome_step (hrun.coherent hc hstep) hstep).stfd_eq
  -- a step that keeps the record, except perhaps for what it notes about requests and keys
  have hkept : ∀ r : Record, c'.record = r → r.client = c.record.client → r.dispose = c.record.dispose →
      c.record.client = some client ∧ c.dispose = false := by
    rintro r rfl hsame hdisposed
    exact ⟨hsame.symm.trans hclient, hdisposed.symm.trans hdispose⟩
  have hends : LPushConn.Ends c c' → c.record.client = some client ∧ c.dispose = false := by
    intro hends
    rcases hends with ⟨-, hrecord⟩ | ⟨-, hrecord⟩
    · exact hkept _ hrecord rfl rfl
    · rw [hrecord] at hclient
      cases hclient
  cases hrun.turn hc hstep with
  | stays hrecord => exact .inl (hkept _ hrecord rfl rfl)
  | refused msg _ _ hrecord =>
      exact .inl (hkept _ hrecord rfl rfl)
  | enrolled msg _ _ hrecord houtward hphase =>
      refine .inr ⟨hphase, msg, w.utime, ?_, ?_⟩
      · rw [hstfd]
        exact (Option.some.inj ((congrArg Record.client hrecord).symm.trans hclient)).symm
      · exact LPushConn.commands_of_outward houtward
  | connects msg _ hrecord =>
      exact .inl (hkept _ hrecord rfl rfl)
  | finishes _ hfinishes => exact .inl (hends hfinishes.ends)
  | ends _ _ hends' => exact .inl (hends hends')
  | asks _ hasking =>
      refine .inl ⟨(congrArg Record.client hasking.record).symm.trans hclient, ?_⟩
      by_contra hdisposed
      rw [Bool.not_eq_false] at hdisposed
      exact Bool.false_ne_true (hdispose.symm.trans (hasking.dispose hdisposed))

/-- The same for every connection of the server. -/
theorem Reached.client_step (hrun : Reached setup tasks trace s) (hstep : Step setup s shown s')
    (hc' : s'.conns id = some c') {client : LPushClient} (hclient : c'.record.client = some client)
    (hdispose : c'.dispose = false) :
    (∃ c, s.conns id = some c ∧ c.record.client = some client ∧ c.dispose = false) ∨
      (c'.point.phase = .connecting ∧ ∃ msg utime, client = .create c'.stfd msg ∧
        LPushConn.commands (view id shown) = LPushConn.announcement setup.conf utime msg) := by
  have hpushed : ∀ {address : LPushWorkerMessage → Bytes × Bytes × Bytes} {s₁ : Server},
      Run (· = s) (Delivering address) shown s₁ → s₁.conns id = some c' →
      ∃ c, s.conns id = some c ∧ c.record.client = some client ∧ c.dispose = false := by
    intro address s₁ hdelivered hc'
    obtain ⟨c, hc, hrecord⟩ := delivering_record hdelivered hc'
    rw [hrecord] at hclient
    exact ⟨c, hc, hclient, (congrArg Record.dispose hrecord).symm.trans hdispose⟩
  cases hstep with
  | thread id' thread w _ _ _ hthread =>
      obtain ⟨c, c₁, effects, hc, hstep, rfl⟩ := threadStep_spec hthread
      rw [(performAll_frame id' _ effects).1] at hc'
      rcases update_eq_some.mp hc' with ⟨rfl, rfl⟩ | ⟨-, hc'⟩
      · rw [view_performAll_self]
        exact (hrun.client_turn hc hstep hclient hdispose).imp_left fun h => ⟨c, hc, h⟩
      · exact .inl ⟨c', hc', hclient, hdispose⟩
  | accept stfd beyond fcntl created =>
      rcases acceptClient_spec setup.conf stfd beyond fcntl created s with hsame | ⟨c, hnew, haccepted⟩
      · rw [hsame] at hc'
        exact .inl ⟨c', hc', hclient, hdispose⟩
      · rw [haccepted] at hc'
        rcases update_eq_some.mp hc' with ⟨-, rfl⟩ | ⟨-, hc'⟩
        · rcases hnew with rfl | rfl <;> cases hclient
        · exact .inl ⟨c', hc', hclient, hdispose⟩
  | lrange _ _ hcycle =>
      obtain ⟨⟨s₁, index, shown⟩, hdispatch, rfl⟩ := Option.map_eq_some_iff.mp hcycle
      exact .inl (hpushed (dispatchAll_run hdispatch) hc')
  | page mie result _ _ hpage => exact .inl (hpushed (selectMongoHistoryLimit_run hpage) hc')
  | rpush | ltrim | request | loaded => exact .inl ⟨c', hc', hclient, hdispose⟩

/-- The user id of a client consists of digits. -/
theorem Reached.zero_notMem_userId (hrun : Reached setup tasks trace s) (hc : s.conns id = some c)
    {client : LPushClient} (hclient : c.client = some client) : (0 : UInt8) ∉ client.userId := by
  cases (LPushConn.history_vetted (hrun.history hc)).standing with
  | unknown hnone => cases hclient.symm.trans hnone
  | known msg client' hsome hbare _ hadmits =>
      obtain rfl := Option.some.inj (hclient.symm.trans hsome)
      obtain ⟨env, -, hcheck, -⟩ := hadmits
      have huserId : client.bare.userId = msg.userId := by
        rw [hbare]
        rfl
      change (0 : UInt8) ∉ client.bare.userId
      rw [huserId]
      exact zero_notMem_of_isIntergeStr (LPushHandshakeMessage.isIntergeStr_of_check hcheck)
  | forgotten _ hnone => cases hclient.symm.trans hnone

end records

end Server

namespace Cluster

/-- The connection has its client, and `do_dispose` has not been called. -/
structure Online (k : Cluster) (n id : Nat) (c : LPushConn) (client : LPushClient) : Prop where
  running : (k.nodes n).server.crashed = false
  conn : (k.nodes n).server.conns id = some c
  client_eq : c.client = some client
  undisposed : c.dispose = false

/-- `createConnection` has returned successfully. -/
structure Live (k : Cluster) (n id : Nat) (c : LPushConn) (client : LPushClient) : Prop extends
    Online k n id c client where
  completed : c.point.phase = .running ∨ c.point.phase = .leaving

/-- The key of every user with a live connection names the host of one, and the user is a member of
the set of its application. -/
def Presence (setups : Nat → Setup) (k : Cluster) : Prop :=
  ∀ n id c client, k.Live n id c client →
    (∃ n' id' c' client', k.Live n' id' c' client' ∧ client'.appId = client.appId ∧
      client'.userId = client.userId ∧
        k.redis.textAt (client.appId ++ client.userId) = some (setups n').conf.hostname) ∧
    (k.redis.scoreAt (text "USER_APPKEY_ZSET_" ++ client.appId) client.userId).isSome = true

/-! ### The entries of a connection -/

/-- The entries by which the user of a client is found, as Redis receives them. -/
def entries (conf : LPushConfig) (client : LPushClient) : List (Item Bytes) :=
  [.text (cStr (client.appId ++ client.userId)) (cStr conf.hostname),
    .member (cStr (text "USER_APPKEY_ZSET_" ++ client.appId)) (cStr client.userId)]

/-- The connection has announced itself and Redis has not come to the entry yet. -/
def awaited (k : Cluster) (n id : Nat) (c : LPushConn) (e : Item Bytes) : Bool :=
  c.point.phase == .connecting && (k.waiting n id).any fun command => command.write.item? == some e

/-- What the step in which Redis executes a command of connection `id` must not do. -/
structure Harmless (setups : Nat → Setup) (k : Cluster) (n id : Nat) (command : RedisCommand) : Prop where
  /-- It does not remove an entry of a connection that is online, nor give it another host. -/
  spares : ∀ n' id' c client, k.Online n' id' c client → ∀ e ∈ entries (setups n').conf client,
    k.awaited n' id' c e = false → command.write.Spares e
  /-- The set in which a user is announced is no value of another kind. -/
  takes : ∀ c client, k.Online n id c client → ∀ e ∈ entries (setups n).conf client,
    command.write.item? = some e → k.redis.Takes command.write
  /-- A user is announced under names without NUL. -/
  plain : ∀ c client, k.Online n id c client → ∀ e ∈ entries (setups n).conf client,
    command.write.item? = some e → (0 : UInt8) ∉ client.appId ++ (setups n).conf.hostname

/-- The steps in which Redis executes harmless commands only. -/
def Careful (setups : Nat → Setup) (k : Cluster) (shown : List Observation) (k' : Cluster) : Prop :=
  Step setups k shown k' ∧ ∀ n id command, .executed n id command ∈ shown → Harmless setups k n id command

/-! ### What harmless commands keep -/

/-- The entries of every connection that is online stand, or their commands are still to come. -/
def Kept (setups : Nat → Setup) (k : Cluster) : Prop :=
  ∀ n id c client, k.Online n id c client → ∀ e ∈ entries (setups n).conf client,
    k.awaited n id c e = true ∨
      (k.redis.Holds e ∧ (0 : UInt8) ∉ client.appId ++ (setups n).conf.hostname)

section kept

variable {setups : Nat → Setup} {tasks : Nat → List Bytes} {trace shown : List Observation} {k k' : Cluster}
  {n n' id id' : Nat} {c : LPushConn} {client : LPushClient} {e : Item Bytes}

/-- Only where the connection is, and what it waits for, matters. -/
theorem awaited_congr (h : k'.waiting n id = k.waiting n id) (c : LPushConn) (e : Item Bytes) :
    k'.awaited n id c e = k.awaited n id c e := by
  rw [awaited, awaited, h]

theorem Online.congr (h : k'.Online n id c client) (hconns : (k'.nodes n).server.conns = (k.nodes n).server.conns)
    (hcrashed : (k'.nodes n).server.crashed = (k.nodes n).server.crashed) : k.Online n id c client :=
  ⟨hcrashed.symm.trans h.running, (congrFun hconns id).symm.trans h.conn, h.client_eq, h.undisposed⟩

/-- The two commands of the announcement that make the entries. -/
theorem item_of_announcement {conf : LPushConfig} {msg : LPushHandshakeMessage} (utime : Int) (stfd : Nat)
    (he : e ∈ entries conf (.create stfd msg)) :
    ∃ command ∈ LPushConn.announcement conf utime msg, command.write.item? = some e := by
  rcases List.mem_pair.mp he with rfl | rfl
  · exact ⟨_, List.mem_cons_self, rfl⟩
  · exact ⟨RedisClient.zadd (text "USER_APPKEY_ZSET_" ++ msg.appId) (utime.tdiv 1000) msg.userId,
      by simp [LPushConn.announcement, LPushAPPKey.create], rfl⟩

/-- A process goes on: what was online stands, and what comes online has its commands to come. -/
theorem Kept.process {s : Server} {sshown : List Server.Observation} (h : Kept setups k)
    (hrun : Reached setups tasks trace k) (hidle : (k.nodes n).pending = [])
    (hstep : Server.Step (setups n) (k.nodes n).server sshown s) : Kept setups (k.put n ⟨s, sent sshown⟩) := by
  intro n' id c client honline e he
  by_cases hn : n' = n
  · subst hn
    obtain ⟨hrunning, hconn, hclient, hundisposed⟩ := honline
    rw [put_self] at hrunning hconn
    have hrecord : c.record.client = some client.bare := by rw [LPushConn.record, hclient, Option.map_some]
    rcases (hrun.projects.node n').client_step hstep hconn hrecord hundisposed with
      ⟨c₀, hc₀, hrecord₀, hundisposed₀⟩ | ⟨hphase, msg, utime, hbare, hcommands⟩
    · obtain ⟨client₀, hclient₀, hbare⟩ := Option.map_eq_some_iff.mp hrecord₀
      have hrunning₀ : (k.nodes n').server.crashed = false := by cases hstep <;> assumption
      have hsame : entries (setups n').conf client₀ = entries (setups n').conf client := by
        change entries (setups n').conf client₀.bare = entries (setups n').conf client.bare
        rw [hbare]
      have happId : client₀.bare.appId = client.bare.appId := by rw [hbare]
      rcases h n' id c₀ client₀ ⟨hrunning₀, hc₀, hclient₀, hundisposed₀⟩ e (by rwa [hsame]) with hawaited | hholds
      · -- nothing was waiting
        rw [awaited, waiting, hidle] at hawaited
        simp at hawaited
      · change k.redis.Holds e ∧ (0 : UInt8) ∉ client₀.bare.appId ++ (setups n').conf.hostname at hholds
        rw [happId] at hholds
        exact .inr hholds
    · left
      have he' : e ∈ entries (setups n').conf (.create c.stfd msg) := by
        rw [← hbare]
        exact he
      obtain ⟨command, hmem, hitem⟩ := item_of_announcement utime c.stfd he'
      rw [awaited, hphase, waiting, put_self, filterMap_sent, hcommands, Bool.and_eq_true, List.any_eq_true]
      exact ⟨rfl, command, hmem, by rw [hitem]; exact beq_self_eq_true _⟩
  · have hnode := put_of_ne k (⟨s, sent sshown⟩ : Node) hn
    have hwaiting : (k.put n ⟨s, sent sshown⟩).waiting n' id = k.waiting n' id := by rw [waiting, waiting, hnode]
    rw [awaited_congr hwaiting]
    exact h n' id c client (honline.congr (by rw [hnode]) (by rw [hnode])) e he

/-- A command that waits is the one that is executed, or it goes on waiting. -/
theorem mem_waiting_execute {command command' : RedisCommand} {rest : List (Nat × RedisCommand)}
    (hpending : (k.nodes n).pending = (id, command) :: rest) (hmem : command' ∈ k.waiting n' id') :
    (n' = n ∧ id' = id ∧ command' = command) ∨ command' ∈ (k.execute n command rest).waiting n' id' := by
  unfold waiting at hmem ⊢
  by_cases hn : n' = n
  · subst hn
    rw [execute_self]
    rw [hpending, List.filterMap_cons] at hmem
    by_cases hid : id = id'
    · rw [if_pos hid] at hmem
      exact (List.mem_cons.mp hmem).imp_left fun hcommand => ⟨rfl, hid.symm, hcommand⟩
    · rw [if_neg hid] at hmem
      exact .inr hmem
  · rw [execute_of_ne k _ _ hn]
    exact .inr hmem

/-- Redis executes a harmless command. -/
theorem Kept.execute {command : RedisCommand} {rest : List (Nat × RedisCommand)} (h : Kept setups k)
    (hpending : (k.nodes n).pending = (id, command) :: rest) (hharmless : Harmless setups k n id command) :
    Kept setups (k.execute n command rest) := by
  intro n' id' c client honline e he
  have honline' : k.Online n' id' c client := honline.congr (by rw [execute_server]) (by rw [execute_server])
  by_cases hawaited : k.awaited n' id' c e = true
  · rw [awaited, Bool.and_eq_true, List.any_eq_true] at hawaited
    obtain ⟨hphase, command', hmem, hitem⟩ := hawaited
    rcases mem_waiting_execute hpending hmem with ⟨rfl, rfl, rfl⟩ | hmem'
    · rw [beq_iff_eq] at hitem
      refine .inr ⟨?_, hharmless.plain c client honline' e he hitem⟩
      exact (Keyspace.holds_apply_item hitem).mpr (hharmless.takes c client honline' e he hitem)
    · left
      rw [awaited, Bool.and_eq_true, List.any_eq_true]
      exact ⟨hphase, command', hmem', hitem⟩
  · rw [Bool.not_eq_true] at hawaited
    obtain ⟨hholds, hplain⟩ :=
      (h n' id' c client honline' e he).resolve_left (by rw [hawaited]; exact Bool.false_ne_true)
    refine .inr ⟨?_, hplain⟩
    exact (Keyspace.holds_apply_iff hholds).mpr (hharmless.spares n' id' c client honline' e he hawaited)

/-- A step that leaves alone the connections, Redis and what waits for it. -/
theorem Kept.aside (h : Kept setups k) (hredis : k'.redis = k.redis)
    (hsame : ∀ n, (k'.nodes n).pending = (k.nodes n).pending ∧
      (k'.nodes n).server.conns = (k.nodes n).server.conns ∧
        (k'.nodes n).server.crashed = (k.nodes n).server.crashed) : Kept setups k' := by
  intro n id c client honline e he
  obtain ⟨hpending, hconns, hcrashed⟩ := hsame n
  have hwaiting : k'.waiting n id = k.waiting n id := by
    unfold waiting
    rw [hpending]
  rw [awaited_congr hwaiting, hredis]
  exact h n id c client (honline.congr hconns hcrashed) e he

theorem Kept.step (h : Kept setups k) (hrun : Reached setups tasks trace k) (hstep : Careful setups k shown k') :
    Kept setups k' := by
  obtain ⟨hstep, hharmless⟩ := hstep
  cases hstep with
  | process n hidle hserver => exact h.process hrun hidle hserver
  | rpush n element hrunning =>
      refine h.aside rfl fun n' => ?_
      by_cases hn : n' = n
      · rw [hn, put_self]
        exact ⟨rfl, rfl, rfl⟩
      · rw [put_of_ne k _ hn]
        exact ⟨rfl, rfl, rfl⟩
  | execute n id command rest hpending =>
      exact h.execute hpending (hharmless n id command (List.mem_singleton_self _))

theorem kept_of_run (hrun : Run (Start tasks) (Careful setups) trace k) : Kept setups k := by
  induction hrun with
  | start hinit =>
      intro n id c client honline
      have hconn := honline.conn
      rw [hinit n] at hconn
      cases hconn
  | next hbefore hstep ih => exact ih.step (hbefore.mono fun _ _ _ h => h.1) hstep

/-- The entries of a live connection stand, and no NUL cuts their names off. -/
theorem Kept.stands (h : Kept setups k) (hrun : Reached setups tasks trace k) (hlive : k.Live n id c client) :
    entries (setups n).conf client =
        [.text (client.appId ++ client.userId) (setups n).conf.hostname,
          .member (text "USER_APPKEY_ZSET_" ++ client.appId) client.userId] ∧
      ∀ e ∈ entries (setups n).conf client, k.redis.Holds e := by
  have hstands : ∀ e ∈ entries (setups n).conf client,
      k.redis.Holds e ∧ (0 : UInt8) ∉ client.appId ++ (setups n).conf.hostname := by
    intro e he
    refine (h n id c client hlive.toOnline e he).resolve_left fun hawaited => ?_
    rw [awaited, Bool.and_eq_true, beq_iff_eq] at hawaited
    rcases hlive.completed with hphase | hphase <;> cases hphase.symm.trans hawaited.1
  refine ⟨?_, fun e he => (hstands e he).1⟩
  obtain ⟨happId, hhostname⟩ := not_or.mp (mt List.mem_append.mpr (hstands _ List.mem_cons_self).2)
  have huserId := (hrun.projects.node n).zero_notMem_userId hlive.conn hlive.client_eq
  have hkey : (0 : UInt8) ∉ client.appId ++ client.userId := by
    simp only [List.mem_append, not_or]
    exact ⟨happId, huserId⟩
  have hset : (0 : UInt8) ∉ text "USER_APPKEY_ZSET_" ++ client.appId := by
    simp only [List.mem_append, not_or]
    exact ⟨by decide, happId⟩
  rw [entries, cStr_eq_self hkey, cStr_eq_self hhostname, cStr_eq_self hset, cStr_eq_self huserId]

theorem Kept.live (h : Kept setups k) (hrun : Reached setups tasks trace k) (hlive : k.Live n id c client) :
    k.redis.textAt (client.appId ++ client.userId) = some (setups n).conf.hostname ∧
      (k.redis.scoreAt (text "USER_APPKEY_ZSET_" ++ client.appId) client.userId).isSome = true := by
  obtain ⟨hentries, hholds⟩ := h.stands hrun hlive
  rw [hentries] at hholds
  exact ⟨hholds _ List.mem_cons_self, hholds _ (List.mem_cons_of_mem _ List.mem_cons_self)⟩

/-- **Presence is kept** in every run in which Redis executes harmless commands only. -/
theorem presence_kept (hrun : Run (Start tasks) (Careful setups) trace k) : Presence setups k := by
  intro n id c client hlive
  obtain ⟨hkey, hmember⟩ := (kept_of_run hrun).live (hrun.mono fun _ _ _ h => h.1) hlive
  exact ⟨⟨n, id, c, client, hlive, rfl, rfl, hkey⟩, hmember⟩

/-- A command that does not spare an entry of a live connection ends the presence of its user. -/
theorem Kept.spares_of_presence {command : RedisCommand} {rest : List (Nat × RedisCommand)} (h : Kept setups k)
    (hrun : Reached setups tasks trace k) (hlive : k.Live n' id' c client) (he : e ∈ entries (setups n').conf client)
    (hpresence : Presence setups (k.execute n command rest)) : command.write.Spares e := by
  obtain ⟨hentries, hholds⟩ := h.stands hrun hlive
  rw [← Keyspace.holds_apply_iff (hholds e he)]
  have hlive' : (k.execute n command rest).Live n' id' c client :=
    ⟨hlive.toOnline.congr (by rw [execute_server]) (by rw [execute_server]), hlive.completed⟩
  obtain ⟨⟨n₁, id₁, c₁, client₁, hlive₁, happId, huserId, hkey⟩, hmember⟩ := hpresence n' id' c client hlive'
  rw [hentries] at he
  rcases List.mem_pair.mp he with rfl | rfl
  · -- every live connection of the user has the host that the key named before
    have hbefore : k.Live n₁ id₁ c₁ client₁ :=
      ⟨hlive₁.toOnline.congr (by rw [execute_server]) (by rw [execute_server]), hlive₁.completed⟩
    have hhost₁ := (h.live hrun hbefore).1
    rw [happId, huserId, (h.live hrun hlive).1] at hhost₁
    rw [Keyspace.Holds, hhost₁]
    exact hkey
  · exact hmember

end kept

/-! ### One user on two processes -/

/-- Processes that differ in their ports, for user 7. -/
def deployment (n : Nat) : Setup :=
  { Server.visitorSetup [Server.userSeven] with conf := { bareConfig with port := 9737 + n } }

/-- All processes about to start, and an empty Redis. -/
def fresh : Cluster := ⟨fun _ => ⟨.initial [], []⟩, fun _ => none⟩

theorem start_fresh : Start (fun _ => []) fresh := fun _ => rfl

/-- User 7 connects to process `n`. -/
def arrives (n : Nat) : List Move :=
  (Server.enters 0 7 5 (Server.opening Server.userSeven)).map (.process n) ++
    (List.replicate 4 (.execute n) ++ (Server.activates 0 5 1).map (.process n))

/-- The recv thread of that connection finds it closed. -/
def departs (n : Nat) : List Move := .process n (.thread 0 .recv (Server.calm 1)) :: List.replicate 3 (.execute n)

/-- The live connection of a process. -/
def liveAt (k : Cluster) (n id : Nat) : Option (LPushConn × LPushClient) :=
  match (k.nodes n).server.conns id with
  | none => none
  | some c =>
      match c.client with
      | none => none
      | some client =>
          if !(k.nodes n).server.crashed && !c.dispose &&
              (c.point.phase == .running || c.point.phase == .leaving) then
            some (c, client)
          else none

theorem liveAt_spec {k : Cluster} {n id : Nat} {c : LPushConn} {client : LPushClient}
    (h : k.liveAt n id = some (c, client)) : k.Live n id c client := by
  unfold liveAt at h
  split at h
  · cases h
  · rename_i c₁ hconn
    split at h
    · cases h
    · rename_i client₁ hclient
      split at h
      · rename_i hlive
        cases h
        simp only [Bool.and_eq_true, Bool.not_eq_true', Bool.or_eq_true, beq_iff_eq] at hlive
        obtain ⟨⟨hrunning, hundisposed⟩, hcompleted⟩ := hlive
        exact ⟨⟨hrunning, hconn, hclient, hundisposed⟩, hcompleted⟩
      · cases h

/-- Redis executes what is harmless to the connections of process 0, the only one that moves. -/
def alone (setups : Nat → Setup) (k : Cluster) : Move → Bool
  | .process n _ => n == 0
  | .execute n =>
      n == 0 && (k.nodes 0).pending.head?.any fun p =>
        (List.range (k.nodes 0).server.accepted).all fun id =>
          ((k.nodes 0).server.conns id).all fun c => c.client.all fun client =>
            (entries (setups 0).conf client).all fun e =>
              (k.awaited 0 id c e || decide (p.2.write.Spares e)) &&
                (p.2.write.item? != some e || decide (k.redis.Takes p.2.write ∧
                  (0 : UInt8) ∉ client.appId ++ (setups 0).conf.hostname))

/-- The other processes have not moved. -/
structure Lonely (setups : Nat → Setup) (tasks : Nat → List Bytes) (k : Cluster) : Prop where
  reached : ∃ trace, Reached setups tasks trace k
  others : ∀ n, n ≠ 0 → (k.nodes n).server.conns = fun _ => none

section lonely

variable {setups : Nat → Setup} {tasks : Nat → List Bytes} {k : Cluster}

theorem harmless_of_alone (hlonely : Lonely setups tasks k) {id : Nat} {command : RedisCommand}
    {rest : List (Nat × RedisCommand)} (hpending : (k.nodes 0).pending = (id, command) :: rest)
    (halone : alone setups k (.execute 0) = true) : Harmless setups k 0 id command := by
  obtain ⟨trace, hrun⟩ := hlonely.reached
  have hfresh := (hrun.projects.node 0).projects.fresh
  have hchecked : ∀ n' id' c client, k.Online n' id' c client → ∀ e ∈ entries (setups n').conf client,
      n' = 0 ∧ (k.awaited 0 id' c e = false → command.write.Spares e) ∧
        (command.write.item? = some e → k.redis.Takes command.write ∧
          (0 : UInt8) ∉ client.appId ++ (setups n').conf.hostname) := by
    intro n' id' c client honline e he
    have hn : n' = 0 := by
      by_contra hn
      have hconn := honline.conn
      rw [hlonely.others n' hn] at hconn
      cases hconn
    subst hn
    have hlt : id' < (k.nodes 0).server.accepted := by
      by_contra hge
      exact Option.some_ne_none c (honline.conn.symm.trans (hfresh id' (not_lt.mp hge)))
    simp only [alone, hpending, List.head?_cons, Option.any_some, Bool.and_eq_true, List.all_eq_true,
      List.mem_range] at halone
    have hclient := halone.2 id' hlt
    rw [honline.conn, Option.all_some, honline.client_eq, Option.all_some, List.all_eq_true] at hclient
    have hentry := hclient e he
    simp only [Bool.and_eq_true, Bool.or_eq_true, decide_eq_true_eq, bne_iff_ne] at hentry
    refine ⟨rfl, fun hstands => ?_, fun hitem => ?_⟩
    · exact hentry.1.resolve_left (by rw [hstands]; exact Bool.false_ne_true)
    · exact hentry.2.resolve_left fun hne => hne hitem
  refine ⟨fun n' id' c client honline e he hstands => ?_, fun c client honline e he hitem => ?_,
    fun c client honline e he hitem => ?_⟩
  · obtain ⟨rfl, hspares, -⟩ := hchecked n' id' c client honline e he
    exact hspares hstands
  · exact ((hchecked 0 id c client honline e he).2.2 hitem).1
  · exact ((hchecked 0 id c client honline e he).2.2 hitem).2

theorem careful_of_alone (hlonely : Lonely setups tasks k) {m : Move} {next : Cluster × List Observation}
    (halone : alone setups k m = true) (hstep : Step setups k next.2 next.1) (hmove : k.move setups m = some next) :
    Careful setups k next.2 next.1 ∧ Lonely setups tasks next.1 := by
  obtain ⟨trace, hrun⟩ := id hlonely.reached
  have hnext : ∃ trace, Reached setups tasks trace next.1 := ⟨_, hrun.next hstep⟩
  cases m with
  | process n m =>
      simp only [move] at hmove
      split at hmove
      · cases hmove
        obtain rfl : n = 0 := beq_iff_eq.mp halone
        refine ⟨⟨hstep, fun n id command hmem => ?_⟩, hnext, fun n hn => ?_⟩
        · obtain ⟨o, -, ho⟩ := List.mem_map.mp hmem
          cases ho
        · rw [put_of_ne k _ hn]
          exact hlonely.others n hn
      · cases hmove
  | execute n =>
      simp only [move] at hmove
      split at hmove
      · cases hmove
      · rename_i id command rest hpending
        cases hmove
        obtain rfl : n = 0 := by
          rw [alone, Bool.and_eq_true] at halone
          exact beq_iff_eq.mp halone.1
        refine ⟨⟨hstep, fun n id' command' hmem => ?_⟩, hnext, fun n hn => ?_⟩
        · cases List.mem_singleton.mp hmem
          exact harmless_of_alone hlonely hpending halone
        · rw [execute_server]
          exact hlonely.others n hn

end lonely

/-- User 7 is on process 0 only. -/
theorem presence_kept_alone : ∃ trace k c client, Run (Start fun _ => []) (Careful deployment) trace k ∧
    k.Live 0 0 c client ∧ Presence deployment k := by
  have hplays : (play deployment (alone deployment) fresh (arrives 0)).any
      (fun next => (next.1.liveAt 0 0).isSome) = true := by decide +kernel
  obtain ⟨⟨k, trace⟩, hplay, hlive⟩ := (Option.any_eq_true _ _).mp hplays
  obtain ⟨⟨c, client⟩, hlive⟩ := Option.isSome_iff_exists.mp hlive
  have hstart : Run (Start fun _ => []) (Careful deployment) [] fresh := .start start_fresh
  have hlonely : Lonely deployment (fun _ => []) fresh := ⟨⟨[], .start start_fresh⟩, fun _ _ => rfl⟩
  have hrun := run_of_play (Lonely deployment fun _ => []) (fun _ _ _ hgood => careful_of_alone hgood)
    (.start start_fresh) hstart hlonely hplay
  exact ⟨_, k, c, client, hrun, liveAt_spec hlive, presence_kept hrun⟩

/-- User 7 has moved to process 1 when process 0 notices the end of the first connection. -/
theorem not_presence_moved : ¬ ∀ setups tasks trace k, Reached setups tasks trace k → Presence setups k := by
  intro h
  have hplays : (play deployment (fun _ _ => true) fresh (arrives 0 ++ (arrives 1 ++ departs 0))).any
      (fun next => (next.1.liveAt 1 0).any fun p =>
        (next.1.redis.textAt (p.2.appId ++ p.2.userId)).isNone) = true := by decide +kernel
  obtain ⟨⟨k, trace⟩, hplay, hgone⟩ := (Option.any_eq_true _ _).mp hplays
  obtain ⟨⟨c, client⟩, hlive, hnone⟩ := (Option.any_eq_true _ _).mp hgone
  have hstart : Reached deployment (fun _ => []) [] fresh := .start start_fresh
  have hrun := hstart.play hstart hplay
  obtain ⟨⟨n', id', c', client', -, -, -, hkey⟩, -⟩ :=
    h deployment (fun _ => []) _ k hrun 1 0 c client (liveAt_spec hlive)
  rw [Option.isNone_iff_eq_none] at hnone
  cases hnone.symm.trans hkey

end Cluster

end LinkedonPush
