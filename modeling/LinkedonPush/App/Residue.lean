import LinkedonPush.App.Presence
import LinkedonPush.App.Registry
import LinkedonPush.Theory.Residue

/-!
# What a failed call of `createConnection` leaves behind

The call announces the user in Redis before it looks for another client of the user and before it
writes its reply. If it fails then, the destructor takes the client out of the maps of `LPushSource`,
but only `do_dispose` removes entries from Redis, and only helper threads call that.
-/

namespace LinkedonPush

open Theory

namespace Server

/-- The connection has a client under the key. -/
def HasKey (s : Server) (id : Nat) (key : Bytes) : Prop :=
  ∃ c client, s.conns id = some c ∧ c.client = some client ∧ client.key = key

/-- The connection has a client on the descriptor. -/
def HasDescriptor (s : Server) (id stfd : Nat) : Prop :=
  ∃ c client, s.conns id = some c ∧ c.client = some client ∧ c.stfd = stfd

/-- The connection has no client. -/
def Clientless (s : Server) (id : Nat) : Prop := ∀ c, s.conns id = some c → c.client = none

section maps

variable {s : Server} {id : Nat}

/-- A map that lists the holders of its keys changes with them only. -/
theorem lookup_eq_of_holders {κ : Type} {map map' : κ → Option Nat} {holds holds' : Nat → Prop} {key : κ}
    (hmap : ∀ id, map key = some id ↔ holds id) (hmap' : ∀ id, map' key = some id ↔ holds' id)
    (hself : ¬ holds id) (hself' : ¬ holds' id) (hothers : ∀ id', id' ≠ id → (holds id' ↔ holds' id')) :
    map' key = map key := by
  apply Option.ext
  intro id'
  rw [hmap, hmap']
  by_cases hid : id' = id
  · rw [hid]
    exact iff_of_false hself' hself
  · exact (hothers id' hid).symm

theorem Clientless.not_hasKey (h : s.Clientless id) (key : Bytes) : ¬ s.HasKey id key := by
  intro hkey
  obtain ⟨c, client, hc, hclient, -⟩ := hkey
  cases (h c hc).symm.trans hclient

theorem Clientless.not_hasDescriptor (h : s.Clientless id) (stfd : Nat) : ¬ s.HasDescriptor id stfd := by
  intro hstfd
  obtain ⟨c, client, hc, hclient, -⟩ := hstfd
  cases (h c hc).symm.trans hclient

end maps

end Server

namespace Cluster

/-- `createConnection` is called in the next step of the cycle thread, or waits for its frame. -/
def Calling (k : Cluster) (n id : Nat) : Prop :=
  ∃ c, (k.nodes n).server.conns id = some c ∧
    ((∃ chunk, c.point = .accepting chunk) ∨ ∃ r, c.point = .createConnection r)

/-- The connection is destroyed, and `createConnection` has not returned successfully. -/
def Failed (k : Cluster) (n id : Nat) : Prop :=
  ∃ c, (k.nodes n).server.conns id = some c ∧ c.point = .closed ∧ c.mie = none

/-- A write, marked if connection `id` of process `n` sent it. -/
def write? (n id : Nat) : Observation → Option (Bool × Write Bytes)
  | .process _ _ => none
  | .executed n' id' command => some (n' == n && id' == id, command.write)

def log (n id : Nat) (trace : List Observation) : List (Bool × Write Bytes) := trace.filterMap (write? n id)

/-- Redis and the maps are as they were, apart from what other connections have changed. -/
structure LeavesNoTrace (n id : Nat) (k : Cluster) (more : List Observation) (k' : Cluster) : Prop where
  redis : Untraced (log n id more) k.redis k'.redis
  clients : ∀ key, (∀ id', id' ≠ id → ((k.nodes n).server.HasKey id' key ↔ (k'.nodes n).server.HasKey id' key)) →
    (k'.nodes n).server.clients key = (k.nodes n).server.clients key
  sources : ∀ stfd, (∀ id', id' ≠ id →
      ((k.nodes n).server.HasDescriptor id' stfd ↔ (k'.nodes n).server.HasDescriptor id' stfd)) →
    (k'.nodes n).server.sources stfd = (k.nodes n).server.sources stfd

section residue

variable {setups : Nat → Setup} {tasks : Nat → List Bytes} {trace more : List Observation} {k k' : Cluster}
  {n id : Nat} {w : Write Bytes}

theorem mem_log {own : Bool} : (own, w) ∈ log n id trace ↔
    ∃ n' id' command, .executed n' id' command ∈ trace ∧ (n' == n && id' == id) = own ∧ command.write = w := by
  rw [log, List.mem_filterMap]
  constructor
  · intro h
    obtain ⟨o, ho, hwrite⟩ := h
    cases o with
    | process n' o => cases hwrite
    | executed n' id' command =>
        obtain ⟨rfl, rfl⟩ := Prod.mk.inj (Option.some.inj hwrite)
        exact ⟨n', id', command, ho, rfl, rfl⟩
  · intro h
    obtain ⟨n', id', command, ho, rfl, rfl⟩ := h
    exact ⟨_, ho, rfl⟩

/-- The writes of the connection itself. -/
theorem mem_log_own : (true, w) ∈ log n id trace ↔ ∃ command, .executed n id command ∈ trace ∧ command.write = w := by
  rw [mem_log]
  constructor
  · intro h
    obtain ⟨n', id', command, ho, hown, rfl⟩ := h
    obtain ⟨rfl, rfl⟩ : n' = n ∧ id' = id := by simpa using hown
    exact ⟨command, ho, rfl⟩
  · intro h
    obtain ⟨command, ho, rfl⟩ := h
    exact ⟨n, id, command, ho, by simp, rfl⟩

theorem mem_executed {command : RedisCommand} : command ∈ executed n id trace ↔ .executed n id command ∈ trace := by
  rw [executed, List.mem_filterMap]
  constructor
  · intro h
    obtain ⟨o, ho, hexecuted⟩ := h
    cases o with
    | process n' o => cases hexecuted
    | executed n' id' command' =>
        simp only [Observation.executed?, Option.ite_none_right_eq_some, Option.some.injEq] at hexecuted
        obtain ⟨⟨rfl, rfl⟩, rfl⟩ := hexecuted
        exact ho
  · intro h
    exact ⟨_, h, by simp [Observation.executed?]⟩

theorem log_map (n id n' : Nat) (shown : List Server.Observation) : log n id (shown.map (.process n')) = [] := by
  rw [log, List.filterMap_map, List.filterMap_eq_nil_iff]
  exact fun _ _ => rfl

/-- Redis changes by the writes of the log only. -/
theorem redis_after (n id : Nat) (hmore : Run (· = k) (Step setups) more k') :
    k'.redis = k.redis.after (log n id more) := by
  refine hmore.invariant (fun more k' => k'.redis = k.redis.after (log n id more)) ?_ ?_
  · intro k' hk'
    rw [hk']
    rfl
  · intro more k₁ shown k₂ h hstep
    have hlog : log n id (more ++ shown) = log n id more ++ log n id shown := List.filterMap_append
    rw [hlog]
    cases hstep with
    | process n' hidle hserver =>
        rw [log_map, List.append_nil]
        exact h
    | rpush n' element hrunning =>
        have hquiet : log n id [.process n' (.pushed element)] = [] := rfl
        rw [hquiet, List.append_nil]
        exact h
    | execute n' id' command rest hpending =>
        have hwrite : log n id [.executed n' id' command] = [(n' == n && id' == id, command.write)] := rfl
        rw [hwrite, Keyspace.after_append_singleton, ← h]
        rfl

/-- Before the call has announced its user, the connection has sent nothing and has no client. -/
theorem Calling.silent (hrun : Reached setups tasks trace k) (h : Calling k n id) :
    executed n id trace = [] ∧ (k.nodes n).server.Clientless id := by
  obtain ⟨c, hc, hpoint⟩ := h
  have hopening : c.point.phase = .opening := by
    rcases hpoint with ⟨chunk, hpoint⟩ | ⟨r, hpoint⟩ <;> rw [hpoint] <;> rfl
  have hfiled := (hrun.projects.node n).filed hc
  have hcommands := hfiled.sent.silent_of_opening hfiled.stage hopening
  refine ⟨?_, fun c' hc' => ?_⟩
  · rw [← hrun.projects.commands n id] at hcommands
    exact (List.append_eq_nil_iff.mp hcommands).1
  · obtain rfl := Option.some.inj (hc.symm.trans hc')
    have hstage := hfiled.stage
    have hclient : c.record.client = none := by
      rw [hopening] at hstage
      generalize c.record = r at hstage
      cases hstage
      rfl
    exact Option.map_eq_none_iff.mp hclient

/-- A call that failed has sent the announcement or nothing, and the client is gone. -/
theorem Failed.sent (hrun : Reached setups tasks trace k) (h : Failed k n id) :
    (∃ msg utime, ∀ command ∈ executed n id trace,
        command ∈ LPushConn.announcement (setups n).conf utime msg) ∧ (k.nodes n).server.Clientless id := by
  obtain ⟨c, hc, hclosed, hmie⟩ := h
  have hcommands := hrun.projects.commands n id
  refine ⟨?_, fun c' hc' => ?_⟩
  · cases ((hrun.projects.node n).filed hc).sent with
    | silent _ hnone =>
        rw [hnone] at hcommands
        refine ⟨.empty, 0, fun command hmem => ?_⟩
        rw [(List.append_eq_nil_iff.mp hcommands).1] at hmem
        exact (List.not_mem_nil hmem).elim
    | announced msg utime _ _ hannounced =>
        rw [hannounced] at hcommands
        refine ⟨msg, utime, fun command hmem => ?_⟩
        rw [← hcommands]
        exact List.mem_append_left _ hmem
    | active hsome =>
        rw [hmie] at hsome
        cases hsome
  · obtain rfl := Option.some.inj (hc.symm.trans hc')
    exact (hrun.projects.node n).client_of_closed hc hclosed

/-- An announcement makes one text and gives its members one score. -/
theorem steady_of_announcement (conf : LPushConfig) (msg : LPushHandshakeMessage) (utime : Int)
    {log : List (Bool × Write Bytes)}
    (h : ∀ w, (true, w) ∈ log → ∃ command ∈ LPushConn.announcement conf utime msg, command.write = w) :
    Steady log := by
  have hwrite : ∀ w, (true, w) ∈ log →
      w = .set (cStr (msg.appId ++ msg.userId)) (cStr conf.hostname) ∨ (∃ key, w = .expire key) ∨
        ∃ key member, w = .zadd key (utime.tdiv 1000) member := by
    intro w hmem
    obtain ⟨command, hcommand, rfl⟩ := h w hmem
    simp only [LPushConn.announcement, List.mem_cons, List.not_mem_nil, or_false] at hcommand
    rcases hcommand with rfl | rfl | rfl | rfl
    · exact .inl rfl
    · exact .inr (.inl ⟨_, rfl⟩)
    · exact .inr (.inr ⟨_, _, rfl⟩)
    · exact .inr (.inr ⟨_, _, rfl⟩)
  refine ⟨fun w hmem => ?_, fun key value value' hmem hmem' => ?_, fun key member score score' hmem hmem' => ?_⟩
  · rcases hwrite w hmem with rfl | hexpire | ⟨key, member, rfl⟩
    · exact .inl ⟨_, _, rfl⟩
    · exact .inr (.inl hexpire)
    · exact .inr (.inr ⟨_, _, _, rfl⟩)
  · rcases hwrite _ hmem with heq | ⟨_, heq⟩ | ⟨_, _, heq⟩
    · rcases hwrite _ hmem' with heq' | ⟨_, heq'⟩ | ⟨_, _, heq'⟩
      · exact (Write.set.inj heq).2.trans (Write.set.inj heq').2.symm
      · cases heq'
      · cases heq'
    · cases heq
    · cases heq
  · rcases hwrite _ hmem with heq | ⟨_, heq⟩ | ⟨_, _, heq⟩
    · cases heq
    · cases heq
    · rcases hwrite _ hmem' with heq' | ⟨_, heq'⟩ | ⟨_, _, heq'⟩
      · cases heq'
      · cases heq'
      · exact (Write.zadd.inj heq).2.1.trans (Write.zadd.inj heq').2.1.symm

/-- **A failed call leaves no trace** exactly if what it announced stood in Redis before. -/
theorem leaves_no_trace_iff (hrun : Reached setups tasks trace k) (hcalling : Calling k n id)
    (hmore : Run (· = k) (Step setups) more k') (hfailed : Failed k' n id) :
    LeavesNoTrace n id k more k' ↔
      ∀ command, .executed n id command ∈ more → Redundant (log n id more) k.redis command.write := by
  have hrun' : Reached setups tasks (trace ++ more) k' := hrun.append hmore
  obtain ⟨hsilent, hnone⟩ := hcalling.silent hrun
  obtain ⟨⟨msg, utime, hannounced⟩, hnone'⟩ := hfailed.sent hrun'
  have hsteady : Steady (log n id more) := by
    refine steady_of_announcement (setups n).conf msg utime fun w hmem => ?_
    obtain ⟨command, hcommand, rfl⟩ := mem_log_own.mp hmem
    refine ⟨command, hannounced command ?_, rfl⟩
    rw [executed_append, hsilent, List.nil_append]
    exact mem_executed.mpr hcommand
  have hredundant : (∀ w, (true, w) ∈ log n id more → Redundant (log n id more) k.redis w) ↔
      ∀ command, .executed n id command ∈ more → Redundant (log n id more) k.redis command.write := by
    constructor
    · intro h command hmem
      exact h _ (mem_log_own.mpr ⟨command, hmem, rfl⟩)
    · intro h w hmem
      obtain ⟨command, hcommand, rfl⟩ := mem_log_own.mp hmem
      exact h command hcommand
  rw [← hredundant, ← hsteady.untraced_iff, ← redis_after n id hmore]
  constructor
  · exact LeavesNoTrace.redis
  · intro hredis
    -- the maps list the living clients, and this connection has none before and after
    have hnode := hrun.projects.node n
    have hnode' := hrun'.projects.node n
    refine ⟨hredis, fun key hothers => ?_, fun stfd hothers => ?_⟩
    · exact Server.lookup_eq_of_holders (hnode.clients_iff key) (hnode'.clients_iff key) (hnone.not_hasKey key)
        (hnone'.not_hasKey key) hothers
    · exact Server.lookup_eq_of_holders (hnode.sources_iff stfd) (hnode'.sources_iff stfd)
        (hnone.not_hasDescriptor stfd) (hnone'.not_hasDescriptor stfd) hothers

end residue

/-! ### A refusal and a failed write -/

/-- Connection `id` of process 0 comes in for user 7 and has its handshake accepted. -/
def presents (id stfd : Nat) : List Move :=
  ((Server.enters id stfd 6 (Server.opening Server.userSeven)).take 3).map (.process 0)

/-- The call announces the user and writes its reply, with the given outcome. -/
def announces (id : Nat) (writeError : Option WriteError) : List Move :=
  .process 0 (.thread id .cycle (Server.calm 6)) ::
    (List.replicate 4 (.execute 0) ++
      [.process 0 (.thread id .cycle { Server.calm 6 with writeError := writeError })])

def calling (k : Cluster) (n id : Nat) : Bool :=
  ((k.nodes n).server.conns id).any fun c => c.point matches .accepting _

def failed (k : Cluster) (n id : Nat) : Bool :=
  ((k.nodes n).server.conns id).any fun c => c.point.phase == .closed && c.mie.isNone

theorem calling_spec {k : Cluster} {n id : Nat} (h : k.calling n id = true) : k.Calling n id := by
  obtain ⟨c, hc, hpoint⟩ := (Option.any_eq_true _ _).mp h
  refine ⟨c, hc, .inl ?_⟩
  cases hp : c.point with
  | accepting chunk => exact ⟨chunk, rfl⟩
  | _ => simp [hp] at hpoint

theorem failed_spec {k : Cluster} {n id : Nat} (h : k.failed n id = true) : k.Failed n id := by
  obtain ⟨c, hc, hclosed⟩ := (Option.any_eq_true _ _).mp h
  rw [Bool.and_eq_true, beq_iff_eq, Option.isNone_iff_eq_none] at hclosed
  exact ⟨c, hc, CyclePoint.eq_closed hclosed.1, hclosed.2⟩

/-- The item of the write stands already. -/
def stood (r : Keyspace Bytes) : Write Bytes → Bool
  | .set key value => r.textAt key == some value
  | .zadd key score member => r.scoreAt key member == some score
  | _ => true

theorem redundant_of_stood {log : List (Bool × Write Bytes)} {r : Keyspace Bytes} {w : Write Bytes}
    (h : stood r w = true) : Redundant log r w := by
  cases w with
  | set key value => exact .inr (beq_iff_eq.mp h)
  | zadd key score member => exact .inr (.inl (beq_iff_eq.mp h))
  | expire | del | zrem | lpush => trivial

/-- User 7 is connected already and is refused, at the same host and in the same millisecond. -/
theorem leaves_no_trace_refused : ∃ trace k more k', Reached deployment (fun _ => []) trace k ∧ k.Calling 0 1 ∧
    Run (· = k) (Step deployment) more k' ∧ k'.Failed 0 1 ∧ more ≠ [] ∧ LeavesNoTrace 0 1 k more k' := by
  have hplays : (play deployment (fun _ _ => true) fresh (arrives 0 ++ presents 1 8)).any (fun before =>
      before.1.calling 0 1 && (play deployment (fun _ _ => true) before.1 (announces 1 none)).any fun next =>
        next.1.failed 0 1 && (!next.2.isEmpty && next.2.all fun
          | .executed _ _ command => stood before.1.redis command.write
          | .process _ _ => true)) = true := by decide +kernel
  obtain ⟨⟨k, trace⟩, hplay, hk⟩ := (Option.any_eq_true _ _).mp hplays
  obtain ⟨hcalling, hmore⟩ := Bool.and_eq_true_iff.mp hk
  obtain ⟨⟨k', more⟩, hplay', hk'⟩ := (Option.any_eq_true _ _).mp hmore
  obtain ⟨hfailed, hlong⟩ := Bool.and_eq_true_iff.mp hk'
  obtain ⟨hnonempty, hstood⟩ := Bool.and_eq_true_iff.mp hlong
  have hstart : Reached deployment (fun _ => []) [] fresh := .start start_fresh
  have hrun : Reached deployment (fun _ => []) trace k := hstart.play hstart hplay
  have hsame : Run (· = k) (Step deployment) [] k := .start rfl
  have hrun' : Run (· = k) (Step deployment) more k' := hrun.play hsame hplay'
  refine ⟨trace, k, more, k', hrun, calling_spec hcalling, hrun', failed_spec hfailed, ?_, ?_⟩
  · intro hnil
    rw [hnil] at hnonempty
    cases hnonempty
  · apply (leaves_no_trace_iff hrun (calling_spec hcalling) hrun' (failed_spec hfailed)).mpr
    intro command hmem
    exact redundant_of_stood (List.all_eq_true.mp hstood _ hmem)

/-- The reply to user 7 cannot be written: the connection goes away and its key stays. -/
theorem not_leaves_no_trace_unwritten : ¬ ∀ setups tasks trace k more k' n id, Reached setups tasks trace k →
    k.Calling n id → Run (· = k) (Step setups) more k' → k'.Failed n id → LeavesNoTrace n id k more k' := by
  intro h
  have hplays : (play deployment (fun _ _ => true) fresh (presents 0 7)).any (fun before =>
      before.1.calling 0 0 && (play deployment (fun _ _ => true) before.1 (announces 0 (some .write))).any fun next =>
        next.1.failed 0 0 && (next.1.redis.textAt (text "app7") != before.1.redis.textAt (text "app7") &&
          (log 0 0 next.2).all fun p => p.1)) = true := by decide +kernel
  obtain ⟨⟨k, trace⟩, hplay, hk⟩ := (Option.any_eq_true _ _).mp hplays
  obtain ⟨hcalling, hmore⟩ := Bool.and_eq_true_iff.mp hk
  obtain ⟨⟨k', more⟩, hplay', hk'⟩ := (Option.any_eq_true _ _).mp hmore
  obtain ⟨hfailed, hchanged⟩ := Bool.and_eq_true_iff.mp hk'
  obtain ⟨htext, hown⟩ := Bool.and_eq_true_iff.mp hchanged
  have hstart : Reached deployment (fun _ => []) [] fresh := .start start_fresh
  have hrun : Reached deployment (fun _ => []) trace k := hstart.play hstart hplay
  have hsame : Run (· = k) (Step deployment) [] k := .start rfl
  have htraceless := h deployment _ trace k more k' 0 0 hrun (calling_spec hcalling) (hrun.play hsame hplay')
    (failed_spec hfailed)
  -- nobody else has written anything
  have huntouched : ¬ TextTouched (log 0 0 more) (text "app7") := by
    intro htouched
    obtain ⟨w, hmem, -⟩ := htouched
    cases List.all_eq_true.mp hown _ hmem
  exact (bne_iff_ne.mp htext) (htraceless.redis.text _ huntouched)

end Cluster

end LinkedonPush
