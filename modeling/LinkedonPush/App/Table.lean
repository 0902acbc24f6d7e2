import LinkedonPush.App.Shutdown

/-!
# The table of connections

`accept_client` puts a connection into `conns` before it creates the thread that takes it out again.
The calls are recorded with what the operating system answered and with what they left behind.
-/

namespace LinkedonPush

open Theory

namespace Server

/-! ### `accept_client` and its exits -/

/-- `conns.push_back(conn)`. -/
def pushBack (conn : LPushConn) (s : Server) : Server × List Observation :=
  ({ s with
      conns := Function.update s.conns s.accepted (some conn)
      accepted := s.accepted + 1
      table := s.table ++ [s.accepted] },
    [.accepted s.accepted])

/-- `accept_client`, and whether it has closed the descriptor. -/
def acceptCall (conf : LPushConfig) (stfd : Nat) (beyond : Bytes) (getfd setfd created : Bool) (s : Server) :
    (Server × List Observation) × Bool :=
  if conf.maxconnect ≤ s.table.length then ((s, []), true)
  else if !getfd then ((s, []), true)
  else if !setfd then ((s, []), true)
  else
    let conn := LPushConn.create stfd beyond
    -- `start` returns the error, and nothing is undone
    if !created then (s.pushBack { conn with point := .unstarted }, false)
    else (s.pushBack conn, false)

theorem acceptCall_fst (conf : LPushConfig) (stfd : Nat) (beyond : Bytes) (getfd setfd created : Bool)
    (s : Server) :
    (acceptCall conf stfd beyond getfd setfd created s).1 =
      acceptClient conf stfd beyond (getfd && setfd) created s := by
  unfold acceptCall acceptClient
  cases getfd <;> cases setfd <;> cases created <;> split <;> rfl

/-! ### Recorded calls -/

/-- A call of `accept_client`: the vector it found, what the system answered, and what it left. -/
structure Call where
  /-- The number a connection gets that this call creates. -/
  id : Nat
  before : List Nat
  getfd : Bool
  setfd : Bool
  created : Bool
  after : List Nat
  closed : Bool

namespace Call

/-- The call comes to the constructor of the connection. -/
def passes (conf : LPushConfig) (call : Call) : Bool :=
  decide (call.before.length < conf.maxconnect) && call.getfd && call.setfd

/-- It ends with a running connection. -/
def runs (conf : LPushConfig) (call : Call) : Bool := call.passes conf && call.created

/-- Where it is reached, `st_thread_create` succeeds. -/
def Starts (conf : LPushConfig) (call : Call) : Prop := call.passes conf = true → call.created = true

/-- Without a running connection the vector is as before and the descriptor closed. -/
def Clean (conf : LPushConfig) (call : Call) : Prop :=
  call.runs conf = false → call.after = call.before ∧ call.closed = true

end Call

def callOf (conf : LPushConfig) (stfd : Nat) (beyond : Bytes) (getfd setfd created : Bool) (s : Server) : Call where
  id := s.accepted
  before := s.table
  getfd := getfd
  setfd := setfd
  created := created
  after := (acceptCall conf stfd beyond getfd setfd created s).1.1.table
  closed := (acceptCall conf stfd beyond getfd setfd created s).2

def Move.accepts : Move → Bool
  | .accept _ _ _ _ => true
  | _ => false

/-- The steps of a server, showing its calls of `accept_client`. -/
inductive Admitting (setup : Setup) : Server → List Call → Server → Prop where
  | accept {s : Server} (stfd : Nat) (beyond : Bytes) (getfd setfd created : Bool)
      (hrunning : s.crashed = false) (hfree : s.processor = .free) (hfd : s.inUse stfd = false) :
      Admitting setup s [callOf setup.conf stfd beyond getfd setfd created s]
        (acceptCall setup.conf stfd beyond getfd setfd created s).1.1
  | move {s s' : Server} {shown : List Observation} (m : Move) (hother : m.accepts = false)
      (hmove : s.move setup m = some (s', shown)) : Admitting setup s [] s'

/-- The runs of a server from its start, showing its calls of `accept_client`. -/
abbrev Served (setup : Setup) (tasks : List Bytes) : List Call → Server → Prop :=
  Run (· = initial tasks) (Admitting setup)

/-- The connections whose thread was created and has not called `remove`. -/
def Live (conf : LPushConfig) (calls : List Call) (s : Server) (id : Nat) : Prop :=
  (∃ call ∈ calls, call.id = id ∧ call.runs conf = true) ∧ s.Present id

/-- What the vector is to hold. -/
structure TableExact (conf : LPushConfig) (calls : List Call) (s : Server) : Prop where
  nodup : s.table.Nodup
  mem_iff : ∀ id, id ∈ s.table ↔ Live conf calls s id

section served

variable {setup : Setup} {tasks : List Bytes} {calls : List Call} {call : Call} {s s' : Server} {id : Nat}
  {shown : List Observation} {conf : LPushConfig}

theorem Admitting.step {more : List Call} (hfresh : ∀ id, s.accepted ≤ id → s.conns id = none)
    (h : Admitting setup s more s') : ∃ shown, Step setup s shown s' := by
  rw [exists_congr fun shown => step_iff_move hfresh]
  cases h with
  | accept stfd beyond getfd setfd created hrunning hfree hfd =>
      refine ⟨(acceptCall setup.conf stfd beyond getfd setfd created s).1.2,
        .accept stfd beyond (getfd && setfd) created, ?_⟩
      rw [Server.move, if_pos ⟨hrunning, hfree, hfd⟩, acceptCall_fst]
  | move m hother hmove => exact ⟨_, m, hmove⟩

theorem Served.reached (hrun : Served setup tasks calls s) : ∃ trace, Reached setup tasks trace s := by
  induction hrun with
  | start hinit => exact ⟨[], .start hinit⟩
  | next hbefore hstep ih =>
      obtain ⟨trace, hreached⟩ := ih
      obtain ⟨shown, hserved⟩ := hstep.step hreached.projects.fresh
      exact ⟨trace ++ shown, .next hreached hserved⟩

/-! ### One call -/

theorem passes_callOf {stfd : Nat} {beyond : Bytes} {getfd setfd created : Bool} :
    (callOf conf stfd beyond getfd setfd created s).passes conf =
      (decide (s.table.length < conf.maxconnect) && getfd && setfd) := by
  rfl

/-- A call puts its connection into the vector, or closes the descriptor and does nothing. -/
theorem acceptCall_spec (stfd : Nat) (beyond : Bytes) (getfd setfd created : Bool) :
    acceptCall conf stfd beyond getfd setfd created s =
      if (callOf conf stfd beyond getfd setfd created s).passes conf then
        (s.pushBack { LPushConn.create stfd beyond with point := if created then .created else .unstarted }, false)
      else ((s, []), true) := by
  rw [passes_callOf, acceptCall]
  by_cases hfull : conf.maxconnect ≤ s.table.length
  · have hnot : ¬ (s.table.length : Int) < conf.maxconnect := by omega
    simp [hfull, hnot]
  · have hroom : (s.table.length : Int) < conf.maxconnect := by omega
    cases getfd <;> cases setfd <;> cases created <;> simp [hfull, hroom]
    all_goals rfl

/-- What a call leaves, by the record alone. -/
def Call.Kept (conf : LPushConfig) (call : Call) : Prop :=
  call.after = (if call.passes conf then call.before ++ [call.id] else call.before) ∧
    call.closed = !call.passes conf

theorem kept_callOf (stfd : Nat) (beyond : Bytes) (getfd setfd created : Bool) :
    (callOf conf stfd beyond getfd setfd created s).Kept conf := by
  have hspec : acceptCall conf stfd beyond getfd setfd created s = _ :=
    acceptCall_spec stfd beyond getfd setfd created
  unfold Call.Kept
  split
  · rename_i hpasses
    rw [if_pos hpasses] at hspec
    refine ⟨?_, ?_⟩
    · show (acceptCall conf stfd beyond getfd setfd created s).1.1.table = _
      rw [hspec]
      rfl
    · show (acceptCall conf stfd beyond getfd setfd created s).2 = _
      rw [hspec, hpasses]
      rfl
  · rename_i hpasses
    rw [if_neg hpasses] at hspec
    refine ⟨?_, ?_⟩
    · show (acceptCall conf stfd beyond getfd setfd created s).1.1.table = _
      rw [hspec]
      rfl
    · show (acceptCall conf stfd beyond getfd setfd created s).2 = _
      rw [hspec, Bool.not_eq_true _ |>.mp hpasses]
      rfl

theorem Call.Kept.clean_iff (h : call.Kept conf) : call.Clean conf ↔ call.Starts conf := by
  obtain ⟨hafter, hclosed⟩ := h
  unfold Call.Clean Call.Starts Call.runs
  cases hpasses : call.passes conf with
  | false =>
      rw [hpasses] at hafter hclosed
      exact iff_of_true (fun _ => ⟨hafter, hclosed⟩) (fun h => (Bool.false_ne_true h).elim)
  | true =>
      rw [hpasses] at hclosed
      cases call.created with
      | true => simp
      | false => simp [hclosed]

/-! ### A connection without a thread -/

end served

end Server

/-- A connection whose `st_thread_create` failed: nothing of it can move. -/
structure LPushConn.Threadless (c : LPushConn) : Prop where
  point : c.point = .unstarted
  client : c.client = none
  trd : c.trd = none
  trd2 : c.trd2 = none

theorem LPushConn.Threadless.step {c : LPushConn} {env : Env} {w : World} {thread : LPushConn.ThreadName}
    (h : c.Threadless) : c.step env w thread = none := by
  unfold LPushConn.step
  split
  · rfl
  · cases thread with
    | cycle => rw [LPushConn.cycle, h.point]
    | recv => rw [LPushConn.recv, h.trd]
    | consum => rw [LPushConn.consum, h.trd2]

theorem LPushConn.Threadless.push {c : LPushConn} {msg : LPushWorkerMessage} (h : c.Threadless) :
    c.push msg = none := by
  rw [LPushConn.push, h.client, Option.map_none]

namespace Server

section aside

variable {setup : Setup} {s s' : Server} {shown : List Observation}

/-- What every step but `accept_client` leaves of the table. -/
structure Aside (s s' : Server) : Prop where
  accepted : s'.accepted = s.accepted
  table : s'.table.length ≤ s.table.length
  idle : ∀ id c, s.conns id = some c → c.Threadless → s'.conns id = some c

theorem aside_of_eq (haccepted : s'.accepted = s.accepted) (htable : s'.table = s.table)
    (hconns : s'.conns = s.conns) : Aside s s' := by
  refine ⟨haccepted, by rw [htable], fun id c hc _ => ?_⟩
  rwa [hconns]

theorem aside_update {c c' : LPushConn} {id : Nat} (hc : s.conns id = some c) (hbusy : ¬ c.Threadless)
    (haccepted : s'.accepted = s.accepted) (htable : s'.table.length ≤ s.table.length)
    (hconns : s'.conns = Function.update s.conns id (some c')) : Aside s s' := by
  refine ⟨haccepted, htable, fun id' idle hidle h => ?_⟩
  have hne : id' ≠ id := by
    intro heq
    rw [heq, hc] at hidle
    exact hbusy (Option.some.inj hidle ▸ h)
  rw [hconns, Function.update_of_ne hne, hidle]

theorem length_iterate_erase (table : List Nat) (id n : Nat) :
    ((fun table : List Nat => table.erase id)^[n] table).length ≤ table.length := by
  induction n generalizing table with
  | zero => exact le_rfl
  | succ n ih =>
      rw [Function.iterate_succ_apply]
      exact (ih _).trans List.length_erase_le

theorem aside_thread {id : Nat} {thread : LPushConn.ThreadName} {w : World} {next : Server × List Observation}
    (h : threadStep setup id thread w s = some next) : Aside s next.1 := by
  obtain ⟨c, c', effects, hc, hstep, rfl⟩ := threadStep_spec h
  have hbusy : ¬ c.Threadless := by
    intro hidle
    rw [hidle.step] at hstep
    cases hstep
  obtain ⟨hconns, haccepted, -⟩ := performAll_frame id
    { s with conns := Function.update s.conns id (some c'), crashed := c'.crashed } effects
  refine aside_update hc hbusy haccepted ?_ hconns
  rw [table_performAll]
  exact length_iterate_erase s.table id _

theorem aside_delivering {address : LPushWorkerMessage → Bytes × Bytes × Bytes}
    (hrun : Run (· = s) (Delivering address) shown s') : Aside s s' := by
  have hframe := delivering_frame hrun
  refine ⟨by rw [hframe], by rw [hframe], ?_⟩
  refine hrun.invariant_state (fun s' => ∀ id c, s.conns id = some c → c.Threadless → s'.conns id = some c) ?_ ?_
  · intro s' hstart id c hc _
    rwa [hstart]
  · intro s₁ more s₂ ih hstep id c hc hidle
    have hc₁ := ih id c hc hidle
    cases hstep with
    | queued id' msg hinstance hpush =>
        obtain ⟨c₁, c₂, hpushed, hqueued, rfl⟩ := push_spec hpush
        have hne : id ≠ id' := by
          intro heq
          rw [← heq, hc₁] at hpushed
          rw [← Option.some.inj hpushed, hidle.push] at hqueued
          cases hqueued
        exact (Function.update_of_ne hne _ _).trans hc₁
    | _ => exact hc₁

theorem aside_move {m : Move} (hother : m.accepts = false)
    (hmove : s.move setup m = some (s', shown)) : Aside s s' := by
  cases m with
  | accept stfd beyond fcntl created => cases hother
  | thread id thread w =>
      rw [move] at hmove
      split at hmove
      · exact aside_thread hmove
      · cases hmove
  | lrange =>
      rw [move] at hmove
      split at hmove
      · obtain ⟨⟨s'', index, more⟩, hdispatch, hnext⟩ := Option.map_eq_some_iff.mp hmove
        have haside := aside_delivering (dispatchAll_run hdispatch)
        cases hnext
        exact ⟨haside.accepted, haside.table, haside.idle⟩
      · cases hmove
  | page result =>
      simp only [move] at hmove
      split at hmove
      · exact aside_delivering (selectMongoHistoryLimit_run hmove)
      · cases hmove
  | rpush element =>
      rw [move] at hmove
      split at hmove
      · cases hmove
        exact aside_of_eq rfl rfl rfl
      · cases hmove
  | ltrim | request | loaded =>
      simp only [move] at hmove
      split at hmove
      · cases hmove
        exact aside_of_eq rfl rfl rfl
      · cases hmove

end aside

/-! ### What the records say about the server -/

/-- The calls of a run agree with its server. -/
structure Rostered (conf : LPushConfig) (calls : List Call) (s : Server) : Prop where
  kept : ∀ call ∈ calls, call.Kept conf
  numbered : (calls.filter (Call.passes conf)).map Call.id = List.range s.accepted
  bounded : (s.table.length : Int) ≤ max conf.maxconnect 0
  threadless : ∀ call ∈ calls, call.passes conf = true → call.created = false →
    ∃ c, s.conns call.id = some c ∧ c.Threadless

section rostered

variable {setup : Setup} {tasks : List Bytes} {calls : List Call} {call : Call} {s s' : Server} {id : Nat}
  {conf : LPushConfig}

theorem Rostered.aside (h : Rostered conf calls s) (haside : Aside s s') : Rostered conf calls s' := by
  refine ⟨h.kept, by rw [haside.accepted]; exact h.numbered, (Int.ofNat_le.mpr haside.table).trans h.bounded, ?_⟩
  intro call hcall hpasses hcreated
  obtain ⟨c, hc, hthreadless⟩ := h.threadless call hcall hpasses hcreated
  exact ⟨c, haside.idle _ _ hc hthreadless, hthreadless⟩

/-- The number of a call that passed belongs to no later connection. -/
theorem Rostered.id_lt (h : Rostered conf calls s) (hcall : call ∈ calls) (hpasses : call.passes conf = true) :
    call.id < s.accepted := by
  rw [← List.mem_range, ← h.numbered]
  exact List.mem_map_of_mem (List.mem_filter.mpr ⟨hcall, hpasses⟩)

theorem Rostered.accept (h : Rostered conf calls s) (stfd : Nat) (beyond : Bytes) (getfd setfd created : Bool) :
    Rostered conf (calls ++ [callOf conf stfd beyond getfd setfd created s])
      (acceptCall conf stfd beyond getfd setfd created s).1.1 := by
  have hkept : ∀ call ∈ calls ++ [callOf conf stfd beyond getfd setfd created s], call.Kept conf := by
    intro call hcall
    rw [List.mem_append, List.mem_singleton] at hcall
    obtain hcall | rfl := hcall
    · exact h.kept call hcall
    · exact kept_callOf stfd beyond getfd setfd created
  rw [acceptCall_spec]
  by_cases hpasses : (callOf conf stfd beyond getfd setfd created s).passes conf = true
  · have hroom : (s.table.length : Int) < conf.maxconnect := by
      rw [passes_callOf] at hpasses
      simp only [Bool.and_eq_true, decide_eq_true_eq] at hpasses
      exact hpasses.1.1
    rw [if_pos hpasses]
    refine ⟨hkept, ?_, ?_, fun call hcall hpassed hcreated => ?_⟩
    · rw [List.filter_append, List.map_append, h.numbered, List.filter_cons_of_pos hpasses]
      show List.range s.accepted ++ [s.accepted] = List.range (s.accepted + 1)
      exact List.range_succ.symm
    · show ((s.table ++ [s.accepted]).length : Int) ≤ max conf.maxconnect 0
      rw [List.length_append, List.length_singleton]
      omega
    · rw [List.mem_append, List.mem_singleton] at hcall
      obtain hcall | rfl := hcall
      · obtain ⟨c, hc, hthreadless⟩ := h.threadless call hcall hpassed hcreated
        have hne : call.id ≠ s.accepted := (h.id_lt hcall hpassed).ne
        exact ⟨c, (Function.update_of_ne hne _ _).trans hc, hthreadless⟩
      · have hcreated : created = false := hcreated
        refine ⟨_, Function.update_self _ _ _, ?_⟩
        rw [hcreated]
        exact ⟨rfl, rfl, rfl, rfl⟩
  · rw [if_neg hpasses]
    refine ⟨hkept, ?_, h.bounded, fun call hcall hpassed hcreated => ?_⟩
    · rw [List.filter_append, List.map_append, h.numbered, List.filter_cons_of_neg hpasses]
      exact List.append_nil _
    · rw [List.mem_append, List.mem_singleton] at hcall
      obtain hcall | rfl := hcall
      · exact h.threadless call hcall hpassed hcreated
      · exact absurd hpassed hpasses

theorem Served.rostered (hrun : Served setup tasks calls s) : Rostered setup.conf calls s := by
  refine hrun.invariant (Rostered setup.conf) ?_ ?_
  · intro s hstart
    rw [hstart]
    refine ⟨fun _ hcall => (List.not_mem_nil hcall).elim, rfl, le_max_right _ _, fun _ hcall => ?_⟩
    exact (List.not_mem_nil hcall).elim
  · intro calls s more s' h hstep
    cases hstep with
    | accept stfd beyond getfd setfd created hrunning hfree hfd => exact h.accept stfd beyond getfd setfd created
    | move m hother hmove =>
        rw [List.append_nil]
        exact h.aside (aside_move hother hmove)

/-- A number was given to one call that passed. -/
theorem Rostered.unique {other : Call} (h : Rostered conf calls s) (hcall : call ∈ calls) (hother : other ∈ calls)
    (hpasses : call.passes conf = true) (hpasses' : other.passes conf = true) (hid : call.id = other.id) :
    call = other := by
  have hnodup : ((calls.filter (Call.passes conf)).map Call.id).Nodup := by
    rw [h.numbered]
    exact List.nodup_range
  exact List.inj_on_of_nodup_map hnodup (List.mem_filter.mpr ⟨hcall, hpasses⟩)
    (List.mem_filter.mpr ⟨hother, hpasses'⟩) hid

/-- An entry without a thread stays in the vector for good. -/
theorem Rostered.starts (h : Rostered conf calls s) (htabled : s.Tabled) (hexact : TableExact conf calls s)
    (hcall : call ∈ calls) : call.Starts conf := by
  intro hpasses
  by_contra hcreated
  have hcreated : call.created = false := Bool.eq_false_iff.mpr hcreated
  obtain ⟨c, hc, hthreadless⟩ := h.threadless call hcall hpasses hcreated
  have hpresent : s.Present call.id := ⟨c, hc, by rw [hthreadless.point]; rfl⟩
  have hmem : call.id ∈ s.table := (htabled.mem_iff _).mpr hpresent
  obtain ⟨⟨other, hother, hid, hruns⟩, -⟩ := (hexact.mem_iff _).mp hmem
  obtain ⟨hpasses', hcreated'⟩ := Bool.and_eq_true_iff.mp hruns
  rw [h.unique hcall hother hpasses hpasses' hid.symm] at hcreated
  exact Bool.false_ne_true (hcreated.symm.trans hcreated')

theorem Rostered.exact (h : Rostered conf calls s) (htabled : s.Tabled)
    (hfresh : ∀ id, s.accepted ≤ id → s.conns id = none) (hstarts : ∀ call ∈ calls, call.Starts conf) :
    TableExact conf calls s := by
  refine ⟨htabled.nodup, fun id => ?_⟩
  rw [htabled.mem_iff, Live, iff_and_self]
  intro hpresent
  have hlt : id < s.accepted := by
    by_contra hge
    obtain ⟨c, hc, -⟩ := hpresent
    exact Option.some_ne_none c (hc.symm.trans (hfresh id (not_lt.mp hge)))
  rw [← List.mem_range, ← h.numbered] at hlt
  obtain ⟨call, hcall, hid⟩ := List.mem_map.mp hlt
  obtain ⟨hcall, hpasses⟩ := List.mem_filter.mp hcall
  exact ⟨call, hcall, hid, Bool.and_eq_true_iff.mpr ⟨hpasses, hstarts call hcall hpasses⟩⟩

/-- **The vector never grows beyond `maxconnect`**, unless that is negative. **It holds exactly the connections
that run, and every call without a running connection cleans up, if and only if every `st_thread_create` that
is reached succeeds.** -/
theorem table_exact_iff_starts (hrun : Served setup tasks calls s) :
    ((s.table.length : Int) ≤ setup.conf.maxconnect ↔ 0 ≤ setup.conf.maxconnect) ∧
      (TableExact setup.conf calls s ↔ ∀ call ∈ calls, call.Starts setup.conf) ∧
      ((∀ call ∈ calls, call.Clean setup.conf) ↔ ∀ call ∈ calls, call.Starts setup.conf) := by
  have hrostered := hrun.rostered
  obtain ⟨trace, hreached⟩ := hrun.reached
  have hbounded := hrostered.bounded
  refine ⟨⟨fun hle => by omega, fun hle => by omega⟩, ⟨fun hexact call hcall => ?_, fun hstarts => ?_⟩, ?_⟩
  · exact hrostered.starts hreached.tabled hexact hcall
  · exact hrostered.exact hreached.tabled hreached.projects.fresh hstarts
  · exact forall₂_congr fun call hcall => (hrostered.kept call hcall).clean_iff

/-- The first call, with a failing `st_thread_create`. -/
theorem served_unstarted : Served bareSetup []
    [callOf bareConfig 7 [] true true false (initial [])]
    (acceptCall bareConfig 7 [] true true false (initial [])).1.1 := by
  have hstart : Served bareSetup [] [] (initial []) := .start rfl
  exact .next hstart (.accept 7 [] true true false rfl rfl rfl)

/-- A step of a server, with all that the system decides. -/
inductive Admission where
  | call (stfd : Nat) (beyond : Bytes) (getfd setfd created : Bool)
  | other (m : Move)

/-- One step; `none` if it is not possible now. -/
def admissionStep (setup : Setup) : Admission → Server → Option (Server × List Call)
  | .call stfd beyond getfd setfd created, s =>
      if s.crashed = false ∧ s.processor = .free ∧ s.inUse stfd = false then
        some ((acceptCall setup.conf stfd beyond getfd setfd created s).1.1,
          [callOf setup.conf stfd beyond getfd setfd created s])
      else none
  | .other m, s => if m.accepts = false then (s.move setup m).map fun next => (next.1, []) else none

theorem admitting_of_admissionStep {a : Admission} {more : List Call} (h : admissionStep setup a s = some (s', more)) :
    Admitting setup s more s' := by
  cases a with
  | call stfd beyond getfd setfd created =>
      obtain ⟨⟨hrunning, hfree, hfd⟩, hcall⟩ := Option.ite_none_right_eq_some.mp h
      cases hcall
      exact .accept stfd beyond getfd setfd created hrunning hfree hfd
  | other m =>
      obtain ⟨hother, hmoved⟩ := Option.ite_none_right_eq_some.mp h
      obtain ⟨⟨s'', shown⟩, hmove, heq⟩ := Option.map_eq_some_iff.mp hmoved
      cases heq
      exact .move m hother hmove

end rostered

/-- A server with room for one connection. -/
def tightSetup : Setup := { bareSetup with conf := { bareConfig with maxconnect := 1 } }

/-- A client comes, and one that finds no room; when the first one has gone, the `fcntl` of a third client
fails, and a fourth one comes. -/
def crowds : List Admission :=
  [.call 7 [] true true true, .call 8 [] true true true] ++
    List.replicate 3 (.other (.thread 0 .cycle (calm 1))) ++
      [.call 8 [] true false true, .call 8 [] true true true]

theorem table_exact_iff_starts_crowds : ∃ calls s, Served tightSetup [] calls s ∧
    calls.map (fun call => (call.id, call.closed)) = [(0, false), (1, true), (1, true), (1, false)] ∧
    s.table = [1] ∧ (s.table.length : Int) ≤ tightSetup.conf.maxconnect ∧
    TableExact tightSetup.conf calls s ∧ ∀ call ∈ calls, call.Clean tightSetup.conf := by
  have hplays : (Theory.play (admissionStep tightSetup) crowds (initial [])).any (fun next =>
      decide (next.2.map (fun call => (call.id, call.closed)) = [(0, false), (1, true), (1, true), (1, false)] ∧
        next.1.table = [1] ∧
          ∀ call ∈ next.2, call.passes tightSetup.conf = true → call.created = true)) = true := by
    decide +kernel
  obtain ⟨⟨s, calls⟩, hplay, hwanted⟩ := (Option.any_eq_true _ _).mp hplays
  obtain ⟨hcalls, htable, hstarts⟩ := of_decide_eq_true hwanted
  have hstart : Served tightSetup [] [] (initial []) := .start rfl
  have hrun := hstart.append
    (Run.of_play (admissionStep tightSetup) (fun _ _ _ h => admitting_of_admissionStep h) hplay)
  obtain ⟨hbounded, hexact, hclean⟩ := table_exact_iff_starts hrun
  exact ⟨calls, s, hrun, hcalls, htable, hbounded.mpr (by decide), hexact.mpr hstarts, hclean.mpr hstarts⟩

/-- A failing `st_thread_create` leaves an entry behind that no thread takes out, and an open
descriptor. -/
theorem table_not_exact :
    (¬ ∀ calls s, Served bareSetup [] calls s → TableExact bareConfig calls s) ∧
      ¬ ∀ calls s, Served bareSetup [] calls s → ∀ call ∈ calls, call.Clean bareConfig := by
  have hrostered : Rostered bareConfig _ _ := served_unstarted.rostered
  obtain ⟨trace, hreached⟩ := served_unstarted.reached
  have hmem := List.mem_singleton_self (callOf bareConfig 7 [] true true false (initial []))
  have hnot : ¬ (callOf bareConfig 7 [] true true false (initial [])).Starts bareConfig := by
    intro hstarts
    exact Bool.false_ne_true (hstarts (by decide))
  refine ⟨fun h => hnot ?_, fun h => hnot ?_⟩
  · exact hrostered.starts hreached.tabled (h _ _ served_unstarted) hmem
  · exact (hrostered.kept _ hmem).clean_iff.mp (h _ _ served_unstarted _ hmem)

end Server

end LinkedonPush
