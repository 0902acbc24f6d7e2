import LinkedonPush.App.Registry

/-!
# The passes of `cycle_all`

A pass reads a batch of the Redis list, hands its elements out one by one and then trims as many as
it counted. Producers append to the list at any time, also between the two commands.
-/

namespace LinkedonPush

open Theory

/-- More messages for a client, depending on its key. -/
def LPushConn.extend (f : Bytes → List LPushWorkerMessage) (c : LPushConn) : LPushConn :=
  { c with client := c.client.map fun client => { client with queue := client.queue ++ f client.key } }

/-- What an element holds for the client with a key. -/
def messageFor (platform : Platform) (key element : Bytes) : Option LPushWorkerMessage :=
  match LPushWorkerMessage.ofJson platform (cStr element) with
  | none => none
  | some lwm => if Server.sourceKey lwm.userId lwm.appKey lwm.appSecret = key then some lwm else none

namespace Server

/-- More messages for every client. -/
def extend (f : Bytes → List LPushWorkerMessage) (s : Server) : Server :=
  { s with conns := fun id => (s.conns id).map (LPushConn.extend f) }

/-! ### One pass -/

section pass

variable {platform : Platform} {s s' : Server} {f g : Bytes → List LPushWorkerMessage} {id : Nat} {key : Bytes}
  {msg : LPushWorkerMessage}

theorem extend_nil (c : LPushConn) (h : ∀ client, c.client = some client → f client.key = []) :
    c.extend f = c := by
  unfold LPushConn.extend
  cases hclient : c.client with
  | none => rw [Option.map_none, ← hclient]
  | some client => rw [Option.map_some, h client hclient, List.append_nil, ← hclient]

theorem extend_extend (f g : Bytes → List LPushWorkerMessage) (s : Server) :
    (s.extend f).extend g = s.extend fun key => f key ++ g key := by
  have hconn : ∀ c : LPushConn, (c.extend f).extend g = c.extend fun key => f key ++ g key := by
    intro c
    unfold LPushConn.extend
    cases c.client with
    | none => rfl
    | some client => simp only [Option.map_some, LPushClient.key, List.append_assoc]
  simp only [extend, Option.map_map]
  congr 1
  funext id
  congr 1
  funext c
  exact hconn c

theorem conns_extend (f : Bytes → List LPushWorkerMessage) (s : Server) (id : Nat) :
    (s.extend f).conns id = (s.conns id).map (LPushConn.extend f) := rfl

theorem extend_nothing (s : Server) : s.extend (fun _ => []) = s := by
  have hconns : (s.extend fun _ => []).conns = s.conns := by
    funext id
    rw [conns_extend]
    cases hc : s.conns id with
    | none => rfl
    | some c => rw [Option.map_some, extend_nil c fun _ _ => rfl]
  exact congrArg (fun conns => ({ s with conns := conns } : Server)) hconns

theorem entry_extend (f : Bytes → List LPushWorkerMessage) (c : LPushConn) : (c.extend f).entry = c.entry := by
  unfold LPushConn.entry LPushConn.extend
  cases hclient : c.client with
  | none => rfl
  | some client => rfl

theorem entries_extend (f : Bytes → List LPushWorkerMessage) (s : Server) :
    (s.extend f).entries = s.entries := by
  funext id
  rw [entries, entries, conns_extend, Option.bind_map]
  congr 1
  funext c
  exact entry_extend f c

/-- A push reaches the one client with that key. -/
theorem push_eq_extend (h : Indexes s.clients Entry.key s.entries) (hid : s.clients key = some id)
    (hpush : s.push id msg = some s') : s' = s.extend fun key' => if key' = key then [msg] else [] := by
  obtain ⟨c, c', hc, hqueued, rfl⟩ := push_spec hpush
  obtain ⟨client, hclient, rfl⟩ := Option.map_eq_some_iff.mp hqueued
  have hkey : client.key = key := by
    obtain ⟨a, ha, hakey⟩ := (h key id).mp hid
    obtain ⟨c₁, client₁, hc₁, hclient₁, -, hkey₁⟩ := entries_eq_some.mp ha
    obtain rfl := Option.some.inj (hc.symm.trans hc₁)
    obtain rfl := Option.some.inj (hclient.symm.trans hclient₁)
    exact hkey₁.trans hakey
  rw [extend]
  congr 1
  funext id'
  by_cases hne : id' = id
  · subst hne
    rw [Function.update_self, hc, Option.map_some, LPushConn.extend, hclient, Option.map_some, if_pos hkey]
    rfl
  · rw [Function.update_of_ne hne]
    cases hc' : s.conns id' with
    | none => rfl
    | some c' =>
        have hother : ∀ client', c'.client = some client' →
            (if client'.key = key then [msg] else []) = [] := by
          intro client' hclient'
          apply if_neg
          intro heq
          have hentry : s.entries id' = some ⟨c'.stfd, client'.key⟩ :=
            entries_eq_some.mpr ⟨c', client', hc', hclient', rfl, rfl⟩
          have hfound := (h key id').mpr ⟨_, hentry, heq⟩
          exact hne (Option.some.inj (hfound.symm.trans hid))
        rw [Option.map_some, extend_nil c' hother]

/-- Nobody has a key that leads nowhere. -/
theorem extend_of_none (h : Indexes s.clients Entry.key s.entries) (hnone : s.clients key = none) :
    s.extend (fun key' => if key' = key then [msg] else []) = s := by
  have hconns : (s.extend fun key' => if key' = key then [msg] else []).conns = s.conns := by
    funext id
    rw [conns_extend]
    cases hc : s.conns id with
    | none => rfl
    | some c =>
        have hother : ∀ client, c.client = some client →
            (if client.key = key then [msg] else []) = [] := by
          intro client hclient
          apply if_neg
          intro heq
          have hentry : s.entries id = some ⟨c.stfd, client.key⟩ :=
            entries_eq_some.mpr ⟨c, client, hc, hclient, rfl, rfl⟩
          cases hnone.symm.trans ((h key id).mpr ⟨_, hentry, heq⟩)
        rw [Option.map_some, extend_nil c hother]
  exact congrArg (fun conns => ({ s with conns := conns } : Server)) hconns

/-- An element reaches the client it names, if that is registered. -/
theorem messageFor_eq {element : Bytes} {lwm : LPushWorkerMessage}
    (h : LPushWorkerMessage.ofJson platform (cStr element) = some lwm) (key : Bytes) :
    (messageFor platform key element).toList =
      if key = sourceKey lwm.userId lwm.appKey lwm.appSecret then [lwm] else [] := by
  rw [messageFor, h]
  dsimp only
  by_cases hkey : sourceKey lwm.userId lwm.appKey lwm.appSecret = key
  · rw [if_pos hkey, if_pos hkey.symm]
    rfl
  · rw [if_neg hkey, if_neg (Ne.symm hkey)]
    rfl

theorem filterMap_cons_messageFor (element : Bytes) (works : List Bytes) (key : Bytes) :
    (element :: works).filterMap (messageFor platform key) =
      (messageFor platform key element).toList ++ works.filterMap (messageFor platform key) := by
  cases helement : messageFor platform key element with
  | none => rw [List.filterMap_cons_none helement]; rfl
  | some msg => rw [List.filterMap_cons_some helement]; rfl

/-- The element that an observation says was looked up. -/
def Observation.dispatched? : Observation → Option Bytes
  | .dispatched element => some element
  | _ => none

/-- **One pass over a batch.** -/
theorem dispatchAll_spec {index index' : Nat} {works : List Bytes} {shown : List Observation}
    (h : Indexes s.clients Entry.key s.entries)
    (hdispatch : dispatchAll platform s index works = some (s', index', shown)) :
    s' = s.extend (fun key => works.filterMap (messageFor platform key)) ∧ index' = index + works.length ∧
      shown.filterMap Observation.dispatched? = works := by
  induction works generalizing s index shown with
  | nil =>
      cases hdispatch
      exact ⟨(extend_nothing _).symm, rfl, rfl⟩
  | cons element works ih =>
      rw [dispatchAll] at hdispatch
      split at hdispatch
      · cases hdispatch
      · rename_i lwm hlwm
        -- whether or not the client is there, the server is extended by this element
        have hnext : ∀ next shown', next = s.extend (fun key => (messageFor platform key element).toList) →
            dispatchAll platform next (index + 1) works = some (s', index', shown') →
            s' = s.extend (fun key => (element :: works).filterMap (messageFor platform key)) ∧
              index' = index + (element :: works).length ∧
                shown'.filterMap Observation.dispatched? = works := by
          intro next shown' hextend hrest
          have hindexes : Indexes next.clients Entry.key next.entries := by
            rw [hextend, entries_extend]
            exact h
          obtain ⟨hstate, hindex, hshown⟩ := ih hindexes hrest
          refine ⟨?_, ?_, hshown⟩
          · rw [hstate, hextend, extend_extend]
            congr 1
            funext key
            exact (filterMap_cons_messageFor element works key).symm
          · rw [hindex, List.length_cons]
            omega
        split at hdispatch
        · rename_i hnone
          split at hdispatch
          · cases hdispatch
          · rename_i hrest
            cases hdispatch
            have hself : s = s.extend (fun key => (messageFor platform key element).toList) := by
              simp only [messageFor_eq hlwm]
              exact (extend_of_none h hnone).symm
            obtain ⟨hstate, hindex, hshown⟩ := hnext s _ hself hrest
            exact ⟨hstate, hindex, congrArg (element :: ·) hshown⟩
        · rename_i id hinstance
          split at hdispatch
          · cases hdispatch
          · rename_i next hpush
            split at hdispatch
            · cases hdispatch
            · rename_i hrest
              cases hdispatch
              have hself : next = s.extend (fun key => (messageFor platform key element).toList) := by
                simp only [messageFor_eq hlwm]
                exact push_eq_extend h hinstance hpush
              obtain ⟨hstate, hindex, hshown⟩ := hnext next _ hself hrest
              exact ⟨hstate, hindex, congrArg (element :: ·) hshown⟩

/-- An integer of 64 bits. jsoncpp keeps one as unsigned from 2^31 on. -/
inductive Integer : Json → Prop where
  | signed (value : Int) : Integer (.int value)
  | unsigned (value : Nat) (h : (value : Int) ≤ maxInt64) : Integer (.uint value)

/-- A JSON object whose text members are strings and whose time members are integers of 64 bits. -/
def WellFormed (platform : Platform) (element : Bytes) : Prop :=
  ∃ members, platform.reader (cStr element) = some (.object members) ∧
    (∀ key ∈ ["TaskId", "MsgId", "AppKey", "AppSecret", "Content", "UserId", "Title", "Ext"],
      ∀ value, members.lookup (text key) = some value → ∃ shown, value = .string shown) ∧
    ∀ key ∈ ["CreateTime", "ExpiresTime"],
      ∀ value, members.lookup (text key) = some value → Integer value

theorem Integer.isSome_asInt64 {value : Json} (h : Integer value) : value.asInt64.isSome = true := by
  cases h with
  | signed value => rfl
  | unsigned value hmax => rw [Json.asInt64, if_pos hmax, Option.isSome_some]

theorem readable_of_wellFormed {element : Bytes} (h : WellFormed platform element) :
    ∀ root, platform.reader (cStr element) = some root → root.Readable := by
  obtain ⟨members, hreader, htexts, htimes⟩ := h
  intro root hroot
  obtain rfl := Option.some.inj (hroot.symm.trans hreader)
  refine ⟨members, rfl, fun key hkey value hvalue => ?_, fun key hkey value hvalue => ?_⟩
  · obtain ⟨shown, rfl⟩ := htexts key hkey value hvalue
    rfl
  · exact (htimes key hkey value hvalue).isSome_asInt64

/-- The client of an entry is there to be pushed to. -/
theorem push_of_entry {a : Entry} (ha : s.entries id = some a) (msg : LPushWorkerMessage) :
    ∃ next, s.push id msg = some next := by
  obtain ⟨c, client, hc, hclient, -, -⟩ := entries_eq_some.mp ha
  unfold push LPushConn.push
  rw [hc]
  dsimp only
  rw [hclient]
  exact ⟨_, rfl⟩

/-- A pass comes to its end if every constructor does. -/
theorem dispatchAll_of_readable {index : Nat} {works : List Bytes}
    (h : Indexes s.clients Entry.key s.entries)
    (hworks : ∀ element ∈ works, ∀ root, platform.reader (cStr element) = some root → root.Readable) :
    ∃ next, dispatchAll platform s index works = some next := by
  induction works generalizing s index with
  | nil => exact ⟨_, rfl⟩
  | cons element works ih =>
      obtain ⟨helement, hrest⟩ := List.forall_mem_cons.mp hworks
      obtain ⟨lwm, hlwm⟩ := LPushWorkerMessage.ofJson_iff_readable.mpr helement
      simp only [dispatchAll, hlwm]
      cases hinstance : s.sourceInstance lwm.userId lwm.appKey lwm.appSecret with
      | none =>
          obtain ⟨⟨s', index', shown⟩, hnext⟩ : ∃ next, dispatchAll platform s (index + 1) works = some next :=
            ih h hrest
          simp only [hnext]
          exact ⟨_, rfl⟩
      | some id =>
          obtain ⟨a, ha, -⟩ := (h _ id).mp hinstance
          obtain ⟨next, hpush⟩ := push_of_entry ha lwm
          have hindexes : Indexes next.clients Entry.key next.entries := by
            rw [push_eq_extend h hinstance hpush, entries_extend]
            exact h
          obtain ⟨⟨s', index', shown⟩, hnext⟩ :
              ∃ after, dispatchAll platform next (index + 1) works = some after := ih hindexes hrest
          simp only [hpush, hnext]
          exact ⟨_, rfl⟩

end pass

/-! ### Whole runs -/

def Observation.pushed? : Observation → Option Bytes
  | .pushed element => some element
  | _ => none

def Observation.trimmed? : Observation → Option Nat
  | .trimmed count => some count
  | _ => none

/-- The elements `cycle_all` has looked up. -/
def dispatched (trace : List Observation) : List Bytes := trace.filterMap Observation.dispatched?

/-- The elements producers have pushed. -/
def produced (trace : List Observation) : List Bytes := trace.filterMap Observation.pushed?

/-- How many elements have been trimmed. -/
def trimmed (trace : List Observation) : Nat := (trace.filterMap Observation.trimmed?).sum

/-- How many elements have been dispatched and wait for the LTRIM. -/
def pending (s : Server) : Nat :=
  match s.processor with
  | .cycling index => index
  | _ => 0

/-- The list is what has not been trimmed, and what was dispatched is a first part of everything
pushed. -/
structure Accounted (tasks : List Bytes) (trace : List Observation) (s : Server) : Prop where
  dispatched : dispatched trace <+: tasks ++ produced trace
  tasks : s.tasks = (tasks ++ produced trace).drop (trimmed trace)
  pending : trimmed trace + s.pending = (Server.dispatched trace).length

section accounted

variable {setup : Setup} {tasks : List Bytes} {trace shown : List Observation} {s s' : Server}

theorem dispatched_append (trace shown : List Observation) :
    dispatched (trace ++ shown) = dispatched trace ++ dispatched shown := List.filterMap_append

theorem produced_append (trace shown : List Observation) :
    produced (trace ++ shown) = produced trace ++ produced shown := List.filterMap_append

theorem trimmed_append (trace shown : List Observation) :
    trimmed (trace ++ shown) = trimmed trace + trimmed shown := by
  rw [trimmed, List.filterMap_append, List.sum_append]
  rfl

/-- An observation that has nothing to do with the list. -/
def Observation.Aside : Observation → Prop
  | .dispatched _ => False
  | .pushed _ => False
  | .trimmed _ => False
  | _ => True

theorem filterMap_eq_nil_of_aside {α : Type} {f : Observation → Option α}
    (hf : ∀ o : Observation, o.Aside → f o = none) (hshown : ∀ o ∈ shown, o.Aside) : shown.filterMap f = [] :=
  List.filterMap_eq_nil_iff.mpr fun o ho => hf o (hshown o ho)

theorem dispatched_of_aside (hshown : ∀ o ∈ shown, o.Aside) : dispatched shown = [] := by
  apply filterMap_eq_nil_of_aside _ hshown
  intro o ho
  cases o with
  | dispatched element => exact ho.elim
  | _ => rfl

theorem untrimmed_of_aside (hshown : ∀ o ∈ shown, o.Aside) : shown.filterMap Observation.trimmed? = [] := by
  apply filterMap_eq_nil_of_aside _ hshown
  intro o ho
  cases o with
  | trimmed count => exact ho.elim
  | _ => rfl

/-- A step that leaves the list and the pass alone. -/
theorem Accounted.aside (h : Accounted tasks trace s) (hshown : ∀ o ∈ shown, o.Aside)
    (htasks : s'.tasks = s.tasks) (hpending : s'.pending = s.pending) :
    Accounted tasks (trace ++ shown) s' := by
  have hdispatched := dispatched_of_aside hshown
  have hproduced : produced shown = [] := by
    apply filterMap_eq_nil_of_aside _ hshown
    intro o ho
    cases o with
    | pushed element => exact ho.elim
    | _ => rfl
  have htrimmed : trimmed shown = 0 := by
    rw [trimmed, untrimmed_of_aside hshown]
    rfl
  refine ⟨?_, ?_, ?_⟩
  · rw [dispatched_append, produced_append, hdispatched, hproduced, List.append_nil, List.append_nil]
    exact h.dispatched
  · rw [produced_append, trimmed_append, hproduced, htrimmed, List.append_nil, htasks]
    exact h.tasks
  · rw [dispatched_append, trimmed_append, hdispatched, htrimmed, hpending, List.append_nil]
    exact h.pending

theorem performAll_aside (id : Nat) (s : Server) (effects : List Effect) :
    ∀ o ∈ (performAll id s effects).2, o.Aside := by
  intro o ho
  rcases mem_performAll id s ho with ⟨e, -, rfl⟩ | ⟨source, rfl⟩
  · trivial
  · trivial

theorem loadAll_aside {platform : Platform} {id : Nat} {result : List Bytes}
    (h : loadAll platform id s result = some (s', shown)) :
    ∀ o ∈ shown, o.Aside := by
  induction result generalizing s shown with
  | nil =>
      cases h
      exact fun _ ho => (List.not_mem_nil ho).elim
  | cons json result ih =>
      rw [loadAll] at h
      split at h
      · cases h
      · split at h
        · cases h
        · split at h
          · cases h
          · rename_i hrest
            cases h
            intro o ho
            rcases List.mem_cons.mp ho with rfl | ho
            · trivial
            · rcases List.mem_cons.mp ho with rfl | ho
              · trivial
              · exact ih hrest o ho

/-- What a pass shows besides the elements. -/
theorem delivering_shown {address : LPushWorkerMessage → Bytes × Bytes × Bytes}
    (hrun : Run (· = s) (Delivering address) shown s') : produced shown = [] ∧ trimmed shown = 0 := by
  refine hrun.invariant (fun shown _ => produced shown = [] ∧ trimmed shown = 0) (fun _ _ => ⟨rfl, rfl⟩) ?_
  intro shown s more s' h hstep
  rw [produced_append, trimmed_append, h.1, h.2]
  cases hstep <;> exact ⟨rfl, rfl⟩

/-- The LRANGE of a pass and the dispatch of its batch. -/
theorem Accounted.cycle {platform : Platform} {next : Server × List Observation}
    (h : Accounted tasks trace s) (hregistered : Indexes s.clients Entry.key s.entries)
    (hfree : s.processor = .free) (hcycle : cycleAll platform s = some next) :
    Accounted tasks (trace ++ next.2) next.1 := by
  obtain ⟨⟨s', index, shown⟩, hdispatch, rfl⟩ := Option.map_eq_some_iff.mp hcycle
  obtain ⟨hstate, hindex, hshown⟩ := dispatchAll_spec hregistered hdispatch
  obtain ⟨hproduced, htrimmed⟩ := delivering_shown (dispatchAll_run hdispatch)
  have hpending : trimmed trace = (Server.dispatched trace).length := by
    have hp := h.pending
    rwa [Server.pending, hfree, Nat.add_zero] at hp
  have hdispatched : Server.dispatched (trace ++ shown) = Server.dispatched trace ++ batch s.tasks := by
    rw [dispatched_append]
    exact congrArg (Server.dispatched trace ++ ·) hshown
  -- the list is what follows the elements dispatched before
  have hall : Server.dispatched trace ++ s.tasks = tasks ++ produced trace := by
    rw [h.tasks, hpending]
    exact List.prefix_iff_eq_append.mp h.dispatched
  refine ⟨?_, ?_, ?_⟩
  · rw [hdispatched, produced_append, hproduced, List.append_nil, ← hall, List.prefix_append_right_inj]
    exact List.take_prefix _ _
  · rw [produced_append, trimmed_append, hproduced, htrimmed, List.append_nil, hstate]
    exact h.tasks
  · rw [trimmed_append, htrimmed, hdispatched, List.length_append, hpending, Nat.add_zero, hindex, Nat.zero_add]
    rfl

theorem Accounted.rpush (h : Accounted tasks trace s) (element : Bytes) :
    Accounted tasks (trace ++ [.pushed element]) { s with tasks := s.tasks ++ [element] } := by
  have hle : trimmed trace ≤ (tasks ++ produced trace).length := by
    have hp := h.pending
    have hlength := h.dispatched.length_le
    omega
  refine ⟨?_, ?_, ?_⟩
  · rw [dispatched_append, produced_append, ← List.append_assoc]
    exact (List.append_nil _).symm ▸ h.dispatched.trans (List.prefix_append _ _)
  · rw [produced_append, trimmed_append, ← List.append_assoc]
    change s.tasks ++ [element] = (tasks ++ produced trace ++ [element]).drop (trimmed trace)
    rw [List.drop_append_of_le_length hle, ← h.tasks]
  · rw [dispatched_append, trimmed_append]
    exact h.pending.trans (congrArg List.length (List.append_nil _).symm)

/-- The LTRIM removes exactly the batch that was dispatched. -/
theorem Accounted.trim {index : Nat} (h : Accounted tasks trace s) (hcycling : s.processor = .cycling index) :
    Accounted tasks (trace ++ (s.ltrim index).2) (s.ltrim index).1 := by
  have hpending : trimmed trace + index = (Server.dispatched trace).length := by
    have hp := h.pending
    rwa [Server.pending, hcycling] at hp
  have hle : index ≤ s.tasks.length := by
    have hlength := h.dispatched.length_le
    rw [h.tasks, List.length_drop]
    omega
  have htrimmed : trimmed (trace ++ (s.ltrim index).2) = trimmed trace + index := by
    rw [trimmed_append]
    simp [ltrim, trimmed, Observation.trimmed?, Nat.min_eq_left hle]
  have hdispatched : Server.dispatched (trace ++ (s.ltrim index).2) = Server.dispatched trace := by
    rw [dispatched_append]
    exact List.append_nil _
  have hproduced : produced (trace ++ (s.ltrim index).2) = produced trace := by
    rw [produced_append]
    exact List.append_nil _
  refine ⟨?_, ?_, ?_⟩
  · rw [hdispatched, hproduced]
    exact h.dispatched
  · rw [hproduced, htrimmed, ← List.drop_drop, ← h.tasks]
    rfl
  · rw [hdispatched, htrimmed]
    exact hpending

theorem Reached.accounted (hrun : Reached setup tasks trace s) : Accounted tasks trace s := by
  induction hrun with
  | start hinit =>
      rw [hinit]
      exact ⟨List.nil_prefix, (List.append_nil tasks).symm, rfl⟩
  | next hbefore hstep ih =>
      cases hstep with
      | thread id thread w hrunning hfree haddress hthread =>
          obtain ⟨c, c', effects, hc, hstep, rfl⟩ := threadStep_spec hthread
          obtain ⟨-, -, -, htasks, hprocessor⟩ := performAll_frame id _ effects
          refine ih.aside (performAll_aside id _ effects) htasks ?_
          rw [pending, pending, hprocessor]
      | accept stfd beyond fcntl created hrunning hfree hfd =>
          rcases acceptClient_spec setup.conf stfd beyond fcntl created _ with hsame | ⟨c, -, haccepted⟩
          · rw [hsame]
            exact ih.aside (fun _ ho => (List.not_mem_nil ho).elim) rfl rfl
          · rw [haccepted]
            refine ih.aside (fun o ho => ?_) rfl rfl
            rw [List.mem_singleton.mp ho]
            trivial
      | rpush element hrunning => exact ih.rpush element
      | lrange hrunning hfree hcycle => exact ih.cycle (Reached.registered hbefore).clients hfree hcycle
      | ltrim index hrunning hcycling => exact ih.trim hcycling
      | request address mie rest hrunning hfree hhistory =>
          refine ih.aside (fun o ho => ?_) rfl ?_
          · rw [List.mem_singleton.mp ho]
            trivial
          · rw [pending, pending, hfree]
      | page mie result hrunning hloading hpage =>
          have hframe := delivering_frame (selectMongoHistoryLimit_run hpage)
          refine ih.aside ?_ (by rw [hframe]) ?_
          · unfold selectMongoHistoryLimit at hpage
            split at hpage
            · cases hpage
              exact fun _ ho => (List.not_mem_nil ho).elim
            · exact loadAll_aside hpage
          · rw [hframe]
            rfl
      | loaded mie hrunning hloading =>
          refine ih.aside (fun _ ho => (List.not_mem_nil ho).elim) rfl ?_
          rw [pending, pending, hloading]

end accounted

/-! ### Exactly once -/

/-- What a run guarantees about the elements of the list. -/
structure ExactlyOnce (platform : Platform) (tasks : List Bytes) (trace : List Observation) (s : Server) :
    Prop where
  /-- In the order of the pushes, each at most once. -/
  dispatched : dispatched trace <+: tasks ++ produced trace
  remaining : s.tasks = (tasks ++ produced trace).drop (trimmed trace)
  trimmed : trimmed trace ≤ (Server.dispatched trace).length
  between : (∀ index, s.processor ≠ .cycling index) → Server.dispatched trace ++ s.tasks = tasks ++ produced trace
  /-- What a pass does to the queues, wherever one starts. -/
  pass : s.processor = .free → ∀ next, cycleAll platform s = some next →
    next.1.processor = .cycling (batch s.tasks).length ∧
      Server.dispatched (trace ++ next.2) = Server.dispatched trace ++ batch s.tasks ∧
      ∀ id c, s.conns id = some c →
        (∀ client, c.client = some client → s.clients client.key = some id ∧
          next.1.conns id = some { c with client := some { client with
            queue := client.queue ++ (batch s.tasks).filterMap (messageFor platform client.key) } }) ∧
        (c.client = none → next.1.conns id = some c)
  completes : (∀ element ∈ batch s.tasks, WellFormed platform element) → ∃ next, cycleAll platform s = some next

/-- **Exactly-once dispatch**, at every moment of a run. -/
theorem exactly_once {setup : Setup} {tasks : List Bytes} {trace : List Observation} {s : Server}
    (hrun : Reached setup tasks trace s) : ExactlyOnce setup.platform tasks trace s := by
  have h := hrun.accounted
  have hregistered := hrun.registered.clients
  refine ⟨h.dispatched, h.tasks, ?_, fun hfree => ?_, fun hfree next hcycle => ?_, fun hworks => ?_⟩
  · have hp := h.pending
    omega
  · have hpending : trimmed trace = (dispatched trace).length := by
      have hp := h.pending
      unfold pending at hp
      split at hp
      · rename_i index hcycling
        exact (hfree index hcycling).elim
      · exact hp
    rw [h.tasks, hpending]
    exact List.prefix_iff_eq_append.mp h.dispatched
  · obtain ⟨⟨s', index, shown⟩, hdispatch, rfl⟩ := Option.map_eq_some_iff.mp hcycle
    obtain ⟨hstate, hindex, hshown⟩ := dispatchAll_spec hregistered hdispatch
    rw [Nat.zero_add] at hindex
    refine ⟨congrArg Processor.cycling hindex, ?_, fun id c hc => ⟨fun client hclient => ⟨?_, ?_⟩, fun hnone => ?_⟩⟩
    · rw [dispatched_append]
      exact congrArg (dispatched trace ++ ·) hshown
    · exact (hregistered client.key id).mpr ⟨⟨c.stfd, client.key⟩,
        entries_eq_some.mpr ⟨c, client, hc, hclient, rfl, rfl⟩, rfl⟩
    · dsimp only
      rw [hstate, conns_extend, hc, Option.map_some, LPushConn.extend, hclient]
      rfl
    · dsimp only
      have hclientless : ∀ client, c.client = some client →
          (batch s.tasks).filterMap (messageFor setup.platform client.key) = [] := by
        intro client hclient
        cases hnone.symm.trans hclient
      rw [hstate, conns_extend, hc, Option.map_some, extend_nil c hclientless]
  · obtain ⟨next, hdispatch⟩ := dispatchAll_of_readable hregistered fun element helement =>
      readable_of_wellFormed (hworks element helement)
    unfold cycleAll
    rw [hdispatch]
    exact ⟨_, rfl⟩

/-- The task is dispatched to user 7, and the other one comes between the LRANGE of the pass and its LTRIM. -/
def pushesBetween : List Move :=
  enters 0 7 1 (opening userSeven) ++ activates 0 1 2 ++ [.rpush taskJson, .lrange, .rpush laterJson, .ltrim]

theorem wellFormed_laterJson : WellFormed laterPlatform laterJson := by
  have htext : cStr laterJson = laterJson := by decide +kernel
  have hreader : laterPlatform.reader (cStr laterJson) = some (.object laterMembers) := by
    rw [htext]
    simp only [laterPlatform, if_true]
  refine ⟨laterMembers, hreader, fun key hkey value hvalue => ?_, fun key hkey value hvalue => ?_⟩
  · simp only [List.mem_cons, List.not_mem_nil, or_false] at hkey
    rcases hkey with rfl | rfl | rfl | rfl | rfl | rfl | rfl | rfl <;> cases hvalue <;> exact ⟨_, rfl⟩
  · simp only [List.mem_cons, List.not_mem_nil, or_false] at hkey
    rcases hkey with rfl | rfl <;> cases hvalue
    exact .unsigned _ (by decide)

/-- The task that is left on the list goes to user 7 in the next pass. -/
theorem exactly_once_pushesBetween : ∃ trace s c client, Reached laterSetup [] trace s ∧
    dispatched trace = [taskJson] ∧ trimmed trace = 1 ∧ s.tasks = [laterJson] ∧
    s.conns 0 = some c ∧ c.client = some client ∧ client.queue = [taskMessage] ∧
    ExactlyOnce laterPlatform [] trace s ∧ ∃ next, cycleAll laterPlatform s = some next ∧
      next.1.conns 0 = some { c with client := some { client with queue := [taskMessage, laterMessage] } } := by
  obtain ⟨trace, s, hrun, hwanted⟩ := reached_of_play laterSetup [] pushesBetween
    (fun next => dispatched next.2 = [taskJson] ∧ trimmed next.2 = 1 ∧ next.1.tasks = [laterJson] ∧
      next.1.processor = .free ∧ (next.1.conns 0).any (fun c => c.client.any fun client =>
        client.key = text "7appkey" ∧ client.queue = [taskMessage]) = true) (by decide +kernel)
  obtain ⟨hdispatched, htrimmed, htasks, hfree, hconn⟩ := of_decide_eq_true hwanted
  obtain ⟨c, hc, hcclient⟩ := (Option.any_eq_true _ _).mp hconn
  obtain ⟨client, hclient, hknown⟩ := (Option.any_eq_true _ _).mp hcclient
  obtain ⟨hkey, hqueue⟩ := of_decide_eq_true hknown
  have honce : ExactlyOnce laterPlatform [] trace s := exactly_once hrun
  have hbatch : batch s.tasks = [laterJson] := by
    rw [htasks]
    rfl
  obtain ⟨next, hnext⟩ := honce.completes fun element helement => by
    rw [hbatch] at helement
    rw [List.mem_singleton.mp helement]
    exact wellFormed_laterJson
  obtain ⟨-, -, hgrow⟩ := honce.pass hfree next hnext
  have hmessages : [laterJson].filterMap (messageFor laterPlatform (text "7appkey")) = [laterMessage] := by
    decide +kernel
  have hafter := ((hgrow 0 c hc).1 client hclient).2
  rw [hbatch, hkey, hmessages, hqueue] at hafter
  exact ⟨trace, s, c, client, hrun, hdispatched, htrimmed, htasks, hc, hclient, hqueue, honce, next, hnext, hafter⟩

end Server

end LinkedonPush
