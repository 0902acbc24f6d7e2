import LinkedonPush.App.Shutdown
import LinkedonPush.Protocol.Codec

/-!
# The main loop

Once a second the main thread announces its process in the registry of servers, at most once in
three seconds, and does a pass over the task list. Signals reach it through a pipe, which a thread of
its own reads one by one; SIGTERM makes it leave the loop, delete what is there and withdraw.
-/

namespace LinkedonPush

open Theory

/-- The signals with a catcher. -/
inductive Signal where
  | hup
  | pipe
  | int
  | usr2
  | term
deriving DecidableEq

/-- `statusToJson`, with the writer behind `toStyledString`. -/
def statusToJson (toStyledString : Json → Bytes) (conf : LPushConfig) (pid : Int) (conns : Nat) (time : Int) :
    Bytes :=
  toStyledString (LPushFMT.person [(text "localhost", conf.localhost), (text "processId", decimal pid),
    (text "serverConnectionNO", decimal (BitVec.ofNat 32 conns).toInt),
    (text "serverBeforeHreatTime", decimal (BitVec.ofInt 32 time).toInt)])

/-- The keys that `initializer` makes; `none` where the port runs out of its buffer. -/
def initializer (conf : LPushConfig) (taskPrefix : Bytes) : Option (Bytes × Bytes) :=
  if (decimal conf.port).length < 5 then some (conf.hostname, taskPrefix ++ conf.hostname) else none

/-- What stays fixed for a process. -/
structure Launch where
  setup : Setup
  toStyledString : Json → Bytes
  taskPrefix : Bytes
  pid : Int
  serverKey : Bytes
  taskKey : Bytes
  initialized : initializer setup.conf taskPrefix = some (serverKey, taskKey)

/-- A process with its main loop. -/
structure Master where
  daemon : Daemon
  beforeTime : Int
  signalReload : Bool
  sigPipe : List Signal
  /-- `signal_catcher` waits for room in the pipe, and so does the process that would make it. -/
  stuck : Bool
  ended : Bool

/-- What a process shows. -/
inductive Report where
  | sight (o : Sight)
  | caught (signo : Signal)
  | handled (signo : Signal)
  /-- A turn of the loop begins. -/
  | woke (now : Int)
  /-- HSET, with what the entry says; `after` is the time that is noted. -/
  | announced (conns : Nat) (time after : Int)
  /-- HDEL. -/
  | withdrawn

namespace Master

/-- How many signals fit into the pipe. -/
def pipeSize : Nat := 65536 / 4

/-- The process makes no step any more. -/
def gone (m : Master) : Bool := m.ended || m.stuck || m.daemon.server.crashed

def start (tasks : List Bytes) (now : Int) : Master := ⟨.start tasks, now, false, [], false, false⟩

/-- `on_signal`. -/
def onSignal (m : Master) : Signal → Master
  | .hup => { m with signalReload := true }
  | .pipe => m
  | .int => { m with ended := true }
  | .usr2 => { m with ended := true }
  | .term => { m with daemon := { m.daemon with signalGracefullyQuit := true } }

/-- The time is read for the check, for the entry and once more behind the HSET. -/
def hreatRedis (m : Master) (now time after : Int) : Master × List Report :=
  if 2 < now - m.beforeTime then
    ({ m with beforeTime := after }, [.announced m.daemon.server.table.length time after])
  else (m, [])

/-- A turn of the loop, up to the LTRIM of its pass; a constructor that raises ends the process. -/
def turn (setup : Setup) (m : Master) (now time after : Int) : Master × List Report :=
  let (m, announced) := m.hreatRedis now time after
  match m.daemon.move setup (.server .lrange) with
  | none => ({ m with ended := true }, .woke now :: announced)
  | some (d, shown) => ({ m with daemon := d }, .woke now :: announced ++ shown.map .sight)

inductive Move where
  /-- Any other thread, and what is left of the main thread's own work. -/
  | daemon (m : Daemon.Move)
  | signalCatcher (signo : Signal)
  /-- The thread that reads the pipe. -/
  | cycle
  /-- The main thread has slept. -/
  | wake (now time after : Int)
  | kill

/-- The moves that the main loop and the signals make themselves. -/
def own : Daemon.Move → Bool
  | .server .lrange => true
  | .signal => true
  | .quit => true
  | _ => false

/-- Behind the deletion of the connections, the entry is removed and the process ends. -/
def follow (m : Master) (d : Daemon) (shown : List Sight) : Master × List Report :=
  match d.main with
  | .exited => ({ m with daemon := d, ended := true }, shown.map .sight ++ [.withdrawn])
  | _ => ({ m with daemon := d }, shown.map .sight)

/-- One move; `none` if it is not possible now. -/
def move (setup : Setup) (m : Master) : Move → Option (Master × List Report)
  | .daemon dm =>
      if m.gone || own dm then none
      else (m.daemon.move setup dm).map fun next => m.follow next.1 next.2
  | .signalCatcher signo =>
      if m.gone then none
      else if m.sigPipe.length < pipeSize then some ({ m with sigPipe := m.sigPipe ++ [signo] }, [.caught signo])
      else some ({ m with stuck := true }, [])
  | .cycle =>
      match m.sigPipe with
      | [] => none
      | signo :: rest =>
          if m.gone || !m.daemon.running then none
          else some ({ m with sigPipe := rest }.onSignal signo, [.handled signo])
  | .wake now time after =>
      match m.daemon.main with
      | .serving =>
          if m.gone || !m.daemon.running then none
          else if m.daemon.signalGracefullyQuit then
            some ({ m with daemon := { m.daemon with main := .listeners } }, [])
          else some (m.turn setup now time after)
      | _ => none
  | .kill => if m.ended then none else some ({ m with ended := true }, [])

def Step (setup : Setup) (m : Master) (shown : List Report) (m' : Master) : Prop :=
  ∃ mv, m.move setup mv = some (m', shown)

/-- The runs of a process, from the start of its loop. -/
abbrev Reached (setup : Setup) (tasks : List Bytes) (now : Int) : List Report → Master → Prop :=
  Run (· = start tasks now) (Step setup)

end Master

/-! ### The number of connections -/

namespace Server

/-- A connection has been accepted. -/
def Observation.accepts : Observation → Bool
  | .accepted _ => true
  | _ => false

/-- A connection has removed itself. -/
def Observation.removes : Observation → Bool
  | .conn _ .removed => true
  | _ => false

section counts

variable {setup : Setup} {tasks : List Bytes} {trace shown : List Observation} {s s' : Server}

theorem countP_accepts_performAll (id : Nat) (s : Server) (effects : List Effect) :
    (performAll id s effects).2.countP Observation.accepts = 0 := by
  rw [List.countP_eq_zero]
  intro o ho
  rcases mem_performAll id s ho with ⟨e, -, rfl⟩ | ⟨source, rfl⟩ <;> exact Bool.false_ne_true

theorem countP_removes_performAll (id : Nat) (s : Server) (effects : List Effect) :
    (performAll id s effects).2.countP Observation.removes = effects.countP LPushConn.removal := by
  induction effects generalizing s with
  | nil => rfl
  | cons e effects ih =>
      have hquiet : (perform id s e).2.countP Observation.removes = 0 := by
        rw [List.countP_eq_zero]
        intro o ho
        cases e with
        | deleteClient cstfd =>
            simp only [perform] at ho
            split at ho
            · exact (List.not_mem_nil ho).elim
            · rw [List.mem_singleton.mp ho]
              exact Bool.false_ne_true
        | _ => exact (List.not_mem_nil ho).elim
      have hhead : Observation.removes (.conn id e) = LPushConn.removal e := by cases e <;> rfl
      simp only [performAll, List.cons_append, List.countP_cons, List.countP_append, hquiet, ih, hhead, Nat.zero_add]

theorem delivering_counts {address : LPushWorkerMessage → Bytes × Bytes × Bytes}
    (hrun : Run (· = s) (Delivering address) shown s') :
    shown.countP Observation.accepts = 0 ∧ shown.countP Observation.removes = 0 := by
  refine hrun.invariant (fun shown _ => shown.countP Observation.accepts = 0 ∧ shown.countP Observation.removes = 0)
    (fun _ _ => ⟨rfl, rfl⟩) fun trace _ more _ hnone hstep => ?_
  have hmore : more.countP Observation.accepts = 0 ∧ more.countP Observation.removes = 0 := by
    cases hstep <;> exact ⟨rfl, rfl⟩
  rw [List.countP_append, List.countP_append, hnone.1, hnone.2, hmore.1, hmore.2]
  exact ⟨rfl, rfl⟩

theorem table_length_delivered {address : LPushWorkerMessage → Bytes × Bytes × Bytes}
    (h : s.table.length + trace.countP Observation.removes = trace.countP Observation.accepts)
    (hrun : Run (· = s) (Delivering address) shown s') :
    s'.table.length + (trace.countP Observation.removes + shown.countP Observation.removes) =
      trace.countP Observation.accepts + shown.countP Observation.accepts := by
  have hcounts := delivering_counts hrun
  have hframe := delivering_frame hrun
  rw [hframe, hcounts.1, hcounts.2]
  exact h

/-- **The table counts**: it is as long as connections were accepted and have not removed themselves. -/
theorem Reached.table_length (hrun : Reached setup tasks trace s) :
    s.table.length + trace.countP Observation.removes = trace.countP Observation.accepts := by
  induction hrun with
  | start hinit =>
      rw [hinit]
      rfl
  | @next trace shown s s' hbefore hstep ih =>
      have hbefore : Reached setup tasks trace s := hbefore
      rw [List.countP_append, List.countP_append]
      cases hstep with
      | thread id thread w hrunning hfree haddress hthread =>
          obtain ⟨c, c', effects, hc, hstep, rfl⟩ := threadStep_spec hthread
          have hmore : LPushConn.Step (Surroundings setup) c effects c' := .thread _ w thread ⟨rfl, rfl, rfl⟩ hstep
          have hfiled' : LPushConn.Filed setup.conf _ c' :=
            LPushConn.history_filed (fun _ henv => henv.1) ((hbefore.history hc).next hmore)
          have hleft := (hbefore.filed hc).removed
          have hleft' := hfiled'.removed
          rw [removal_append, hleft] at hleft'
          have hbound : LPushConn.left c'.point.phase ≤ 1 := by
            cases c'.point.phase <;> decide
          have hmem : id ∈ s.table ↔ LPushConn.left c.point.phase = 0 := by
            rw [hbefore.tabled.mem_iff, Present, hc]
            simp
          rw [countP_accepts_performAll, countP_removes_performAll, table_performAll]
          cases hcount : effects.countP LPushConn.removal with
          | zero => exact ih
          | succ n =>
              obtain ⟨rfl, hin⟩ : n = 0 ∧ LPushConn.left c.point.phase = 0 := by omega
              have herase := List.length_erase_add_one (hmem.mpr hin)
              change (s.table.erase id).length + _ = _
              omega
      | accept stfd beyond fcntl created hrunning hfree hfd =>
          rcases acceptClient_spec setup.conf stfd beyond fcntl created _ with hsame | ⟨c, -, haccepted⟩
          · rw [hsame]
            exact ih
          · rw [haccepted, List.length_append]
            change _ + 1 + (_ + 0) = _ + 1
            omega
      | lrange hrunning hfree hcycle =>
          obtain ⟨⟨s', index, shown⟩, hdispatch, rfl⟩ := Option.map_eq_some_iff.mp hcycle
          have hdelivered := table_length_delivered ih (dispatchAll_run hdispatch)
          exact hdelivered
      | page mie result hrunning hloading hpage =>
          exact table_length_delivered ih (selectMongoHistoryLimit_run hpage)
      | rpush | ltrim | request | loaded => exact ih

end counts

end Server

/-! ### The main thread in its loop -/

namespace Daemon

section serving

variable {setup : Setup} {tasks : List Bytes} {trace shown : List Sight} {d d' : Daemon}

/-- The deletions change where the main thread is, and nothing else that the loop reads. -/
structure Deletes (d d' : Daemon) : Prop where
  main : d.main ≠ .serving → d'.main ≠ .serving
  quit : d'.signalGracefullyQuit = d.signalGracefullyQuit

theorem deletes_destroyed (d : Daemon) (id : Nat) (point : CyclePoint) (p : Progress) :
    Deletes d (d.destroyed id point p).1 := by
  unfold destroyed
  split
  · exact ⟨fun hmain => hmain, rfl⟩
  · exact ⟨fun _ => MainPoint.noConfusion, rfl⟩
  · exact ⟨fun _ => MainPoint.noConfusion, rfl⟩

theorem deletes_closeConns (ids : List Nat) (d : Daemon) : Deletes d (d.closeConns ids).1 := by
  induction ids generalizing d with
  | nil => exact ⟨fun _ => MainPoint.noConfusion, rfl⟩
  | cons id ids ih =>
      cases hc : d.server.conns id with
      | none =>
          simp only [closeConns, hc]
          exact ⟨fun hmain => hmain, rfl⟩
      | some c =>
          have hfirst := deletes_destroyed d id c.point c.destructor
          cases hdestroyed : d.destroyed id c.point c.destructor with
          | mk d₁ rest =>
              obtain ⟨shown, ended⟩ := rest
              rw [hdestroyed] at hfirst
              cases ended with
              | false =>
                  simp only [closeConns, hc, hdestroyed]
                  exact hfirst
              | true =>
                  have hmore := ih d₁
                  simp only [closeConns, hc, hdestroyed]
                  exact ⟨fun hmain => hmore.main (hfirst.main hmain), hmore.quit.trans hfirst.quit⟩

theorem deletes_resume {id : Nat} {point : CyclePoint} {p : Progress} (h : d.resume id point p = (d', shown)) :
    Deletes d d' := by
  have hfirst := deletes_destroyed d id point p
  unfold resume at h
  cases hdestroyed : d.destroyed id point p with
  | mk d₁ rest =>
      obtain ⟨more, ended⟩ := rest
      rw [hdestroyed] at hfirst h
      cases ended with
      | false =>
          cases h
          exact hfirst
      | true =>
          have hmore := deletes_closeConns d₁.server.table d₁
          cases h
          exact ⟨fun hmain => hmore.main (hfirst.main hmain), hmore.quit.trans hfirst.quit⟩

theorem serve_main {m : Server.Move} (hserve : d.serve setup m = some (d', shown)) :
    d'.main = d.main ∧ d'.signalGracefullyQuit = d.signalGracefullyQuit := by
  unfold serve at hserve
  split at hserve
  · cases hserve
    exact ⟨rfl, rfl⟩
  · split at hserve
    · cases hserve
    · split at hserve <;> cases hserve <;> exact ⟨rfl, rfl⟩

/-- A move leaves the loop for good, and only SIGTERM is a reason. -/
structure Stays (m : Move) (d d' : Daemon) : Prop where
  left : d.main ≠ .serving → d'.main ≠ .serving
  quit : m ≠ .signal → d'.signalGracefullyQuit = d.signalGracefullyQuit
  serving : m ≠ .quit → d.main = .serving → d'.main = .serving

theorem Deletes.stays {m : Move} (h : Deletes d d') (hmain : d.main ≠ .serving) : Stays m d d' :=
  ⟨h.main, fun _ => h.quit, fun _ hserving => (hmain hserving).elim⟩

theorem stays_of_main {m : Move} (hmain : d'.main = d.main)
    (hquit : m ≠ .signal → d'.signalGracefullyQuit = d.signalGracefullyQuit) : Stays m d d' := by
  refine ⟨fun hleft => ?_, hquit, fun _ hserving => ?_⟩
  · rwa [hmain]
  · rwa [hmain]

theorem stays_move {m : Move} (hmove : d.move setup m = some (d', shown)) : Stays m d d' := by
  cases m with
  | server m =>
      simp only [move] at hmove
      split at hmove
      · cases hmove
      · have hserved := serve_main hmove
        exact stays_of_main hserved.1 fun _ => hserved.2
      · cases hmove
  | signal =>
      simp only [move] at hmove
      split at hmove
      · cases hmove
        exact stays_of_main rfl fun hnot => (hnot rfl).elim
      · cases hmove
  | quit =>
      simp only [move] at hmove
      split at hmove
      · cases hmove
        exact ⟨fun _ => MainPoint.noConfusion, fun _ => rfl, fun hnot => (hnot rfl).elim⟩
      · cases hmove
  | listenerEnds =>
      simp only [move] at hmove
      split at hmove
      · cases hmove
        exact stays_of_main rfl fun _ => rfl
      · cases hmove
  | close =>
      simp only [move] at hmove
      split at hmove
      · rename_i hmain _
        have hdeletes := deletes_closeConns d.server.table d
        rw [Option.some.inj hmove] at hdeletes
        apply hdeletes.stays
        rw [hmain]
        exact MainPoint.noConfusion
      · cases hmove
  | joined =>
      have hnot : ∀ id, d.joining = some id → d.main ≠ .serving := by
        intro id hjoining hserving
        rw [joining, hserving] at hjoining
        cases hjoining
      simp only [move] at hmove
      split at hmove
      · rename_i id _ hjoining
        split at hmove
        · split at hmove
          · exact (deletes_resume (Option.some.inj hmove)).stays (hnot id hjoining)
          · cases hmove
        · split at hmove
          · exact (deletes_resume (Option.some.inj hmove)).stays (hnot id hjoining)
          · cases hmove
        · cases hmove
      · cases hmove

/-- Before the main thread leaves its loop, the process is its server. -/
theorem serving_reached (hrun : Run (· = start tasks) (Step setup) trace d) (hmain : d.main = .serving) :
    d.freed = [] ∧ ∃ strace, Server.Reached setup tasks strace d.server ∧ trace = strace.map .server := by
  induction hrun with
  | start hinit =>
      rw [hinit]
      exact ⟨rfl, [], .start rfl, rfl⟩
  | @next trace shown d d' hbefore hstep ih =>
      obtain ⟨m, hmove⟩ := hstep
      have hserving : d.main = .serving := by
        by_contra hleft
        exact (stays_move hmove).left hleft hmain
      obtain ⟨hfreed, strace, hrun, rfl⟩ := ih hserving
      have hjoining : d.joining = none := by simp only [joining, hserving]
      cases m with
      | server m =>
          simp only [move] at hmove
          split at hmove
          · cases hmove
          · obtain ⟨s, more, hserved, rfl, rfl⟩ := serve_spec hfreed hjoining hmove
            have hmore : Server.Step setup d.server more s := hrun.step_of_move hserved
            exact ⟨hfreed, strace ++ more, hrun.next hmore, List.map_append.symm⟩
          · cases hmove
      | signal =>
          simp only [move] at hmove
          split at hmove
          · cases hmove
            exact ⟨hfreed, strace, hrun, List.append_nil _⟩
          · cases hmove
      | quit =>
          simp only [move] at hmove
          split at hmove
          · cases hmove
            cases hmain
          · cases hmove
      | listenerEnds => simp [move, hserving] at hmove
      | close => simp [move, hserving] at hmove
      | joined => simp [move, hjoining] at hmove

end serving

end Daemon

/-! ### What a move of the process is -/

namespace Master

section moved

variable {setup : Setup} {m m' : Master} {shown : List Report} {now time after : Int}

/-- The announcement of a turn, or none. -/
inductive Hreat (m : Master) (now time after : Int) : List Report → Master → Prop where
  | due (hdue : 2 < now - m.beforeTime) : Hreat m now time after
      [.announced m.daemon.server.table.length time after] { m with beforeTime := after }
  | early (hearly : ¬ 2 < now - m.beforeTime) : Hreat m now time after [] m

theorem hreat (m : Master) (now time after : Int) :
    Hreat m now time after (m.hreatRedis now time after).2 (m.hreatRedis now time after).1 := by
  unfold hreatRedis
  split
  · rename_i hdue
    exact .due hdue
  · rename_i hearly
    exact .early hearly

/-- The moves, by what they show. -/
inductive Moved (setup : Setup) (m : Master) : List Report → Master → Prop where
  | daemon {d : Daemon} {shown : List Sight} (dm : Daemon.Move) (hrunning : m.ended = false) (hown : own dm = false)
      (hmove : m.daemon.move setup dm = some (d, shown)) (hstays : d.main ≠ .exited) :
      Moved setup m (shown.map .sight) { m with daemon := d }
  | withdraws {d : Daemon} {shown : List Sight} (dm : Daemon.Move) (hrunning : m.ended = false)
      (hown : own dm = false) (hmove : m.daemon.move setup dm = some (d, shown)) (hexits : d.main = .exited) :
      Moved setup m (shown.map .sight ++ [.withdrawn]) { m with daemon := d, ended := true }
  | caught (signo : Signal) (hrunning : m.ended = false) :
      Moved setup m [.caught signo] { m with sigPipe := m.sigPipe ++ [signo] }
  | stuck (hrunning : m.ended = false) : Moved setup m [] { m with stuck := true }
  | handled (signo : Signal) (rest : List Signal) (hpipe : m.sigPipe = signo :: rest) (hrunning : m.ended = false)
      (hfree : m.daemon.running = true) :
      Moved setup m [.handled signo] ({ m with sigPipe := rest }.onSignal signo)
  | leaves (hrunning : m.ended = false) (hserving : m.daemon.main = .serving) (hfree : m.daemon.running = true)
      (hquit : m.daemon.signalGracefullyQuit = true) :
      Moved setup m [] { m with daemon := { m.daemon with main := .listeners } }
  | turns {announced : List Report} {m₁ : Master} {d : Daemon} {shown : List Sight} (now time after : Int)
      (hrunning : m.ended = false) (hserving : m.daemon.main = .serving)
      (hquit : m.daemon.signalGracefullyQuit = false) (hhreat : Hreat m now time after announced m₁)
      (hmove : m.daemon.move setup (.server .lrange) = some (d, shown)) :
      Moved setup m (.woke now :: announced ++ shown.map .sight) { m₁ with daemon := d }
  | raises {announced : List Report} {m₁ : Master} (now time after : Int) (hrunning : m.ended = false)
      (hserving : m.daemon.main = .serving) (hquit : m.daemon.signalGracefullyQuit = false)
      (hhreat : Hreat m now time after announced m₁) :
      Moved setup m (.woke now :: announced) { m₁ with ended := true }
  | killed (hrunning : m.ended = false) : Moved setup m [] { m with ended := true }

theorem hreat_daemon {announced : List Report} (h : Hreat m now time after announced m') : m'.daemon = m.daemon := by
  cases h <;> rfl

theorem Hreat.same {announced : List Report} (h : Hreat m now time after announced m') :
    m'.sigPipe = m.sigPipe ∧ m'.signalReload = m.signalReload := by
  cases h <;> exact ⟨rfl, rfl⟩

theorem Hreat.ended {announced : List Report} (h : Hreat m now time after announced m') : m'.ended = m.ended := by
  cases h <;> rfl

theorem Step.moved (h : Step setup m shown m') : Moved setup m shown m' := by
  obtain ⟨mv, hmove⟩ := h
  have hended : m.gone = false → m.ended = false := by
    intro h
    simp only [gone, Bool.or_eq_false_iff] at h
    exact h.1.1
  cases mv with
  | daemon dm =>
      simp only [move] at hmove
      split at hmove
      · cases hmove
      · rename_i hfree
        simp only [Bool.or_eq_true, not_or, Bool.not_eq_true] at hfree
        obtain ⟨⟨d, sights⟩, hdaemon, heq⟩ := Option.map_eq_some_iff.mp hmove
        dsimp only [follow] at heq
        split at heq
        · rename_i hexits
          cases heq
          exact .withdraws dm (hended hfree.1) hfree.2 hdaemon hexits
        · rename_i hstays
          cases heq
          exact .daemon dm (hended hfree.1) hfree.2 hdaemon hstays
  | signalCatcher signo =>
      simp only [move] at hmove
      split at hmove
      · cases hmove
      · rename_i hfree
        have hrunning := hended (Bool.not_eq_true _ |>.mp hfree)
        split at hmove <;> cases hmove
        · exact .caught signo hrunning
        · exact .stuck hrunning
  | cycle =>
      simp only [move] at hmove
      split at hmove
      · cases hmove
      · rename_i signo rest hpipe
        split at hmove
        · cases hmove
        · rename_i hfree
          simp only [Bool.or_eq_true, Bool.not_eq_true', not_or, Bool.not_eq_true, Bool.not_eq_false] at hfree
          cases hmove
          exact .handled signo rest hpipe (hended hfree.1) hfree.2
  | wake now time after =>
      simp only [move] at hmove
      split at hmove
      · rename_i hserving
        split at hmove
        · cases hmove
        · rename_i hfree
          simp only [Bool.or_eq_true, Bool.not_eq_true', not_or, Bool.not_eq_true, Bool.not_eq_false] at hfree
          have hrunning := hended hfree.1
          split at hmove
          · rename_i hquit
            cases hmove
            exact .leaves hrunning hserving hfree.2 hquit
          · rename_i hquit
            have hquit : m.daemon.signalGracefullyQuit = false := Bool.not_eq_true _ |>.mp hquit
            have hhreat := hreat m now time after
            have hturn := Option.some.inj hmove
            unfold turn at hturn
            generalize m.hreatRedis now time after = next at hhreat hturn
            obtain ⟨m₁, announced⟩ := next
            dsimp only at hturn hhreat
            split at hturn
            · cases hturn
              exact .raises now time after hrunning hserving hquit hhreat
            · rename_i d sights hdaemon
              cases hturn
              rw [hreat_daemon hhreat] at hdaemon
              exact .turns now time after hrunning hserving hquit hhreat hdaemon
      · cases hmove
  | kill =>
      simp only [move] at hmove
      split at hmove
      · cases hmove
      · rename_i hrunning
        cases hmove
        exact .killed (Bool.not_eq_true _ |>.mp hrunning)

/-- A process that has ended does nothing. -/
theorem Step.running (h : Step setup m shown m') : m.ended = false := by
  cases h.moved <;> assumption

end moved

end Master

/-! ### What a process shows of its threads -/

def Report.sight? : Report → Option Sight
  | .sight o => some o
  | _ => none

def Report.caught? : Report → Option Signal
  | .caught signo => some signo
  | _ => none

def Report.handled? : Report → Option Signal
  | .handled signo => some signo
  | _ => none

/-- What the server has shown. -/
def Report.observation? : Report → Option Server.Observation
  | .sight (.server o) => some o
  | _ => none

namespace Master

section views

variable {setup : Setup} {tasks : List Bytes} {trace : List Report} {m : Master} {start : Int}

theorem filterMap_sights {α : Type} (f : Report → Option α) (shown : List Sight) :
    (shown.map Report.sight).filterMap f = shown.filterMap fun o => f (.sight o) := by
  rw [List.filterMap_map]
  rfl

theorem filterMap_sights_none {α : Type} {f : Report → Option α} (hnone : ∀ o, f (.sight o) = none)
    (shown : List Sight) : (shown.map Report.sight).filterMap f = [] := by
  rw [filterMap_sights, List.filterMap_eq_nil_iff]
  exact fun o _ => hnone o

theorem sights_map (shown : List Sight) : (shown.map Report.sight).filterMap Report.sight? = shown := by
  rw [filterMap_sights]
  exact List.filterMap_some

theorem filterMap_hreat {announced : List Report} {m' : Master} {now time after : Int}
    (h : Hreat m now time after announced m') {α : Type} {f : Report → Option α}
    (hnone : ∀ conns time after, f (.announced conns time after) = none) : announced.filterMap f = [] := by
  cases h with
  | due => rw [List.filterMap_cons_none (hnone _ _ _), List.filterMap_nil]
  | early => rfl

/-- The threads of a process run as without the main loop's own work. -/
theorem Reached.daemon (hrun : Reached setup tasks start trace m) :
    Run (· = Daemon.start tasks) (Daemon.Step setup) (trace.filterMap Report.sight?) m.daemon := by
  induction hrun with
  | start hinit =>
      rw [hinit]
      exact .start rfl
  | @next trace shown m m' _ hstep ih =>
      rw [List.filterMap_append]
      have hquiet : ∀ d, d = m.daemon →
          Run (· = Daemon.start tasks) (Daemon.Step setup) (trace.filterMap Report.sight? ++ []) d := by
        intro d hd
        rw [List.append_nil, hd]
        exact ih
      cases hstep.moved with
      | daemon dm hrunning hown hmove hstays =>
          rw [sights_map]
          exact ih.next ⟨dm, hmove⟩
      | withdraws dm hrunning hown hmove hexits =>
          have hnone : [Report.withdrawn].filterMap Report.sight? = [] := rfl
          rw [List.filterMap_append, sights_map, hnone, List.append_nil]
          exact ih.next ⟨dm, hmove⟩
      | caught signo | stuck | killed => exact hquiet _ rfl
      | handled signo rest hpipe hrunning hfree =>
          cases signo with
          | term => exact ih.next ⟨.signal, by simp [Daemon.move, hfree, onSignal, Report.sight?]⟩
          | _ => exact hquiet _ rfl
      | leaves hrunning hserving hfree hquit =>
          exact ih.next ⟨.quit, by simp [Daemon.move, hserving, hfree, hquit]⟩
      | turns now time after hrunning hserving hquit hhreat hmove =>
          have hnone := filterMap_hreat hhreat (f := Report.sight?) fun _ _ _ => rfl
          rw [List.cons_append, List.filterMap_cons_none rfl, List.filterMap_append, hnone, sights_map]
          exact ih.next ⟨_, hmove⟩
      | raises now time after hrunning hserving hquit hhreat =>
          have hnone := filterMap_hreat hhreat (f := Report.sight?) fun _ _ _ => rfl
          rw [List.filterMap_cons_none rfl, hnone]
          have hsame := hreat_daemon hhreat
          exact hquiet _ hsame

end views

end Master

end LinkedonPush
