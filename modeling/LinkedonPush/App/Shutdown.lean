import LinkedonPush.App.Schedule
import LinkedonPush.App.Stages

/-!
# Shutdown

After SIGTERM the main thread leaves its loop, deletes the listener and then every connection of the
vector, and ends the process. A destructor that joins a helper thread lets everything else run.
-/

namespace LinkedonPush

open Theory

namespace Server

/-! ### The vector of connections -/

/-- The connection has not begun to delete itself. -/
def Present (s : Server) (id : Nat) : Prop := ∃ c, s.conns id = some c ∧ LPushConn.left c.point.phase = 0

/-- The vector holds every connection that is present, once. -/
structure Tabled (s : Server) : Prop where
  nodup : s.table.Nodup
  mem_iff : ∀ id, id ∈ s.table ↔ s.Present id

section tabled

variable {setup : Setup} {tasks : List Bytes} {trace shown : List Observation} {s s' : Server} {id : Nat}

theorem removal_append (trace effects : List Effect) :
    (trace ++ effects).countP LPushConn.removal =
      trace.countP LPushConn.removal + effects.countP LPushConn.removal := List.countP_append

/-- A connection that removes itself is erased. -/
theorem table_performAll (id : Nat) (s : Server) (effects : List Effect) :
    (performAll id s effects).1.table =
      (fun table : List Nat => table.erase id)^[effects.countP LPushConn.removal] s.table := by
  induction effects generalizing s with
  | nil => rfl
  | cons e effects ih =>
      have hfirst : (performAll id s (e :: effects)).1 = (performAll id (perform id s e).1 effects).1 := rfl
      rw [hfirst, ih]
      cases e with
      | removed =>
          rw [List.countP_cons_of_pos rfl, Function.iterate_succ_apply]
          rfl
      | deleteClient cstfd =>
          rw [List.countP_cons_of_neg (by simp [LPushConn.removal])]
          simp only [perform]
          cases s.sources cstfd <;> rfl
      | _ =>
          rw [List.countP_cons_of_neg (by simp [LPushConn.removal])]
          rfl

/-- Connections that stay where they are. -/
theorem Tabled.same (h : s.Tabled) (htable : s'.table = s.table) (hpresent : ∀ id, s'.Present id ↔ s.Present id) :
    s'.Tabled := by
  refine ⟨by rw [htable]; exact h.nodup, fun id => ?_⟩
  rw [htable, hpresent]
  exact h.mem_iff id

theorem present_update {c c' : LPushConn} (hc : s.conns id = some c)
    (hconns : s'.conns = Function.update s.conns id (some c')) (id' : Nat) :
    s'.Present id' ↔ if id' = id then LPushConn.left c'.point.phase = 0 else s.Present id' := by
  unfold Present
  rw [hconns]
  by_cases hid : id' = id
  · subst hid
    simp
  · simp [hid]

/-- A thread of a connection takes it out of the vector at most once. -/
theorem Tabled.thread {c c' : LPushConn} {effects : List Effect} (h : s.Tabled) (hc : s.conns id = some c)
    (hleft : LPushConn.left c'.point.phase =
      LPushConn.left c.point.phase + effects.countP LPushConn.removal) :
    (performAll id { s with conns := Function.update s.conns id (some c'), crashed := c'.crashed }
      effects).1.Tabled := by
  have hconns := (performAll_frame id
    { s with conns := Function.update s.conns id (some c'), crashed := c'.crashed } effects).1
  have htable := table_performAll id
    { s with conns := Function.update s.conns id (some c'), crashed := c'.crashed } effects
  have hpresent : s.Present id ↔ LPushConn.left c.point.phase = 0 := by
    unfold Present
    rw [hc]
    simp
  have hbound : LPushConn.left c'.point.phase ≤ 1 := by
    cases c'.point.phase <;> decide
  cases hcount : effects.countP LPushConn.removal with
  | zero =>
      rw [hcount] at hleft htable
      refine h.same htable fun id' => ?_
      rw [present_update hc hconns]
      split
      · rename_i hid
        rw [hid, hpresent, hleft, Nat.add_zero]
      · exact Iff.rfl
  | succ n =>
      rw [hcount] at hleft htable
      obtain ⟨hn, hbefore⟩ : n = 0 ∧ LPushConn.left c.point.phase = 0 := by omega
      rw [hn] at htable
      have herase : (performAll id { s with conns := Function.update s.conns id (some c'), crashed := c'.crashed }
          effects).1.table = s.table.erase id := htable
      refine ⟨by rw [herase]; exact h.nodup.erase id, fun id' => ?_⟩
      rw [herase, h.nodup.mem_erase_iff, h.mem_iff, present_update hc hconns]
      split
      · rename_i hid
        simp only [hid, ne_eq, not_true_eq_false, false_and, false_iff]
        omega
      · rename_i hid
        simp [hid]

theorem Tabled.delivered {address : LPushWorkerMessage → Bytes × Bytes × Bytes} (h : s.Tabled)
    (hrun : Run (· = s) (Delivering address) shown s') : s'.Tabled := by
  refine hrun.invariant_state Tabled (fun s' hs' => by rwa [hs']) fun s shown s' htabled hstep => ?_
  cases hstep with
  | queued id msg hinstance hpush =>
      obtain ⟨c, c', hc, hqueued, rfl⟩ := push_spec hpush
      obtain ⟨client, -, rfl⟩ := Option.map_eq_some_iff.mp hqueued
      refine htabled.same rfl fun id' => ?_
      rw [present_update hc rfl]
      split
      · rename_i hid
        unfold Present
        rw [hid, hc]
        simp
      · exact Iff.rfl
  | _ => exact htabled

theorem Tabled.accept (h : s.Tabled) (hfresh : ∀ id, s.accepted ≤ id → s.conns id = none) (conf : LPushConfig)
    (stfd : Nat) (beyond : Bytes) (fcntl created : Bool) :
    (acceptClient conf stfd beyond fcntl created s).1.Tabled := by
  rcases acceptClient_spec conf stfd beyond fcntl created s with hsame | ⟨c, hnew, haccepted⟩
  · rwa [hsame]
  · rw [haccepted]
    have hnone : s.conns s.accepted = none := hfresh _ le_rfl
    have hleft : LPushConn.left c.point.phase = 0 := by rcases hnew with rfl | rfl <;> rfl
    have hnot : s.accepted ∉ s.table := by
      intro hmem
      obtain ⟨c', hc', -⟩ := (h.mem_iff _).mp hmem
      cases hnone.symm.trans hc'
    refine ⟨?_, fun id => ?_⟩
    · refine List.nodup_append.mpr ⟨h.nodup, List.nodup_singleton _, fun id hid other hother heq => ?_⟩
      rw [heq, List.mem_singleton.mp hother] at hid
      exact hnot hid
    · rw [List.mem_append, List.mem_singleton, h.mem_iff]
      unfold Present
      by_cases hid : id = s.accepted
      · subst hid
        simp [hleft]
      · simp [hid]

theorem Reached.tabled (hrun : Reached setup tasks trace s) : s.Tabled := by
  induction hrun with
  | start hinit =>
      rw [hinit]
      exact ⟨List.nodup_nil, fun id => ⟨fun h => (List.not_mem_nil h).elim, fun h => by
        obtain ⟨c, hc, -⟩ := h
        cases hc⟩⟩
  | next hbefore hstep ih =>
      have hbefore : Reached setup tasks _ _ := hbefore
      cases hstep with
      | thread id thread w hrunning hfree haddress hthread =>
          obtain ⟨c, c', effects, hc, hstep, rfl⟩ := threadStep_spec hthread
          have hmore : LPushConn.Step (Surroundings setup) c effects c' :=
            .thread _ w thread ⟨rfl, rfl, rfl⟩ hstep
          have hfiled' : LPushConn.Filed setup.conf _ c' :=
            LPushConn.history_filed (fun _ henv => henv.1) ((hbefore.history hc).next hmore)
          apply ih.thread hc
          rw [← (hbefore.filed hc).removed, ← hfiled'.removed, removal_append]
      | accept stfd beyond fcntl created hrunning hfree hfd =>
          exact ih.accept hbefore.projects.fresh setup.conf stfd beyond fcntl created
      | lrange hrunning hfree hcycle =>
          obtain ⟨⟨s', index, shown⟩, hdispatch, rfl⟩ := Option.map_eq_some_iff.mp hcycle
          exact (ih.delivered (dispatchAll_run hdispatch)).same rfl fun _ => Iff.rfl
      | page mie result hrunning hloading hpage => exact ih.delivered (selectMongoHistoryLimit_run hpage)
      | rpush | ltrim | request | loaded => exact ih.same rfl fun _ => Iff.rfl

end tabled

end Server

/-- The destructor of a connection, up to its first join. -/
def LPushConn.destructor (c : LPushConn) : Progress :=
  let findPop := match c.mie with
    | none => []
    | some address => [.findPop address]
  Progress.after findPop c.deleteTrd

/-- Where the main thread is. -/
inductive MainPoint where
  | serving
  /-- In the destructor of the listener, waiting for its thread. -/
  | listeners
  /-- In the destructor of a connection, joining its recv thread. -/
  | joinRecv (id : Nat)
  | joinConsum (id : Nat)
  | exited

/-- The process: the server, its listener and its main thread. -/
structure Daemon where
  server : Server
  listening : Bool
  signalGracefullyQuit : Bool
  main : MainPoint
  /-- The connections that `close_conns` has deleted and whose cycle thread is still there. -/
  freed : List Nat
  /-- Memory was used after it was freed. -/
  broken : Bool

/-- What the process shows. -/
inductive Sight where
  | server (o : Server.Observation)
  /-- `close_conns` begins to delete a connection. -/
  | deleting (id : Nat)
  /-- The cycle thread removes the connection that `close_conns` is deleting and deletes it, too; the
  iterator of `close_conns` is gone. -/
  | twice (id : Nat)
  /-- The cycle thread of a deleted connection goes on. -/
  | late (id : Nat)

/-- A deletion of the connection begins. -/
def Sight.deletes (id : Nat) : Sight → Bool
  | .server (.conn id' .removed) => id' == id
  | .deleting id' => id' == id
  | _ => false

namespace Daemon

def start (tasks : List Bytes) : Daemon := ⟨.initial tasks, true, false, .serving, [], false⟩

/-- An ST thread can run. -/
def running (d : Daemon) : Bool :=
  match d.main, d.server.processor with
  | .exited, _ => false
  | _, .free => !d.broken && !d.server.crashed
  | _, _ => false

/-! ### `close_conns` -/

/-- `close_conns` has come as far as `p` with connection `id`, whose cycle thread stays at the
point; whether the destructor has come to its end. -/
def destroyed (d : Daemon) (id : Nat) (point : CyclePoint) (p : Progress) : Daemon × List Sight × Bool :=
  let place (c : LPushConn) : Server := { d.server with conns := Function.update d.server.conns id (some c) }
  match p.1.point with
  | .closed =>
      let (s, shown) := Server.performAll id (place p.1) p.2
      ({ d with
          server := { s with table := s.table.tail }
          freed := match point with
            | .unstarted => d.freed
            | _ => id :: d.freed },
        shown.map .server, true)
  | .joinRecv =>
      let (s, shown) := Server.performAll id (place { p.1 with point := point }) p.2
      ({ d with server := s, main := .joinRecv id }, shown.map .server, false)
  | _ =>
      let (s, shown) := Server.performAll id (place { p.1 with point := point }) p.2
      ({ d with server := s, main := .joinConsum id }, shown.map .server, false)

/-- The loop of `close_conns`, and the end of the process behind it. -/
def closeConns : List Nat → Daemon → Daemon × List Sight
  | [], d => ({ d with main := .exited }, [])
  | id :: conns, d =>
      match d.server.conns id with
      | none => ({ d with broken := true }, [])
      | some c =>
          match d.destroyed id c.point c.destructor with
          | (d, shown, false) => (d, .deleting id :: shown)
          | (d, shown, true) =>
              let (d, more) := closeConns conns d
              (d, .deleting id :: shown ++ more)

/-- The join came back. -/
def resume (d : Daemon) (id : Nat) (point : CyclePoint) (p : Progress) : Daemon × List Sight :=
  match d.destroyed id point p with
  | (d, shown, false) => (d, shown)
  | (d, shown, true) =>
      let (d, more) := d.closeConns d.server.table
      (d, shown ++ more)

/-! ### Moves -/

inductive Move where
  | server (m : Server.Move)
  /-- SIGTERM. -/
  | signal
  /-- The main thread leaves its loop. -/
  | quit
  /-- The thread of the listener has ended. -/
  | listenerEnds
  | close
  | joined

/-- The moves of the main thread's own loop, and of the listener. -/
def allows (d : Daemon) : Server.Move → Bool
  | .lrange => match d.main with
    | .serving => true
    | _ => false
  | .ltrim => match d.main with
    | .serving => true
    | _ => false
  | .accept _ _ _ _ => d.listening
  | _ => true

/-- The connection that `close_conns` is deleting. -/
def joining (d : Daemon) : Option Nat :=
  match d.main with
  | .joinRecv id => some id
  | .joinConsum id => some id
  | _ => none

/-- The connection whose cycle thread makes the move. -/
def cycling : Server.Move → Option Nat
  | .thread id .cycle _ => some id
  | _ => none

/-- Whether the connection removes itself. -/
def removes (shown : List Server.Observation) (id : Nat) : Bool :=
  shown.any fun
    | .conn id' .removed => id' == id
    | _ => false

/-- A move of the server's threads. -/
def serve (setup : Setup) (d : Daemon) (m : Server.Move) : Option (Daemon × List Sight) :=
  match (cycling m).filter fun id => d.running && id ∈ d.freed with
  | some id => some ({ d with broken := true }, [.late id])
  | none =>
      match d.server.move setup m with
      | none => none
      | some (s, shown) =>
          match d.joining.filter (removes shown) with
          | some id => some ({ d with server := s, broken := true }, shown.map .server ++ [.twice id])
          | none => some ({ d with server := s }, shown.map .server)

/-- One move; `none` if it is not possible now. -/
def move (setup : Setup) (d : Daemon) : Move → Option (Daemon × List Sight)
  | .server m =>
      match d.main, d.broken, d.allows m with
      | .exited, _, _ => none
      | _, false, true => d.serve setup m
      | _, _, _ => none
  | .signal => if d.running then some ({ d with signalGracefullyQuit := true }, []) else none
  | .quit =>
      match d.main, d.running && d.signalGracefullyQuit with
      | .serving, true => some ({ d with main := .listeners }, [])
      | _, _ => none
  | .listenerEnds =>
      match d.main, d.running with
      | .listeners, true => some ({ d with listening := false }, [])
      | _, _ => none
  | .close =>
      match d.main, d.running && !d.listening with
      | .listeners, true => some (d.closeConns d.server.table)
      | _, _ => none
  | .joined =>
      match d.running, d.joining with
      | true, some id =>
          match d.main, d.server.conns id with
          | .joinRecv _, some c =>
              match c.trd with
              | some ⟨_, .ended⟩ => some (d.resume id c.point { c with trd := none }.deleteTrd2)
              | _ => none
          | .joinConsum _, some c =>
              match c.trd2 with
              | some ⟨_, _, .ended⟩ => some (d.resume id c.point c.release)
              | _ => none
          | _, _ => none
      | _, _ => none

def Step (setup : Setup) (d : Daemon) (shown : List Sight) (d' : Daemon) : Prop :=
  ∃ m, d.move setup m = some (d', shown)

def play (setup : Setup) : Daemon → List Move → Option (Daemon × List Sight)
  | d, [] => some (d, [])
  | d, m :: moves =>
      match d.move setup m with
      | none => none
      | some (d, shown) =>
          match play setup d moves with
          | none => none
          | some (d, more) => some (d, shown ++ more)

/-! ### What shutdown owes the connections -/

structure DeletedOnce (trace : List Sight) (d : Daemon) : Prop where
  atMostOnce : ∀ id, trace.countP (Sight.deletes id) ≤ 1
  atExit : d.main = .exited → ∀ id c, d.server.conns id = some c → trace.countP (Sight.deletes id) = 1
  /-- `close_conns` goes on with a valid iterator. -/
  iterator : ∀ id, .twice id ∉ trace
  /-- No cycle thread goes on with a connection that was deleted. -/
  cycle : ∀ id, .late id ∉ trace

/-- The destructor joins no thread. -/
def Joinless (c : LPushConn) : Prop :=
  (∀ t, c.trd = some t → t.trd.tid = true → t.point = .ended) ∧
    ∀ u, c.trd2 = some u → u.trd.tid = true → u.point = .ended

/-- No connection of the vector has a helper thread that was started and has not ended. -/
def AllJoinless (s : Server) : Prop := ∀ id ∈ s.table, ∀ c, s.conns id = some c → Joinless c

/-- A step that does not enter `close_conns` while a connection has such a thread. -/
def Gentle (setup : Setup) (d : Daemon) (shown : List Sight) (d' : Daemon) : Prop :=
  ∃ m, d.move setup m = some (d', shown) ∧ (m = .close → AllJoinless d.server)

section gentle

variable {setup : Setup} {tasks : List Bytes} {trace shown : List Sight} {d d' : Daemon} {id : Nat}
  {c : LPushConn} {strace : List Server.Observation}

/-- Nothing has gone wrong. -/
def Sound (trace : List Sight) : Prop := ∀ id, .twice id ∉ trace ∧ .late id ∉ trace

theorem sound_map (shown : List Server.Observation) : Sound (shown.map .server) := by
  intro id
  constructor
  · intro hmem
    obtain ⟨o, -, heq⟩ := List.mem_map.mp hmem
    cases heq
  · intro hmem
    obtain ⟨o, -, heq⟩ := List.mem_map.mp hmem
    cases heq

theorem Sound.append (h : Sound trace) (h' : Sound shown) : Sound (trace ++ shown) := by
  intro id
  simp only [List.mem_append, not_or]
  exact ⟨⟨(h id).1, (h' id).1⟩, (h id).2, (h' id).2⟩

/-- The server shows the deletions that connections begin themselves. -/
theorem countP_map (id : Nat) (shown : List Server.Observation) :
    (shown.map .server).countP (Sight.deletes id) = (Server.view id shown).countP LPushConn.removal := by
  induction shown with
  | nil => rfl
  | cons o shown ih =>
      rw [List.map_cons, List.countP_cons, ih]
      cases o with
      | conn id' e =>
          by_cases hid : id' = id
          · subst hid
            rw [Server.view_conn_self, List.countP_cons]
            cases e <;> simp [Sight.deletes, LPushConn.removal]
          · rw [Server.view_conn_ne hid]
            cases e <;> simp [Sight.deletes, hid]
      | _ => rfl

/-- Only `LPushServer::remove` takes a connection out of the vector. -/
theorem removal_destructor (c : LPushConn) : c.destructor.2.countP LPushConn.removal = 0 := by
  unfold LPushConn.destructor
  rw [Progress.after, List.countP_append, LPushConn.removal_eq_outward c.deleteTrd.2,
    (LPushConn.ends_deleteTrd c).1]
  cases c.mie <;> rfl

theorem Joinless.deleteTrd2 (h : ∀ u, c.trd2 = some u → u.trd.tid = true → u.point = .ended) :
    c.deleteTrd2.1.point = .closed := by
  unfold LPushConn.deleteTrd2
  cases htrd2 : c.trd2 with
  | none => rfl
  | some u =>
      dsimp only
      cases htid : u.trd.tid with
      | false => rfl
      | true =>
          rw [h u htrd2 htid]
          rfl

/-- Nobody has to be waited for. -/
theorem Joinless.closed (h : Joinless c) : c.destructor.1.point = .closed := by
  obtain ⟨hrecv, hconsum⟩ := h
  change c.deleteTrd.1.point = .closed
  unfold LPushConn.deleteTrd
  cases htrd : c.trd with
  | none => exact Joinless.deleteTrd2 hconsum
  | some t =>
      dsimp only
      cases htid : t.trd.tid with
      | false => exact Joinless.deleteTrd2 (c := { c with trd := none }) hconsum
      | true =>
          rw [hrecv t htrd htid]
          exact Joinless.deleteTrd2 (c := { c with trd := none }) hconsum

/-- A destructor that came to its end. -/
theorem destroyed_spec (d : Daemon) (id : Nat) (point : CyclePoint) {p : Progress} (hclosed : p.1.point = .closed)
    (hremoval : p.2.countP LPushConn.removal = 0) : ∃ d' shown, d.destroyed id point p = (d', shown, true) ∧
      d'.server.conns = Function.update d.server.conns id (some p.1) ∧
        (∀ id', shown.countP (Sight.deletes id') = 0) ∧ Sound shown := by
  unfold destroyed
  rw [hclosed]
  refine ⟨_, _, rfl, (Server.performAll_frame id _ p.2).1, fun id' => ?_, sound_map _⟩
  rw [countP_map]
  by_cases hid : id = id'
  · subst hid
    rw [Server.view_performAll_self]
    exact hremoval
  · rw [Server.view_performAll_ne _ _ hid]
    rfl

/-- `close_conns` over connections that need no waiting. -/
theorem closeConns_spec {ids : List Nat} (hnodup : ids.Nodup)
    (hjoinless : ∀ id ∈ ids, ∃ c, d.server.conns id = some c ∧ Joinless c) :
    (d.closeConns ids).1.main = .exited ∧ Sound (d.closeConns ids).2 ∧
      (∀ id, (d.server.conns id).isSome = true ↔ ((d.closeConns ids).1.server.conns id).isSome = true) ∧
        ∀ id, (d.closeConns ids).2.countP (Sight.deletes id) = if id ∈ ids then 1 else 0 := by
  induction ids generalizing d with
  | nil =>
      refine ⟨rfl, fun id => ?_, fun id => Iff.rfl, fun id => rfl⟩
      simp [closeConns]
  | cons id ids ih =>
      obtain ⟨hnot, hnodup⟩ := List.nodup_cons.mp hnodup
      obtain ⟨c, hc, hc'⟩ := hjoinless id List.mem_cons_self
      obtain ⟨d', shown, hdestroyed, hconns, hcount, hsound⟩ :=
        destroyed_spec d id c.point hc'.closed (removal_destructor c)
      have hother : ∀ id' ∈ ids, ∃ c, d'.server.conns id' = some c ∧ Joinless c := by
        intro id' hmem
        have hne : id' ≠ id := fun heq => hnot (by rwa [← heq])
        rw [hconns, Function.update_of_ne hne]
        exact hjoinless id' (List.mem_cons_of_mem _ hmem)
      obtain ⟨hmain, hsound', hsome, hcount'⟩ := ih hnodup hother
      simp only [closeConns, hc, hdestroyed]
      refine ⟨hmain, ?_, fun id' => ?_, fun id' => ?_⟩
      · have hfirst : Sound [Sight.deleting id] := fun id' => by simp
        exact (hfirst.append hsound).append hsound'
      · rw [← hsome, hconns]
        by_cases hid : id' = id
        · simp [hid, hc]
        · simp [hid]
      · rw [List.countP_append, List.countP_cons, hcount, hcount', Nat.zero_add]
        by_cases hid : id' = id
        · subst hid
          simp [Sight.deletes, hnot]
        · simp [Sight.deletes, hid, Ne.symm hid]

/-- The process is up, or it has come to its end in order. -/
inductive Tame (setup : Setup) (tasks : List Bytes) (trace : List Sight) (d : Daemon) : Prop where
  | up (strace : List Server.Observation) (hmain : d.main = .serving ∨ d.main = .listeners)
      (hfreed : d.freed = []) (hrun : Server.Reached setup tasks strace d.server)
      (htrace : trace = strace.map .server)
  | down (hmain : d.main = .exited) (hdeleted : DeletedOnce trace d)

/-- What has been deleted as long as the process is up. -/
theorem deletions_up (hrun : Server.Reached setup tasks strace d.server) (id : Nat) :
    (strace.map .server).countP (Sight.deletes id) =
      match d.server.conns id with
      | none => 0
      | some c => LPushConn.left c.point.phase := by
  rw [countP_map]
  cases hc : d.server.conns id with
  | none =>
      rw [hrun.projects.unseen id hc]
      rfl
  | some c => exact (hrun.filed hc).removed

theorem Tame.deletedOnce (h : Tame setup tasks trace d) : DeletedOnce trace d := by
  cases h with
  | down _ hdeleted => exact hdeleted
  | up strace hmain hfreed hrun htrace =>
      rw [htrace]
      have hsound := sound_map strace
      refine ⟨fun id => ?_, fun hexited => ?_, fun id => (hsound id).1, fun id => (hsound id).2⟩
      · rw [deletions_up hrun]
        split
        · exact Nat.zero_le 1
        · rename_i c _
          cases c.point.phase <;> decide
      · rcases hmain with hmain | hmain <;> cases hmain.symm.trans hexited

/-- The end of a process in which nobody has to be waited for. -/
theorem Tame.close (hrun : Server.Reached setup tasks strace d.server) (hjoinless : AllJoinless d.server) :
    Tame setup tasks (strace.map .server ++ (d.closeConns d.server.table).2) (d.closeConns d.server.table).1 := by
  have htabled := hrun.tabled
  have hpresent : ∀ id ∈ d.server.table, ∃ c, d.server.conns id = some c ∧ Joinless c := by
    intro id hmem
    obtain ⟨c, hc, -⟩ := (htabled.mem_iff id).mp hmem
    exact ⟨c, hc, hjoinless id hmem c hc⟩
  obtain ⟨hmain, hsound, hsome, hcount⟩ := closeConns_spec htabled.nodup hpresent
  have htotal : ∀ id, (strace.map Sight.server ++ (d.closeConns d.server.table).2).countP (Sight.deletes id) =
      if (d.server.conns id).isSome then 1 else 0 := by
    intro id
    rw [List.countP_append, deletions_up hrun, hcount]
    cases hc : d.server.conns id with
    | none =>
        have hnot : id ∉ d.server.table := by
          intro hmem
          obtain ⟨c, hc', -⟩ := hpresent id hmem
          cases hc.symm.trans hc'
        simp [hnot]
    | some c =>
        have hmem : id ∈ d.server.table ↔ LPushConn.left c.point.phase = 0 := by
          rw [htabled.mem_iff, Server.Present, hc]
          simp
        simp only [hmem]
        cases c.point.phase <;> rfl
  have hall := (sound_map strace).append hsound
  refine .down hmain ⟨fun id => ?_, fun _ id c hc => ?_, fun id => (hall id).1, fun id => (hall id).2⟩
  · rw [htotal]
    split <;> decide
  · rw [htotal, (hsome id).mpr (by rw [hc]; rfl)]
    rfl

/-- A move of the server's threads while the process is up. -/
theorem serve_spec {m : Server.Move} (hfreed : d.freed = []) (hjoining : d.joining = none)
    (hserve : d.serve setup m = some (d', shown)) : ∃ s strace, d.server.move setup m = some (s, strace) ∧
      d' = { d with server := s } ∧ shown = strace.map .server := by
  unfold serve at hserve
  have hnone : ((cycling m).filter fun id => d.running && id ∈ d.freed) = none := by
    rw [hfreed]
    cases cycling m <;> simp
  rw [hnone, hjoining] at hserve
  dsimp only at hserve
  split at hserve
  · cases hserve
  · rename_i s strace hmove
    cases hserve
    exact ⟨s, strace, hmove, rfl, rfl⟩

theorem Tame.step (h : Tame setup tasks trace d) (hstep : Gentle setup d shown d') :
    Tame setup tasks (trace ++ shown) d' := by
  obtain ⟨m, hmove, hgentle⟩ := hstep
  cases h with
  | down hmain hdeleted =>
      exfalso
      have hrunning : d.running = false := by simp [running, hmain]
      cases m <;> simp [move, hmain, hrunning] at hmove
  | up strace hmain hfreed hrun htrace =>
      have hjoining : d.joining = none := by
        rcases hmain with hmain | hmain <;> simp [joining, hmain]
      subst htrace
      cases m with
      | server m =>
          simp only [move] at hmove
          split at hmove
          · cases hmove
          · obtain ⟨s, more, hserved, rfl, rfl⟩ := serve_spec hfreed hjoining hmove
            have hmore : Server.Step setup d.server more s := hrun.step_of_move hserved
            exact .up (strace ++ more) hmain hfreed (hrun.next hmore) List.map_append.symm
          · cases hmove
      | signal =>
          simp only [move] at hmove
          split at hmove
          · cases hmove
            exact .up strace hmain hfreed hrun (List.append_nil _)
          · cases hmove
      | quit =>
          simp only [move] at hmove
          split at hmove
          · cases hmove
            exact .up strace (.inr rfl) hfreed hrun (List.append_nil _)
          · cases hmove
      | listenerEnds =>
          simp only [move] at hmove
          split at hmove
          · cases hmove
            exact .up strace hmain hfreed hrun (List.append_nil _)
          · cases hmove
      | close =>
          simp only [move] at hmove
          split at hmove
          · have hclose := Tame.close hrun (hgentle rfl)
            rwa [Option.some.inj hmove] at hclose
          · cases hmove
      | joined => simp [move, hjoining] at hmove

/-- What a schedule computes is a run of every relation that admits its moves. -/
theorem run_of_play {step : Daemon → List Sight → Daemon → Prop} {moves : List Move}
    (hstep : ∀ d m next, m ∈ moves → d.move setup m = some next → step d next.2 next.1)
    (hplay : play setup d moves = some (d', shown)) : Run (· = d) step shown d' := by
  induction moves generalizing d shown with
  | nil =>
      cases hplay
      exact .start rfl
  | cons m moves ih =>
      rw [play] at hplay
      split at hplay
      · cases hplay
      · rename_i d₁ first hmove
        split at hplay
        · cases hplay
        · rename_i d₂ more hrest
          cases hplay
          have hfirst := hstep d m _ List.mem_cons_self hmove
          have hmore := ih (fun d m next hmem => hstep d m next (List.mem_cons_of_mem _ hmem)) hrest
          exact (Run.single hfirst).append hmore

end gentle

/-! ### Two shutdowns -/

end Daemon

end LinkedonPush
