import LinkedonPush.App.HistoryQueue
import LinkedonPush.Theory.Keyspace

/-!
# Processes that share Redis

Any number of servers and the Redis they share. A call of the Redis client blocks its process, so
the commands of a step are executed before the process takes its next step; meanwhile the others go
on. Expiry is left out, and the hashes and the task lists are kept apart from the keys that
connections write.
-/

namespace LinkedonPush

open Theory

/-- What Redis makes of a command. -/
def RedisCommand.write : RedisCommand → Write Bytes
  | .set key value => .set key value
  | .expire key _ => .expire key
  | .del key => .del key
  | .zadd key score value => .zadd key score value
  | .zrem key value => .zrem key value
  | .lpush key value => .lpush key value

/-- A process, and the commands of its last step that Redis has not executed, with the connections
that sent them. -/
structure Node where
  server : Server
  pending : List (Nat × RedisCommand)

structure Cluster where
  nodes : Nat → Node
  redis : Keyspace Bytes

namespace Cluster

inductive Observation where
  | process (n : Nat) (o : Server.Observation)
  | executed (n id : Nat) (command : RedisCommand)

/-- The command that an observation sends to Redis. -/
def command? : Server.Observation → Option (Nat × RedisCommand)
  | .conn id (.redis command) => some (id, command)
  | _ => none

/-- The commands of a step. -/
def sent (shown : List Server.Observation) : List (Nat × RedisCommand) := shown.filterMap command?

/-- All processes are about to start; Redis may hold anything. -/
def Start (tasks : Nat → List Bytes) (k : Cluster) : Prop := ∀ n, k.nodes n = ⟨.initial (tasks n), []⟩

/-- Process `n` moves on. -/
def put (k : Cluster) (n : Nat) (node : Node) : Cluster := { k with nodes := Function.update k.nodes n node }

@[simp] theorem put_self (k : Cluster) (n : Nat) (node : Node) : (k.put n node).nodes n = node :=
  Function.update_self ..

theorem put_of_ne (k : Cluster) {n n' : Nat} (node : Node) (hne : n' ≠ n) : (k.put n node).nodes n' = k.nodes n' :=
  Function.update_of_ne hne ..

/-- Redis executes the first command that process `n` waits for. -/
def execute (k : Cluster) (n : Nat) (command : RedisCommand) (rest : List (Nat × RedisCommand)) : Cluster :=
  { k.put n ⟨(k.nodes n).server, rest⟩ with redis := k.redis.apply command.write }

@[simp] theorem execute_server (k : Cluster) (n : Nat) (command : RedisCommand)
    (rest : List (Nat × RedisCommand)) (n' : Nat) :
    ((k.execute n command rest).nodes n').server = (k.nodes n').server := by
  change ((k.put n ⟨(k.nodes n).server, rest⟩).nodes n').server = (k.nodes n').server
  by_cases hn : n' = n
  · rw [hn, put_self]
  · rw [put_of_ne k _ hn]

theorem execute_self (k : Cluster) (n : Nat) (command : RedisCommand) (rest : List (Nat × RedisCommand)) :
    (k.execute n command rest).nodes n = ⟨(k.nodes n).server, rest⟩ := put_self ..

theorem execute_of_ne (k : Cluster) {n n' : Nat} (command : RedisCommand) (rest : List (Nat × RedisCommand))
    (hne : n' ≠ n) : (k.execute n command rest).nodes n' = k.nodes n' := put_of_ne k _ hne

inductive Step (setups : Nat → Setup) : Cluster → List Observation → Cluster → Prop where
  | process {k : Cluster} {shown : List Server.Observation} {s : Server} (n : Nat)
      (hidle : (k.nodes n).pending = []) (h : Server.Step (setups n) (k.nodes n).server shown s) :
      Step setups k (shown.map (.process n)) (k.put n ⟨s, sent shown⟩)
  /-- Producers act also while the process waits for Redis. -/
  | rpush {k : Cluster} (n : Nat) (element : Bytes) (hrunning : (k.nodes n).server.crashed = false) :
      Step setups k [.process n (.pushed element)]
        (k.put n ⟨{ (k.nodes n).server with tasks := (k.nodes n).server.tasks ++ [element] }, (k.nodes n).pending⟩)
  | execute {k : Cluster} (n id : Nat) (command : RedisCommand) (rest : List (Nat × RedisCommand))
      (hpending : (k.nodes n).pending = (id, command) :: rest) :
      Step setups k [.executed n id command] (k.execute n command rest)

abbrev Reached (setups : Nat → Setup) (tasks : Nat → List Bytes) : List Observation → Cluster → Prop :=
  Run (Start tasks) (Step setups)

/-! ### What one process sees -/

def Observation.process? (n : Nat) : Observation → Option Server.Observation
  | .process n' o => if n' = n then some o else none
  | .executed _ _ _ => none

/-- What process `n` has shown. -/
def view (n : Nat) (trace : List Observation) : List Server.Observation :=
  trace.filterMap (Observation.process? n)

def Observation.executed? (n id : Nat) : Observation → Option RedisCommand
  | .process _ _ => none
  | .executed n' id' command => if n' = n ∧ id' = id then some command else none

/-- The commands of a connection that Redis has executed. -/
def executed (n id : Nat) (trace : List Observation) : List RedisCommand :=
  trace.filterMap (Observation.executed? n id)

/-- The commands of a connection that Redis has not executed. -/
def waiting (k : Cluster) (n id : Nat) : List RedisCommand :=
  (k.nodes n).pending.filterMap fun p => if p.1 = id then some p.2 else none

section views

variable {setups : Nat → Setup} {tasks : Nat → List Bytes} {trace shown : List Observation} {k k' : Cluster}
  {n n' id : Nat}

theorem view_append (n : Nat) (trace shown : List Observation) :
    view n (trace ++ shown) = view n trace ++ view n shown :=
  List.filterMap_append

theorem executed_append (n id : Nat) (trace shown : List Observation) :
    executed n id (trace ++ shown) = executed n id trace ++ executed n id shown := List.filterMap_append

theorem view_map_self (n : Nat) (shown : List Server.Observation) : view n (shown.map (.process n)) = shown := by
  rw [view, List.filterMap_map]
  have hsome : Observation.process? n ∘ Observation.process n = some := by
    funext o
    simp [Observation.process?]
  rw [hsome, List.filterMap_some]

theorem view_map_ne (hne : n' ≠ n) (shown : List Server.Observation) : view n (shown.map (.process n')) = [] := by
  rw [view, List.filterMap_map, List.filterMap_eq_nil_iff]
  intro o _
  simp [Observation.process?, hne]

theorem executed_map (n id n' : Nat) (shown : List Server.Observation) :
    executed n id (shown.map (.process n')) = [] := by
  rw [executed, List.filterMap_map, List.filterMap_eq_nil_iff]
  exact fun _ _ => rfl

/-- The commands of a step that come from one connection. -/
theorem filterMap_sent (id : Nat) (shown : List Server.Observation) :
    (sent shown).filterMap (fun p => if p.1 = id then some p.2 else none) =
      LPushConn.commands (Server.view id shown) := by
  rw [sent, List.filterMap_filterMap, LPushConn.commands, Server.view, List.filterMap_filterMap]
  apply List.filterMap_congr
  intro o _
  cases o with
  | conn id' e =>
      cases e with
      | redis command =>
          by_cases hid : id' = id
          · simp [command?, Server.Observation.effect?, hid, LPushConn.Effect.command?]
          · simp [command?, Server.Observation.effect?, hid]
      | _ => by_cases hid : id' = id <;> simp [command?, Server.Observation.effect?, hid, LPushConn.Effect.command?]
  | _ => rfl

/-- What a process has shown is a run of its server, and its commands are executed or wait. -/
structure Projects (setups : Nat → Setup) (tasks : Nat → List Bytes) (trace : List Observation) (k : Cluster) :
    Prop where
  node : ∀ n, Server.Reached (setups n) (tasks n) (view n trace) (k.nodes n).server
  commands : ∀ n id, executed n id trace ++ k.waiting n id = LPushConn.commands (Server.view id (view n trace))

/-- Process `n` has moved, with what it has shown. -/
theorem Projects.moves (h : Projects setups tasks trace k) (n : Nat)
    (hother : ∀ n', n' ≠ n → k'.nodes n' = k.nodes n' ∧ view n' shown = [] ∧ ∀ id, executed n' id shown = [])
    (hserver : Server.Reached (setups n) (tasks n) (view n trace ++ view n shown) (k'.nodes n).server)
    (hcommands : ∀ id, executed n id shown ++ k'.waiting n id =
      k.waiting n id ++ LPushConn.commands (Server.view id (view n shown))) :
    Projects setups tasks (trace ++ shown) k' := by
  refine ⟨fun n' => ?_, fun n' id => ?_⟩
  · rw [view_append]
    by_cases hn : n' = n
    · rw [hn]
      exact hserver
    · obtain ⟨hnode, hview, -⟩ := hother n' hn
      rw [hnode, hview, List.append_nil]
      exact h.node n'
  · rw [view_append, executed_append, Server.view_append, LPushConn.commands_append]
    by_cases hn : n' = n
    · rw [hn, List.append_assoc, hcommands, ← List.append_assoc, h.commands]
    · obtain ⟨hnode, hview, hexecuted⟩ := hother n' hn
      have hwaiting : k'.waiting n' id = k.waiting n' id := by rw [waiting, waiting, hnode]
      rw [hview, hexecuted, hwaiting, List.append_nil, h.commands]
      exact (List.append_nil _).symm

theorem Projects.step (h : Projects setups tasks trace k) (hstep : Step setups k shown k') :
    Projects setups tasks (trace ++ shown) k' := by
  cases hstep with
  | process n hidle hserver =>
      refine h.moves n (fun n' hne => ⟨put_of_ne k _ hne, view_map_ne (Ne.symm hne) _, fun id => executed_map ..⟩)
        ?_ fun id => ?_
      · rw [view_map_self, put_self]
        exact (h.node n).next hserver
      · rw [view_map_self, executed_map, waiting, waiting, put_self, hidle, filterMap_sent]
        rfl
  | rpush n element hrunning =>
      have hview : view n [.process n (.pushed element)] = [.pushed element] := view_map_self n [.pushed element]
      have hpushed := (h.node n).next (Server.Step.rpush element hrunning)
      refine h.moves n (fun n' hne => ⟨put_of_ne k _ hne, view_map_ne (Ne.symm hne) [.pushed element], fun _ => rfl⟩)
        ?_ fun id => ?_
      · rw [hview, put_self]
        exact hpushed
      · rw [hview, waiting, waiting, put_self]
        exact (List.append_nil _).symm
  | execute n id command rest hpending =>
      have hview : view n [.executed n id command] = [] := rfl
      refine h.moves n (fun n' hne => ⟨execute_of_ne k _ _ hne, rfl, fun id' => ?_⟩) ?_ fun id' => ?_
      · simp [executed, Observation.executed?, Ne.symm hne]
      · rw [hview, List.append_nil, execute_server]
        exact h.node n
      · have hquiet : LPushConn.commands (Server.view id' (view n [.executed n id command])) = [] := rfl
        rw [hquiet, List.append_nil, waiting, waiting, execute_self, hpending]
        by_cases hid : id = id'
        · simp [executed, Observation.executed?, hid]
        · simp [executed, Observation.executed?, hid]

theorem Reached.projects (hrun : Reached setups tasks trace k) : Projects setups tasks trace k := by
  refine hrun.invariant (Projects setups tasks) (fun k hstart => ⟨fun n => ?_, fun n id => ?_⟩)
    fun _ _ _ _ => Projects.step
  · rw [hstart n]
    exact .start rfl
  · rw [waiting, hstart n]
    rfl

end views

/-! ### Schedules -/

inductive Move where
  | process (n : Nat) (m : Server.Move)
  /-- Redis executes the next command of process `n`. -/
  | execute (n : Nat)

/-- One move; `none` if it is not possible now. -/
def move (setups : Nat → Setup) (k : Cluster) : Move → Option (Cluster × List Observation)
  | .process n m =>
      match (k.nodes n).pending, (k.nodes n).server.move (setups n) m with
      | [], some (s, shown) => some (k.put n ⟨s, sent shown⟩, shown.map (.process n))
      | _, _ => none
  | .execute n =>
      match (k.nodes n).pending with
      | [] => none
      | (id, command) :: rest =>
          some (k.execute n command rest, [.executed n id command])

/-- Moves one after the other, as long as they are allowed. -/
def play (setups : Nat → Setup) (allows : Cluster → Move → Bool) :
    Cluster → List Move → Option (Cluster × List Observation)
  | k, [] => some (k, [])
  | k, m :: moves =>
      if allows k m then
        match k.move setups m with
        | none => none
        | some (k, shown) =>
            match play setups allows k moves with
            | none => none
            | some (k, more) => some (k, shown ++ more)
      else none

section play

variable {setups : Nat → Setup} {tasks : Nat → List Bytes} {trace shown : List Observation} {k k' : Cluster}
  {allows : Cluster → Move → Bool}

theorem step_of_move (hrun : Reached setups tasks trace k) {m : Move} {next : Cluster × List Observation}
    (hmove : k.move setups m = some next) : Step setups k next.2 next.1 := by
  cases m with
  | process n m =>
      simp only [move] at hmove
      split at hmove
      · rename_i s shown hidle hserver
        cases hmove
        exact .process n hidle ((hrun.projects.node n).step_of_move hserver)
      · cases hmove
  | execute n =>
      simp only [move] at hmove
      split at hmove
      · cases hmove
      · rename_i id command rest hpending
        cases hmove
        exact .execute n id command rest hpending

/-- **What a schedule computes is a run** of every part of the step relation that has the moves it
allows, `good` being what the states in between are known to be. -/
theorem run_of_play {init : Cluster → Prop} {step : Cluster → List Observation → Cluster → Prop}
    (good : Cluster → Prop)
    (hstep : ∀ k m next, good k → allows k m = true → Step setups k next.2 next.1 →
      k.move setups m = some next → step k next.2 next.1 ∧ good next.1)
    {before : List Observation} (hreached : Reached setups tasks before k) (hrun : Run init step trace k)
    (hgood : good k) {moves : List Move} (hplay : play setups allows k moves = some (k', shown)) :
    Run init step (trace ++ shown) k' := by
  induction moves generalizing k trace before shown with
  | nil =>
      cases hplay
      rwa [List.append_nil]
  | cons m moves ih =>
      rw [play] at hplay
      split at hplay
      · rename_i hallows
        split at hplay
        · cases hplay
        · rename_i k₁ first hmove
          split at hplay
          · cases hplay
          · rename_i k₂ more hmore
            cases hplay
            have hmoved := step_of_move hreached hmove
            obtain ⟨hnext, hgood'⟩ := hstep k m _ hgood hallows hmoved hmove
            rw [← List.append_assoc]
            exact ih (hreached.next hmoved) (hrun.next hnext) hgood' hmore
      · cases hplay

/-- A schedule without restrictions. -/
theorem Reached.play {before : List Observation} {init : Cluster → Prop} (hreached : Reached setups tasks before k)
    (hrun : Run init (Step setups) trace k) {moves : List Move}
    (hplay : Cluster.play setups (fun _ _ => true) k moves = some (k', shown)) :
    Run init (Step setups) (trace ++ shown) k' :=
  run_of_play (fun _ => True) (fun _ _ _ _ _ hstep _ => ⟨hstep, trivial⟩) hreached hrun trivial hplay

end play

end Cluster

end LinkedonPush
