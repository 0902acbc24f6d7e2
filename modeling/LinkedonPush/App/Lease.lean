import LinkedonPush.App.Accounting
import LinkedonPush.App.Presence
import LinkedonPush.Theory.Lease

/-!
# Presence in time

The key of a user is written with a time to live. Here the processes share a Redis in which it
counts: a command is executed at some time, and times do not go back. What the processes do does not
depend on the keys they write, so the runs are those of the cluster.
-/

namespace LinkedonPush

open Theory

/-- How many milliseconds an `EXPIRE` lets a key last. -/
def RedisCommand.ttl : RedisCommand → Nat
  | .expire _ seconds => seconds * 1000
  | _ => 0

namespace LPushConn

section commands

variable {conf : LPushConfig} {platform : Platform} {names : Names} {entry : Entry} {command : RedisCommand}
  {trace : List Effect} {c : LPushConn}

/-- What follows an announcement. -/
theorem Entry.Sound.follows (h : entry.Sound conf platform names) (hmem : command ∈ entry.commands names) :
    command ∈ names.renewal ∨ command ∈ names.disposal ∨
      ∃ key value, command = RedisClient.lPushForList key value := by
  cases entry with
  | disposed => exact .inr (.inl hmem)
  | answered frame commands =>
      cases h with
      | hreatbeat htype => exact .inl hmem
      | close htype => exact .inr (.inl hmem)
      | push beyond ret commands htype hresult =>
          exact .inr (.inr (recvPushCallback_commands hresult command hmem))
      | other htype => exact (List.not_mem_nil hmem).elim

/-- A key is set to the host, once, before anything else, and is kept for a minute. -/
structure Orders (conf : LPushConfig) (key : Bytes) (commands : List RedisCommand) : Prop where
  host : ∀ key' value, .set key' value ∈ commands → key' = key ∧ value = cStr conf.hostname
  first : ∀ before after value, commands = before ++ .set key value :: after → before = []
  seconds : ∀ key' seconds, .expire key' seconds ∈ commands → seconds = 60

/-- The commands behind the first one set nothing. -/
theorem orders_announcement (conf : LPushConfig) (utime : Int) (msg : LPushHandshakeMessage)
    {entries : List Entry} (hsound : ∀ entry ∈ entries, entry.Sound conf platform (.create conf msg)) :
    Orders conf (cStr (msg.appId ++ msg.userId))
      (announcement conf utime msg ++ entries.flatMap (Entry.commands (.create conf msg))) := by
  have hlater : ∀ command ∈ (announcement conf utime msg).tail ++
      entries.flatMap (Entry.commands (.create conf msg)),
      (∀ key value, command ≠ .set key value) ∧ ∀ key seconds, command = .expire key seconds → seconds = 60 := by
    intro command hmem
    rcases List.mem_append.mp hmem with hannounced | hentry
    · have hthree : command = RedisClient.expire (msg.appId ++ msg.userId) 60 ∨
          ∃ key score value, command = RedisClient.zadd key score value := by
        simp only [announcement, List.tail_cons, List.mem_cons, List.not_mem_nil, or_false] at hannounced
        rcases hannounced with hexpire | hzadd | hzadd
        · exact .inl hexpire
        · exact .inr ⟨_, _, _, hzadd⟩
        · exact .inr ⟨_, _, _, hzadd⟩
      rcases hthree with rfl | ⟨key, score, value, rfl⟩
      · constructor <;> intro _ _ heq <;> cases heq
        rfl
      · constructor <;> intro _ _ heq <;> cases heq
    · obtain ⟨entry, hentry, hcommand⟩ := List.mem_flatMap.mp hentry
      rcases (hsound entry hentry).follows hcommand with hrenewal | hdisposal | ⟨key, value, rfl⟩
      · simp only [Names.renewal, List.mem_cons, List.not_mem_nil, or_false] at hrenewal
        rcases hrenewal with rfl | rfl | rfl
        · constructor <;> intro _ _ heq <;> cases heq
        · constructor <;> intro _ _ heq <;> cases heq
        · constructor <;> intro _ _ heq <;> cases heq
          rfl
      · simp only [Names.disposal, List.mem_cons, List.not_mem_nil, or_false] at hdisposal
        rcases hdisposal with rfl | rfl | rfl <;> constructor <;> intro _ _ heq <;> cases heq
      · constructor <;> intro _ _ heq <;> cases heq
  have hsplit : announcement conf utime msg ++ entries.flatMap (Entry.commands (.create conf msg)) =
      RedisClient.set (msg.appId ++ msg.userId) conf.hostname :: ((announcement conf utime msg).tail ++
        entries.flatMap (Entry.commands (.create conf msg))) := rfl
  rw [hsplit]
  refine ⟨fun key' value hmem => ?_, fun before after value heq => ?_, fun key' seconds hmem => ?_⟩
  · rcases List.mem_cons.mp hmem with heq | hmem
    · cases heq
      exact ⟨rfl, rfl⟩
    · exact ((hlater _ hmem).1 key' value rfl).elim
  · cases before with
    | nil => rfl
    | cons first before =>
        obtain ⟨-, hrest⟩ := List.cons.inj heq
        have hmem : RedisCommand.set (cStr (msg.appId ++ msg.userId)) value ∈
            (announcement conf utime msg).tail ++ entries.flatMap (Entry.commands (.create conf msg)) := by
          rw [hrest]
          exact List.mem_append_right _ List.mem_cons_self
        exact ((hlater _ hmem).1 _ _ rfl).elim
  · rcases List.mem_cons.mp hmem with heq | hmem
    · cases heq
    · exact (hlater _ hmem).2 key' seconds rfl

theorem Orders.left {key : Bytes} {commands more : List RedisCommand} (h : Orders conf key (commands ++ more)) :
    Orders conf key commands where
  host := fun key' value hmem => h.host key' value (List.mem_append_left _ hmem)
  first := fun before after value heq => h.first before (after ++ more) value (by rw [heq, List.append_assoc]; rfl)
  seconds := fun key' seconds hmem => h.seconds key' seconds (List.mem_append_left _ hmem)

theorem Reasoned.orders (h : Reasoned conf platform trace c) : ∃ key, Orders conf key (commands trace) := by
  cases h with
  | silent hphase hcommands hhanded =>
      rw [hcommands]
      exact ⟨[], fun _ _ hmem => (List.not_mem_nil hmem).elim,
        fun before after value heq => (List.append_eq_nil_iff.mp heq.symm).1,
        fun _ _ hmem => (List.not_mem_nil hmem).elim⟩
  | announced msg utime entries unanswered _ _ hcommands _ _ hsound =>
      rw [hcommands]
      exact ⟨_, orders_announcement conf utime msg hsound⟩

end commands

/-! ### A key is deleted by `do_dispose` only -/

section dispose

variable {env : Env} {w : World} {c : LPushConn} {p : Progress} {conf : LPushConfig}

theorem Asks.dispose {r : Record} {disposed : Bool} {key : Bytes} (h : Asks r disposed (.del key)) :
    disposed = true := by
  generalize hcommand : RedisCommand.del key = command at h
  cases h with
  | del hdisposed => exact hdisposed
  | _ => cases hcommand

/-- `dispose` stays set, and a key is deleted when it is. -/
theorem Turn.dispose (h : Turn env w c p) :
    (c.dispose = true → p.1.dispose = true) ∧ ∀ key, .del key ∈ commands p.2 → p.1.dispose = true := by
  have hquiet : ∀ key, outward p.2 = [] → .del key ∉ commands p.2 := by
    intro key houtward
    rw [commands_of_outward_nil houtward]
    exact List.not_mem_nil
  have hkept : ∀ r : Record, p.1.record = r → r.dispose = c.dispose → c.dispose = true → p.1.dispose = true := by
    rintro r rfl hsame hdisposed
    exact hsame.trans hdisposed
  have hends : Ends c p.1 → c.dispose = true → p.1.dispose = true := by
    rintro (⟨-, hrecord⟩ | ⟨-, hrecord⟩)
    · exact hkept _ hrecord rfl
    · exact hkept _ hrecord rfl
  have hannounced : ∀ key msg, outward p.2 = (announcement env.conf w.utime msg).map .redis →
      .del key ∉ commands p.2 := by
    intro key msg houtward
    rw [commands_of_outward houtward]
    simp [announcement, RedisClient.set, RedisClient.expire, RedisClient.zadd]
  cases h with
  | stays hrecord houtward => exact ⟨hkept _ hrecord rfl, fun key hmem => (hquiet key houtward hmem).elim⟩
  | refused msg _ _ hrecord houtward | enrolled msg _ _ hrecord houtward =>
      exact ⟨hkept _ hrecord rfl, fun key hmem => (hannounced key msg houtward hmem).elim⟩
  | connects msg _ hrecord houtward =>
      refine ⟨hkept _ hrecord rfl, fun key hmem => ?_⟩
      rw [commands_eq_outward, houtward] at hmem
      exact (List.not_mem_nil hmem).elim
  | finishes _ hfinishes =>
      refine ⟨hends hfinishes.ends, fun key hmem => ?_⟩
      rw [commands_of_leaving hfinishes.outward_eq] at hmem
      exact (List.not_mem_nil hmem).elim
  | ends _ houtward hends' => exact ⟨hends hends', fun key hmem => (hquiet key houtward hmem).elim⟩
  | asks _ hasking =>
      refine ⟨hasking.dispose, fun key hmem => ?_⟩
      obtain ⟨commands, houtward, hcommands⟩ := hasking.commands
      rw [commands_of_outward houtward] at hmem
      exact (hcommands _ hmem).dispose

/-- **A key is deleted by `do_dispose` only**, in every history. -/
theorem history_dispose {surroundings : Env → Prop} {trace : List Effect} {key : Bytes}
    (hconf : ∀ env, surroundings env → env.conf = conf) (hrun : History surroundings trace c)
    (hdel : .del key ∈ commands trace) : c.dispose = true := by
  induction hrun with
  | start haccepted => exact (List.not_mem_nil hdel).elim
  | next hbefore hstep ih =>
      rw [commands_append] at hdel
      cases hstep with
      | thread env w thread henv hstep =>
          have hcoherent := (history_proper hbefore).2 (crashed_of_step hstep)
          have hfiled := history_filed hconf hbefore
          obtain ⟨hkept, hdeleted⟩ := (turn_step hcoherent (hcoherent.orderly hfiled.stage) hstep).dispose
          rcases List.mem_append.mp hdel with hpast | hnow
          · exact hkept (ih hpast)
          · exact hdeleted key hnow
      | queued msg hrunning hpush =>
          obtain ⟨client, -, rfl⟩ := Option.map_eq_some_iff.mp hpush
          exact (List.mem_append.mp hdel).elim ih fun hnow => (List.not_mem_nil hnow).elim

end dispose

end LPushConn

namespace Cluster

/-! ### Runs in time -/

/-- A cluster at a time, in milliseconds. -/
structure Clocked where
  cluster : Cluster
  clock : Nat

abbrev Timeline := List (Nat × Observation)

/-- A step of the cluster, not before the last one. -/
inductive Clocked.Step (setups : Nat → Setup) : Clocked → Timeline → Clocked → Prop where
  | mk {k : Clocked} {shown : List Observation} {cluster : Cluster} (clock : Nat) (hclock : k.clock ≤ clock)
      (h : Cluster.Step setups k.cluster shown cluster) :
      Step setups k (shown.map (Prod.mk clock)) ⟨cluster, clock⟩

abbrev Clocked.Reached (setups : Nat → Setup) (tasks : Nat → List Bytes) : Timeline → Clocked → Prop :=
  Run (fun k => Start tasks k.cluster) (Clocked.Step setups)

/-- What Redis is given, with its time. -/
def stamped? : Nat × Observation → Option (Stamped Bytes)
  | (time, .executed _ _ command) => some ⟨time, command.write, command.ttl⟩
  | _ => none

/-- What Redis holds after the run. -/
def leases (start : Leasespace Bytes) (trace : Timeline) : Leasespace Bytes := start.run (trace.filterMap stamped?)

/-- The key is set or deleted. -/
def Replaces (key : Bytes) : Observation → Prop
  | .executed _ _ (.set key' _) => key' = key
  | .executed _ _ (.del key') => key' = key
  | _ => False

def renewedAt? (key : Bytes) : Nat × Observation → Option Nat
  | (time, .executed _ _ (.expire key' _)) => if key' = key then some time else none
  | _ => none

/-- When the time to live of the key was set. -/
def renewals (key : Bytes) (trace : Timeline) : List Nat := trace.filterMap (renewedAt? key)

section timeline

variable {setups : Nat → Setup} {tasks : Nat → List Bytes} {trace before after : Timeline} {k : Clocked}
  {start : Leasespace Bytes} {key host : Bytes} {now : Nat}

/-- Without the times it is a run of the cluster. -/
theorem Clocked.Reached.untimed (hrun : Clocked.Reached setups tasks trace k) :
    Cluster.Reached setups tasks (trace.map Prod.snd) k.cluster := by
  induction hrun with
  | start hinit => exact .start hinit
  | next _ hstep ih =>
      cases hstep with
      | mk clock hclock h =>
          rw [List.map_append, List.map_map]
          have hsame : Prod.snd ∘ Prod.mk clock = (id : Observation → Observation) := rfl
          rw [hsame, List.map_id]
          exact ih.next h

/-- Times do not go back. -/
theorem Clocked.Reached.pairwise (hrun : Clocked.Reached setups tasks trace k) :
    (trace.map Prod.fst).Pairwise (· ≤ ·) ∧ ∀ o ∈ trace, o.1 ≤ k.clock := by
  induction hrun with
  | start hinit => exact ⟨.nil, fun _ hmem => (List.not_mem_nil hmem).elim⟩
  | next _ hstep ih =>
      cases hstep with
      | mk clock hclock h =>
          rename_i shown cluster
          obtain ⟨hsorted, hpast⟩ := ih
          have htimes : (shown.map (Prod.mk clock)).map Prod.fst = List.replicate shown.length clock := by
            rw [List.map_map]
            exact List.map_const'
          refine ⟨?_, fun o ho => ?_⟩
          · rw [List.map_append, htimes, List.pairwise_append]
            refine ⟨hsorted, List.pairwise_replicate.mpr (.inr le_rfl), fun t ht t' ht' => ?_⟩
            obtain ⟨o, ho, rfl⟩ := List.mem_map.mp ht
            rw [List.eq_of_mem_replicate ht']
            exact (hpast o ho).trans hclock
          · rcases List.mem_append.mp ho with hold | hnew
            · exact (hpast o hold).trans hclock
            · obtain ⟨o', -, rfl⟩ := List.mem_map.mp hnew
              exact le_rfl

theorem stamped?_time {o : Nat × Observation} {w : Stamped Bytes} (h : stamped? o = some w) : w.time = o.1 := by
  obtain ⟨time, o⟩ := o
  cases o with
  | executed n id command =>
      cases h
      rfl
  | process n o => cases h

theorem sublist_times (trace : Timeline) :
    ((trace.filterMap stamped?).map Stamped.time).Sublist (trace.map Prod.fst) := by
  induction trace with
  | nil => exact .slnil
  | cons o trace ih =>
      rw [List.map_cons, List.filterMap_cons]
      cases h : stamped? o with
      | none => exact ih.cons _
      | some w =>
          rw [List.map_cons, stamped?_time h]
          exact ih.cons_cons _

theorem Clocked.Reached.chain (hrun : Clocked.Reached setups tasks trace k) (hnow : k.clock ≤ now) :
    List.IsChain (· ≤ ·) ((trace.filterMap stamped?).map Stamped.time ++ [now]) := by
  obtain ⟨hsorted, hpast⟩ := hrun.pairwise
  refine List.Pairwise.isChain (List.pairwise_append.mpr
    ⟨hsorted.sublist (sublist_times trace), List.pairwise_singleton _ _, fun t ht t' ht' => ?_⟩)
  obtain ⟨o, ho, rfl⟩ := List.mem_map.mp ((sublist_times trace).subset ht)
  rw [List.mem_singleton.mp ht']
  exact (hpast o ho).trans hnow

/-- The commands of a connection are as they are ordered. -/
theorem Clocked.Reached.orders (hrun : Clocked.Reached setups tasks trace k) (n id : Nat) :
    ∃ key more, LPushConn.Orders (setups n).conf key (executed n id (trace.map Prod.snd) ++ more) := by
  have hprojects := hrun.untimed.projects
  have hcommands := hprojects.commands n id
  cases hc : (k.cluster.nodes n).server.conns id with
  | some c =>
      obtain ⟨key, horders⟩ := ((hprojects.node n).reasoned hc).orders
      rw [← hcommands] at horders
      exact ⟨key, _, horders⟩
  | none =>
      have hsilent : Server.view id (view n (trace.map Prod.snd)) = [] := (hprojects.node n).projects.unseen id hc
      rw [hsilent] at hcommands
      obtain ⟨hnone, -⟩ := List.append_eq_nil_iff.mp hcommands
      rw [hnone]
      exact ⟨[], [], fun _ _ hmem => (List.not_mem_nil hmem).elim,
        fun before after value heq => (List.append_eq_nil_iff.mp heq.symm).1,
        fun _ _ hmem => (List.not_mem_nil hmem).elim⟩

/-! ### Leases -/

theorem stamped?_spares {o : Nat × Observation} {w : Stamped Bytes} (h : stamped? o = some w) :
    (¬ w.Sets key ∧ w.write ≠ .del key) ↔ ¬ Replaces key o.2 := by
  obtain ⟨time, o⟩ := o
  cases o with
  | process n o => cases h
  | executed n id command =>
      cases h
      cases command with
      | set key' value | del key' => simp [Stamped.Sets, Replaces, RedisCommand.write]
      | _ => simp [Stamped.Sets, Replaces, RedisCommand.write]

theorem stamped?_renewal (key : Bytes) (o : Nat × Observation) :
    (((stamped? o).bind (Stamped.renewal? key)).map Prod.fst) = renewedAt? key o := by
  obtain ⟨time, o⟩ := o
  cases o with
  | process n o => rfl
  | executed n id command =>
      cases command with
      | expire key' seconds =>
          by_cases hkey : key' = key
          · simp [stamped?, Stamped.renewal?, RedisCommand.write, renewedAt?, hkey]
          · simp [stamped?, Stamped.renewal?, RedisCommand.write, renewedAt?, hkey]
      | _ => rfl

theorem renewals_eq (key : Bytes) (trace : Timeline) :
    ((trace.filterMap stamped?).filterMap (Stamped.renewal? key)).map Prod.fst = renewals key trace := by
  rw [List.filterMap_filterMap, List.map_filterMap]
  exact List.filterMap_congr fun o _ => stamped?_renewal key o

theorem replaced_of_mem {o : Nat × Observation} (h : Replaces key o.2) : ∃ w, stamped? o = some w := by
  obtain ⟨time, o⟩ := o
  cases o with
  | process n o => exact h.elim
  | executed n id command => exact ⟨_, rfl⟩

theorem executed_of_mem {time n id : Nat} {command : RedisCommand} (h : (time, .executed n id command) ∈ trace) :
    command ∈ executed n id (trace.map Prod.snd) :=
  List.mem_filterMap.mpr ⟨_, List.mem_map_of_mem h, if_pos ⟨rfl, rfl⟩⟩

/-- Every renewal lasts a minute. -/
theorem Clocked.Reached.minute (hrun : Clocked.Reached setups tasks trace k) (key : Bytes) :
    ∀ r ∈ (trace.filterMap stamped?).filterMap (Stamped.renewal? key), r.2 = 60000 := by
  intro r hr
  obtain ⟨w, hw, hrenewal⟩ := List.mem_filterMap.mp hr
  obtain ⟨⟨time, o⟩, ho, hstamped⟩ := List.mem_filterMap.mp hw
  cases o with
  | process n o => cases hstamped
  | executed n id command =>
      cases hstamped
      cases command with
      | expire key' seconds =>
          obtain ⟨-, heq⟩ := Option.ite_none_right_eq_some.mp hrenewal
          cases heq
          obtain ⟨_, more, horders⟩ := hrun.orders n id
          rw [horders.seconds key' seconds (List.mem_append_left more (executed_of_mem ho))]
          rfl
      | _ => cases hrenewal

/-- The renewals of a last part of a run. -/
theorem Clocked.Reached.lasts_iff (hrun : Clocked.Reached setups tasks trace k) (htrace : trace = before ++ after) :
    Lasts none ((after.filterMap stamped?).filterMap (Stamped.renewal? key)) now ↔
      List.IsChain (fun a b => b ≤ a + 60000) (renewals key after ++ [now]) := by
  have hminute : 60000 ≠ 0 := by decide
  rw [← renewals_eq, lasts_none_iff hminute]
  intro r hr
  apply hrun.minute key r
  rw [htrace, List.filterMap_append, List.filterMap_append]
  exact List.mem_append_right _ hr

/-- A host that nobody has replaced is found while the renewals come in time. -/
theorem Clocked.Reached.found_after (hrun : Clocked.Reached setups tasks trace k) {time n id : Nat}
    (htrace : trace = before ++ (time, .executed n id (.set key host)) :: after)
    (hafter : ∀ o ∈ after, ¬ Replaces key o.2) (hnow : k.clock ≤ now) :
    (leases start trace).textAt now key = some host ↔
      List.IsChain (fun a b => b ≤ a + 60000) (renewals key after ++ [now]) := by
  have hspares : ∀ w ∈ after.filterMap stamped?, ¬ w.Sets key ∧ w.write ≠ .del key := by
    intro w hw
    obtain ⟨o, ho, hstamped⟩ := List.mem_filterMap.mp hw
    exact (stamped?_spares hstamped).mpr (hafter o ho)
  have hsplit : trace.filterMap stamped? =
      before.filterMap stamped? ++ ⟨time, .set key host, 0⟩ :: after.filterMap stamped? := by
    rw [htrace, List.filterMap_append]
    rfl
  have htimes := hrun.chain hnow
  rw [hsplit, List.map_append, List.append_assoc] at htimes
  have hlater : trace = (before ++ [(time, .executed n id (.set key host))]) ++ after := by
    rw [htrace, List.append_assoc]
    rfl
  rw [leases, hsplit, Leasespace.textAt_after_set _ _ rfl (fun w hw => (hspares w hw).1)
    (Leasespace.chain_of_split htimes), hrun.lasts_iff hlater]
  exact ⟨fun h => h.2.2, fun h => ⟨rfl, fun w hw => (hspares w hw).2, h⟩⟩

/-- What is found under a key is what was set there last, unless it was deleted or has lapsed. -/
theorem Clocked.Reached.found_iff (hrun : Clocked.Reached setups tasks trace k) (hstart : start key = none)
    (hnow : k.clock ≤ now) : (leases start trace).textAt now key = some host ↔
      ∃ before time n id after, trace = before ++ (time, .executed n id (.set key host)) :: after ∧
        (∀ o ∈ after, ¬ Replaces key o.2) ∧
          List.IsChain (fun a b => b ≤ a + 60000) (renewals key after ++ [now]) := by
  constructor
  · rw [leases, Leasespace.textAt_run_empty hstart (hrun.chain hnow)]
    rintro ⟨writes, w, more, hwrites, hw, hafter, hlasts⟩
    obtain ⟨first, rest, rfl, -, hrest⟩ := List.filterMap_eq_append_iff.mp hwrites
    obtain ⟨quiet, ⟨time, o⟩, after, rfl, -, hstamped, rfl⟩ := List.filterMap_eq_cons_iff.mp hrest
    cases o with
    | process n o => cases hstamped
    | executed n id command =>
        cases hstamped
        have hcommand : command = .set key host := by
          cases command with
          | set key' value =>
              cases hw
              rfl
          | _ => cases hw
        subst hcommand
        refine ⟨first ++ quiet, time, n, id, after, by rw [List.append_assoc], fun o ho hreplaces => ?_, ?_⟩
        · obtain ⟨w, hw⟩ := replaced_of_mem hreplaces
          exact (stamped?_spares hw).mp (hafter w (List.mem_filterMap.mpr ⟨o, ho, hw⟩)) hreplaces
        · have hsplit : first ++ (quiet ++ (time, .executed n id (.set key host)) :: after) =
              (first ++ quiet ++ [(time, .executed n id (.set key host))]) ++ after := by simp
          exact (hrun.lasts_iff hsplit).mp hlasts
  · rintro ⟨before, time, n, id, after, htrace, hafter, hlasts⟩
    exact (hrun.found_after htrace hafter hnow).mpr hlasts

/-- **Presence is a lease.** In a Redis that began without the key, a host is found there exactly if
some process set it last, no `do_dispose` of anybody has deleted it since, and no two renewals, nor
the last one and the present, are more than a minute apart. -/
theorem presence_leased (hrun : Clocked.Reached setups tasks trace k) (hstart : start key = none)
    (hnow : k.clock ≤ now) : (leases start trace).textAt now key = some host ↔
      ∃ before time n id after, trace = before ++ (time, .executed n id (.set key host)) :: after ∧
        host = cStr (setups n).conf.hostname ∧ (∀ o ∈ after, ¬ Replaces key o.2) ∧
        List.IsChain (fun a b => b ≤ a + 60000) (renewals key after ++ [now]) := by
  rw [hrun.found_iff hstart hnow]
  constructor
  · rintro ⟨before, time, n, id, after, htrace, hafter, hlasts⟩
    obtain ⟨_, more, horders⟩ := hrun.orders n id
    have hmem : (time, Observation.executed n id (.set key host)) ∈ trace := by
      rw [htrace]
      exact List.mem_append_right _ List.mem_cons_self
    have hhost := (horders.host key host (List.mem_append_left more (executed_of_mem hmem))).2
    exact ⟨before, time, n, id, after, htrace, hhost, hafter, hlasts⟩
  · rintro ⟨before, time, n, id, after, htrace, -, hafter, hlasts⟩
    exact ⟨before, time, n, id, after, htrace, hafter, hlasts⟩

/-- The key of a client is the one its connection announced. -/
theorem clientKey_of_live (hrun : Clocked.Reached setups tasks trace k) {n id : Nat} {c : LPushConn}
    {client : LPushClient} (hlive : k.cluster.Live n id c client) : c.clientKey = client.appId ++ client.userId := by
  have hstage := (((hrun.untimed.projects.node n)).filed hlive.conn).stage
  have hclient : c.record.client = some client.bare := by rw [LPushConn.record, hlive.client_eq, Option.map_some]
  have hkey : ∀ (msg : LPushHandshakeMessage) (r : Record), c.record = r → r.client = some (.create c.stfd msg) →
      r.clientKey = msg.appId ++ msg.userId → c.clientKey = client.appId ++ client.userId := by
    rintro msg r rfl hcreated hnamed
    have hbare : client.bare = .create c.stfd msg := Option.some.inj (hclient.symm.trans hcreated)
    have happId : client.bare.appId = msg.appId := congrArg LPushClient.appId hbare
    have huserId : client.bare.userId = msg.userId := congrArg LPushClient.userId hbare
    change c.record.clientKey = client.bare.appId ++ client.bare.userId
    rw [happId, huserId, hnamed]
  generalize hrecord : c.record = r at hstage
  generalize hphase : c.point.phase = phase at hstage
  cases hstage with
  | running msg address dispose | leaving msg address dispose => exact hkey msg _ hrecord rfl rfl
  | connecting msg => exact hkey msg _ hrecord rfl rfl
  | _ => rcases hlive.completed with h | h <;> cases hphase.symm.trans h

theorem executed_split (before after : Timeline) (time n id : Nat) (command : RedisCommand) :
    executed n id ((before ++ (time, .executed n id command) :: after).map Prod.snd) =
      executed n id (before.map Prod.snd) ++ command :: executed n id (after.map Prod.snd) := by
  rw [List.map_append, executed_append, List.map_cons, executed, executed, List.filterMap_cons]
  simp [Observation.executed?, executed]

/-- Nobody renews a key before the only connection that uses it. -/
theorem renewals_before {n id : Nat} (hsole : ∀ time n' id' command, (time, .executed n' id' command) ∈ before →
      command.write.key = key → n' = n ∧ id' = id)
    (hnothing : executed n id (before.map Prod.snd) = []) : renewals key before = [] := by
  rw [renewals, List.filterMap_eq_nil_iff]
  rintro ⟨time, o⟩ ho
  cases o with
  | process n' o => rfl
  | executed n' id' command =>
      cases command with
      | expire key' seconds =>
          refine if_neg fun hsame => ?_
          obtain ⟨rfl, rfl⟩ := hsole time n' id' _ ho hsame
          have hmem := executed_of_mem ho
          rw [hnothing] at hmem
          exact List.not_mem_nil hmem
      | _ => rfl

/-- A connection with a client has announced it. -/
theorem commands_ne_nil {setup : Setup} {tasks : List Bytes} {trace : List Server.Observation} {s : Server}
    (hrun : Server.Reached setup tasks trace s) {id : Nat} {c : LPushConn} (hc : s.conns id = some c)
    (hclient : c.client ≠ none) : LPushConn.commands (Server.view id trace) ≠ [] := by
  have hrecord : c.record.client ≠ none := by rwa [LPushConn.record, ne_eq, Option.map_eq_none_iff]
  cases hrun.reasoned hc with
  | silent hphase =>
      have hstage := (hrun.filed hc).stage
      generalize c.record = r at hstage hrecord
      generalize c.point.phase = phase at hstage hphase
      rcases hphase with rfl | rfl | rfl <;> cases hstage <;> exact (hrecord rfl).elim
  | announced msg utime entries unanswered _ _ hsent =>
      rw [hsent]
      exact List.cons_ne_nil _ _

/-- Redis has executed the first commands of a connection before that goes on. -/
theorem Reached.executed_ne_nil {trace : List Observation} {k : Cluster} (hrun : Cluster.Reached setups tasks trace k) :
    ∀ n id c client, k.Online n id c client → c.point.phase ≠ .connecting → executed n id trace ≠ [] := by
  induction hrun with
  | start hinit =>
      intro n id c client honline
      have hconn := honline.conn
      rw [hinit n] at hconn
      cases hconn
  | @next trace shown k k' hbefore hstep ih =>
      have hbefore : Cluster.Reached setups tasks trace k := hbefore
      intro n id c client honline hphase
      have hold : k.Online n id c client → executed n id (trace ++ shown) ≠ [] := by
        intro honline₀ hnil
        rw [executed_append, List.append_eq_nil_iff] at hnil
        exact ih n id c client honline₀ hphase hnil.1
      cases hstep with
      | @process shown s n' hidle hserver =>
          by_cases hn : n = n'
          · subst hn
            obtain ⟨-, hconn, hclient, hundisposed⟩ := honline
            rw [put_self] at hconn
            have hrecord : c.record.client = some client.bare := by rw [LPushConn.record, hclient, Option.map_some]
            rcases (hbefore.projects.node n).client_step hserver hconn hrecord hundisposed with
              ⟨c₀, hc₀, hrecord₀, -⟩ | ⟨hconnecting, -⟩
            · have hclient₀ : c₀.client ≠ none := by
                intro hnone
                rw [LPushConn.record, hnone] at hrecord₀
                cases hrecord₀
              -- nothing of what it has said waits
              have hcommands := hbefore.projects.commands n id
              rw [waiting, hidle, List.filterMap_nil, List.append_nil] at hcommands
              rw [executed_append, executed_map, List.append_nil, hcommands]
              exact commands_ne_nil (hbefore.projects.node n) hc₀ hclient₀
            · exact (hphase hconnecting).elim
          · have hnode := put_of_ne k (⟨s, sent shown⟩ : Node) hn
            exact hold (honline.congr (by rw [hnode]) (by rw [hnode]))
      | rpush n' element hrunning =>
          apply hold
          by_cases hn : n = n'
          · rw [hn] at honline ⊢
            exact honline.congr (by rw [put_self]) (by rw [put_self])
          · exact honline.congr (by rw [put_of_ne k _ hn]) (by rw [put_of_ne k _ hn])
      | execute n' id' command rest hpending =>
          exact hold (honline.congr (by rw [execute_server]) (by rw [execute_server]))

/-- What Redis has executed of a live connection begins with its `SET`, and it has not deleted anything. -/
theorem live_orders (hrun : Clocked.Reached setups tasks trace k) {n id : Nat} {c : LPushConn}
    {client : LPushClient} (hlive : k.cluster.Live n id c client)
    (hkey : key = cStr (client.appId ++ client.userId)) :
    (∃ rest, executed n id (trace.map Prod.snd) = .set key (cStr (setups n).conf.hostname) :: rest) ∧
      LPushConn.Orders (setups n).conf key (executed n id (trace.map Prod.snd)) ∧
      ∀ key', .del key' ∉ executed n id (trace.map Prod.snd) := by
  have hprojects := hrun.untimed.projects
  have hcommands := hprojects.commands n id
  have hne : executed n id (trace.map Prod.snd) ≠ [] := by
    refine hrun.untimed.executed_ne_nil n id c client hlive.toOnline ?_
    rcases hlive.completed with h | h <;> rw [h] <;> decide
  have hdel : ∀ key', .del key' ∉ executed n id (trace.map Prod.snd) := by
    intro key' hmem
    have hsaid : .del key' ∈ LPushConn.commands (Server.view id (view n (trace.map Prod.snd))) := by
      rw [← hcommands]
      exact List.mem_append_left _ hmem
    have hdisposed := LPushConn.history_dispose (fun _ henv => henv.1) ((hprojects.node n).history hlive.conn) hsaid
    exact Bool.false_ne_true (hlive.undisposed.symm.trans hdisposed)
  cases (hprojects.node n).reasoned hlive.conn with
  | silent hphase =>
      rcases hlive.completed with h | h <;> rw [h] at hphase <;> exact absurd hphase (by decide)
  | announced msg utime entries unanswered hbears _ hsent _ _ hsound =>
      have hopen : c.point.phase ≠ .closed := by
        rcases hlive.completed with h | h <;> rw [h] <;> decide
      have hnamed : key = cStr (msg.appId ++ msg.userId) := by
        rw [hkey, ← clientKey_of_live hrun hlive]
        exact congrArg cStr (hbears hopen).clientKey
      rw [hsent] at hcommands
      refine ⟨?_, ?_, hdel⟩
      · obtain ⟨first, rest, hfirst⟩ := List.exists_cons_of_ne_nil hne
        rw [hfirst] at hcommands ⊢
        rw [hnamed]
        exact ⟨rest, congrArg (· :: rest) (List.cons.inj hcommands).1⟩
      · have horders := LPushConn.orders_announcement (setups n).conf utime msg hsound
        rw [← hcommands, ← hnamed] at horders
        exact horders.left

/-- **A user with one connection** is found at its host exactly while the renewals come in time: nothing
but a late renewal ends the presence of a live connection. -/
theorem sole_presence (hrun : Clocked.Reached setups tasks trace k) {n id : Nat} {c : LPushConn}
    {client : LPushClient} (hlive : k.cluster.Live n id c client)
    (hkey : key = cStr (client.appId ++ client.userId))
    (hsole : ∀ time n' id' command, (time, .executed n' id' command) ∈ trace → command.write.key = key →
      n' = n ∧ id' = id) (hnow : k.clock ≤ now) :
    (leases start trace).textAt now key = some (cStr (setups n).conf.hostname) ↔
      List.IsChain (fun a b => b ≤ a + 60000) (renewals key trace ++ [now]) := by
  obtain ⟨⟨rest, hfirst⟩, horders, hdel⟩ := live_orders hrun hlive hkey
  have hset : RedisCommand.set key (cStr (setups n).conf.hostname) ∈ executed n id (trace.map Prod.snd) := by
    rw [hfirst]
    exact List.mem_cons_self
  obtain ⟨o, ho, hexecuted⟩ := List.mem_filterMap.mp hset
  obtain ⟨⟨time, o⟩, hstep, rfl⟩ := List.mem_map.mp ho
  cases o with
  | process n' o => cases hexecuted
  | executed n' id' command =>
      obtain ⟨⟨rfl, rfl⟩, heq⟩ := Option.ite_none_right_eq_some.mp hexecuted
      obtain rfl := Option.some.inj heq
      obtain ⟨before, after, htrace⟩ := List.append_of_mem hstep
      -- before its `SET` nobody has used the key
      have hnothing : executed n' id' (before.map Prod.snd) = [] :=
        horders.first _ _ _ (by rw [htrace, executed_split])
      have hquiet : renewals key before = [] := by
        refine renewals_before (fun time' n₁ id₁ command hmem => hsole time' n₁ id₁ command ?_) hnothing
        rw [htrace]
        exact List.mem_append_left _ hmem
      have hrenewals : renewals key trace = renewals key after := by
        rw [htrace, renewals, List.filterMap_append]
        change renewals key before ++ renewals key after = renewals key after
        rw [hquiet, List.nil_append]
      rw [hrenewals]
      refine hrun.found_after htrace (fun o hmore hreplaces => ?_) hnow
      obtain ⟨time', o⟩ := o
      have hlater : (time', o) ∈ trace := by
        rw [htrace]
        exact List.mem_append_right _ (List.mem_cons_of_mem _ hmore)
      cases o with
      | process n₁ o => exact hreplaces.elim
      | executed n₁ id₁ command =>
          cases command with
          | set key' host =>
              obtain rfl : key' = key := hreplaces
              obtain ⟨rfl, rfl⟩ := hsole time' n₁ id₁ _ hlater rfl
              -- a second `SET` would have the first one before it
              obtain ⟨middle, last, hafter⟩ := List.append_of_mem (executed_of_mem hmore)
              have hsplit : executed n₁ id₁ (trace.map Prod.snd) =
                  (executed n₁ id₁ (before.map Prod.snd) ++
                    .set key' (cStr (setups n₁).conf.hostname) :: middle) ++ .set key' host :: last := by
                rw [htrace, executed_split, hafter, List.append_assoc, List.cons_append]
              exact List.cons_ne_nil _ _ (List.append_eq_nil_iff.mp (horders.first _ _ _ hsplit)).2
          | del key' =>
              obtain rfl : key' = key := hreplaces
              obtain ⟨rfl, rfl⟩ := hsole time' n₁ id₁ _ hlater rfl
              exact hdel key' (executed_of_mem hlater)
          | _ => exact hreplaces.elim

end timeline

/-! ### User 7 at one moment -/

/-- All steps of a run may come at the same time. -/
theorem Clocked.reached_of_untimed {setups : Nat → Setup} {tasks : Nat → List Bytes} {trace : List Observation}
    {k : Cluster} (hrun : Cluster.Reached setups tasks trace k) (clock : Nat) :
    Clocked.Reached setups tasks (trace.map (Prod.mk clock)) ⟨k, clock⟩ := by
  induction hrun with
  | @start k hinit => exact .start hinit
  | next _ hstep ih =>
      rw [List.map_append]
      exact ih.next (.mk clock le_rfl hstep)

/-- Only this connection has used the key. -/
def soleAt (n id : Nat) (key : Bytes) (trace : Timeline) : Bool :=
  trace.all fun o =>
    match o.2 with
    | .process _ _ => true
    | .executed n' id' command => command.write.key != key || (n' == n && id' == id)

theorem soleAt_spec {n id : Nat} {key : Bytes} {trace : Timeline} (h : soleAt n id key trace = true) :
    ∀ time n' id' command, (time, .executed n' id' command) ∈ trace → command.write.key = key →
      n' = n ∧ id' = id := by
  intro time n' id' command hmem hkey
  have hsole := List.all_eq_true.mp h _ hmem
  simpa [hkey] using hsole

/-- The key of user 7 after its connection to process 0. -/
def sevenKey : Bytes := text "app7"

theorem reached_arrived : ∃ trace k c client, Clocked.Reached deployment (fun _ => []) trace k ∧ k.clock = 0 ∧
    k.cluster.Live 0 0 c client ∧ sevenKey = cStr (client.appId ++ client.userId) ∧
      soleAt 0 0 sevenKey trace = true ∧ renewals sevenKey trace = [0] ∧
      (leases (fun _ => none) trace).textAt 60000 sevenKey = some (text "127.0.0.1:9737") := by
  have hplays : (play deployment (fun _ _ => true) fresh (arrives 0)).any (fun next =>
      ((next.1.liveAt 0 0).any fun p => sevenKey == cStr (p.2.appId ++ p.2.userId)) &&
        soleAt 0 0 sevenKey (next.2.map (Prod.mk 0)) &&
        (renewals sevenKey (next.2.map (Prod.mk 0)) == [0]) &&
        ((leases (fun _ => none) (next.2.map (Prod.mk 0))).textAt 60000 sevenKey ==
          some (text "127.0.0.1:9737"))) = true := by decide +kernel
  obtain ⟨⟨k, trace⟩, hplay, hwanted⟩ := (Option.any_eq_true _ _).mp hplays
  simp only [Bool.and_eq_true, beq_iff_eq] at hwanted
  obtain ⟨⟨⟨hlive, hsole⟩, hrenewals⟩, hfound⟩ := hwanted
  obtain ⟨⟨c, client⟩, hlive, hkey⟩ := (Option.any_eq_true _ _).mp hlive
  have hstart : Cluster.Reached deployment (fun _ => []) [] fresh := .start start_fresh
  have hrun := hstart.play hstart hplay
  exact ⟨_, _, c, client, Clocked.reached_of_untimed hrun 0, rfl, liveAt_spec hlive, beq_iff_eq.mp hkey, hsole,
    hrenewals, hfound⟩

/-- A minute later it is found. -/
theorem presence_leased_arrived : ∃ trace k, Clocked.Reached deployment (fun _ => []) trace k ∧ k.clock = 0 ∧
    ∃ before time n id after,
      trace = before ++ (time, .executed n id (.set sevenKey (text "127.0.0.1:9737"))) :: after ∧
        text "127.0.0.1:9737" = cStr (deployment n).conf.hostname ∧
        List.IsChain (fun a b => b ≤ a + 60000) (renewals sevenKey after ++ [60000]) := by
  obtain ⟨trace, k, c, client, hrun, hclock, -, -, -, -, hfound⟩ := reached_arrived
  have hnow : k.clock ≤ 60000 := by rw [hclock]; exact Nat.zero_le _
  obtain ⟨before, time, n, id, after, htrace, hhost, -, hlasts⟩ := (presence_leased hrun rfl hnow).mp hfound
  exact ⟨trace, k, hrun, hclock, before, time, n, id, after, htrace, hhost, hlasts⟩

/-- One millisecond more, and it is not. -/
theorem sole_presence_arrived : ∃ trace k c client, Clocked.Reached deployment (fun _ => []) trace k ∧
    k.cluster.Live 0 0 c client ∧
      (leases (fun _ => none) trace).textAt 60001 sevenKey ≠ some (cStr (deployment 0).conf.hostname) := by
  obtain ⟨trace, k, c, client, hrun, hclock, hlive, hkey, hsole, hrenewals, -⟩ := reached_arrived
  have hnow : k.clock ≤ 60001 := by rw [hclock]; exact Nat.zero_le _
  refine ⟨trace, k, c, client, hrun, hlive, fun hfound => ?_⟩
  have hchain := (sole_presence hrun hlive hkey (soleAt_spec hsole) hnow).mp hfound
  rw [hrenewals] at hchain
  exact absurd hchain (by decide)

end Cluster

end LinkedonPush
