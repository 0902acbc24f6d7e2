import LinkedonPush.App.Restart
import LinkedonPush.App.Turns

/-!
# From the list to the client

How long an element of the Redis list takes to its client. A pass of `cycle_all` takes up to 1001 elements
and a turn of the consum thread one message; an element waits for the passes and the turns of those in front
of it.
-/

namespace LinkedonPush

open Theory

namespace Server

/-! ### The passes -/

/-- How many passes have ended. -/
def passes (trace : List Observation) : Nat := (trace.filterMap Observation.trimmed?).length

/-- What the passes have come to, where `p` elements lay in the list and `d` had been dispatched before. -/
structure Passed (p d : Nat) (trace shown : List Observation) (s : Server) : Prop where
  ended : min (1001 * passes shown) p + d ≤ (dispatched (trace ++ shown)).length
  current : ∀ index, s.processor = .cycling index →
    min (1001 * (passes shown + 1)) p + d ≤ (dispatched (trace ++ shown)).length

section passes

variable {setup : Setup} {tasks : List Bytes} {trace shown more : List Observation} {s s' : Server} {p d n : Nat}

theorem passes_append (trace shown : List Observation) : passes (trace ++ shown) = passes trace + passes shown := by
  rw [passes, List.filterMap_append, List.length_append]
  rfl

theorem length_dispatched_le (trace shown more : List Observation) :
    (dispatched (trace ++ shown)).length ≤ (dispatched (trace ++ (shown ++ more))).length := by
  rw [← List.append_assoc, dispatched_append (trace ++ shown), List.length_append]
  exact Nat.le_add_right _ _

/-- A step that ends no pass and begins none. -/
theorem Passed.aside (h : Passed p d trace shown s) (hpasses : passes more = 0)
    (hprocessor : ∀ index, s'.processor = .cycling index → s.processor = .cycling index) :
    Passed p d trace (shown ++ more) s' where
  ended := by
    rw [passes_append, hpasses, Nat.add_zero]
    exact h.ended.trans (length_dispatched_le trace shown more)
  current := by
    intro index hcycling
    rw [passes_append, hpasses, Nat.add_zero]
    exact (h.current index (hprocessor index hcycling)).trans (length_dispatched_le trace shown more)

theorem Passed.ltrim {index : Nat} (h : Passed p d trace shown s) (hcycling : s.processor = .cycling index) :
    Passed p d trace (shown ++ (s.ltrim index).2) (s.ltrim index).1 where
  ended := by
    have hone : passes (s.ltrim index).2 = 1 := rfl
    rw [passes_append, hone]
    exact (h.current index hcycling).trans (length_dispatched_le trace shown _)
  current := fun _ hcycling => Processor.noConfusion hcycling

theorem passes_delivering {address : LPushWorkerMessage → Bytes × Bytes × Bytes}
    (hrun : Run (· = s) (Delivering address) shown s') : passes shown = 0 := by
  refine hrun.invariant (fun shown _ => passes shown = 0) (fun _ _ => rfl) ?_
  intro shown s more s' h hstep
  rw [passes_append, h]
  cases hstep <;> rfl

theorem passes_of_aside (hshown : ∀ o ∈ shown, o.Aside) : passes shown = 0 := by
  rw [passes, untrimmed_of_aside hshown]
  rfl

/-- Between two passes, what has not been dispatched lies in the list. -/
theorem Accounted.between (h : Accounted tasks trace s) (hbetween : s.Between) :
    Server.dispatched trace ++ s.tasks = tasks ++ produced trace := by
  rw [h.dispatched_eq hbetween, h.tasks]
  exact List.take_append_drop _ _

/-- The pass takes 1001 elements, or all. -/
theorem Passed.lrange {next : Server × List Observation} (h : Passed p d trace shown s)
    (hrun : Reached setup tasks (trace ++ shown) s) (hall : d + p ≤ (tasks ++ produced trace).length)
    (hfree : s.processor = .free) (hcycle : cycleAll setup.platform s = some next) :
    Passed p d trace (shown ++ next.2) next.1 := by
  obtain ⟨⟨s', index, taken⟩, hdispatch, rfl⟩ := Option.map_eq_some_iff.mp hcycle
  obtain ⟨-, -, htaken⟩ := dispatchAll_spec hrun.registered.clients hdispatch
  have hpasses : passes taken = 0 := passes_delivering (dispatchAll_run hdispatch)
  have hbetween : s.Between := fun index hcycling => by cases hfree.symm.trans hcycling
  have hlist := congrArg List.length (hrun.accounted.between hbetween)
  have hended := h.ended
  have hgrown : (tasks ++ produced trace).length ≤ (tasks ++ produced (trace ++ shown)).length := by
    rw [produced_append, ← List.append_assoc]
    exact (List.prefix_append _ _).length_le
  have hdispatched : (dispatched (trace ++ (shown ++ taken))).length =
      (dispatched (trace ++ shown)).length + min 1001 s.tasks.length := by
    rw [← List.append_assoc, dispatched_append (trace ++ shown), List.length_append, ← List.length_take]
    exact congrArg _ (congrArg List.length htaken)
  rw [List.length_append] at hlist
  refine ⟨?_, fun _ _ => ?_⟩
  · rw [passes_append, hpasses, hdispatched]
    omega
  · rw [passes_append, hpasses, hdispatched]
    omega

theorem Passed.step (h : Passed p d trace shown s) (hrun : Reached setup tasks (trace ++ shown) s)
    (hall : d + p ≤ (tasks ++ produced trace).length) (hstep : Step setup s more s') :
    Passed p d trace (shown ++ more) s' := by
  cases hstep with
  | thread id thread w hrunning hfree haddress hthread =>
      obtain ⟨c, c', effects, hc, hconn, rfl⟩ := threadStep_spec hthread
      refine h.aside (passes_of_aside (performAll_aside id _ effects)) fun index hcycling => ?_
      rwa [(performAll_frame ..).2.2.2.2] at hcycling
  | accept stfd beyond fcntl created hrunning hfree hfd =>
      rcases acceptClient_spec setup.conf stfd beyond fcntl created s with heq | ⟨c, -, heq⟩
      · rw [heq]
        exact h.aside rfl fun _ hcycling => hcycling
      · rw [heq]
        exact h.aside rfl fun _ hcycling => hcycling
  | rpush element hrunning => exact h.aside rfl fun _ hcycling => hcycling
  | lrange hrunning hfree hcycle => exact h.lrange hrun hall hfree hcycle
  | ltrim index hrunning hcycling => exact h.ltrim hcycling
  | page mie result hrunning hloading hpage =>
      have hdeliver := selectMongoHistoryLimit_run hpage
      refine h.aside (passes_delivering hdeliver) fun index hcycling => ?_
      rwa [delivering_frame hdeliver] at hcycling
  | request | loaded => exact h.aside rfl fun _ hcycling => Processor.noConfusion hcycling

theorem passed_of_run (hrun : Reached setup tasks trace s) (hbetween : s.Between)
    (hmore : Run (· = s) (Step setup) shown s') :
    Reached setup tasks (trace ++ shown) s' ∧ Passed s.tasks.length (dispatched trace).length trace shown s' := by
  have hlist := congrArg List.length (hrun.accounted.between hbetween)
  rw [List.length_append] at hlist
  refine hmore.invariant (fun shown s' => Reached setup tasks (trace ++ shown) s' ∧
    Passed s.tasks.length (dispatched trace).length trace shown s') ?_ ?_
  · rintro _ rfl
    rw [List.append_nil]
    refine ⟨hrun, ?_, fun index hcycling => (hbetween index hcycling).elim⟩
    rw [List.append_nil]
    exact le_of_eq (by simp [passes])
  · intro shown s₁ more s₂ h hstep
    obtain ⟨hrun₁, hpassed⟩ := h
    rw [← List.append_assoc]
    exact ⟨hrun₁.next hstep, hpassed.step hrun₁ hlist.le hstep⟩

/-- Every pass that ends takes the elements in the list 1001 further. -/
theorem dispatched_in_passes (hrun : Reached setup tasks trace s) (hbetween : s.Between)
    (hmore : Run (· = s) (Step setup) shown s') (hn : n ≤ s.tasks.length) (hpasses : n ≤ 1001 * passes shown) :
    s.tasks.take n <+: dispatched shown := by
  obtain ⟨hrun', hpassed⟩ := passed_of_run hrun hbetween hmore
  have hended := hpassed.ended
  have hearlier : dispatched trace ++ s.tasks.take n <+: tasks ++ produced (trace ++ shown) := by
    have hlist : dispatched trace ++ s.tasks.take n <+: tasks ++ produced trace := by
      rw [← hrun.accounted.between hbetween, List.prefix_append_right_inj]
      exact List.take_prefix n _
    rw [produced_append, ← List.append_assoc]
    exact hlist.trans (List.prefix_append _ _)
  have hprefix : dispatched trace ++ s.tasks.take n <+: dispatched (trace ++ shown) := by
    apply List.prefix_of_prefix_length_le hearlier hrun'.accounted.dispatched
    rw [List.length_append, List.length_take]
    omega
  rwa [dispatched_append, List.prefix_append_right_inj] at hprefix

end passes

/-! ### The messages of a user -/

section messages

variable {setup : Setup} {tasks : List Bytes} {trace shown more : List Observation} {s s' s₁ s₂ : Server}
  {id j k n : Nat} {c c' : LPushConn} {client client' : LPushClient}

/-- What is dispatched for the key of a client is pushed to it. -/
theorem Step.messages (hrun : Reached setup tasks trace s) (hstep : Step setup s shown s')
    (hc : s.conns id = some c) (hclient : c.client = some client) :
    ((dispatched shown).filterMap (messageFor setup.platform client.key)).Sublist (pushed (view id shown)) := by
  have haside : dispatched shown = [] →
      ((dispatched shown).filterMap (messageFor setup.platform client.key)).Sublist (pushed (view id shown)) := by
    intro hnone
    rw [hnone]
    exact List.nil_sublist _
  cases hstep with
  | thread id' thread w hrunning hfree haddress hthread =>
      obtain ⟨c₀, c₁, effects, hc₀, hconn, rfl⟩ := threadStep_spec hthread
      exact haside (dispatched_of_aside (performAll_aside id' _ effects))
  | accept stfd beyond fcntl created hrunning hfree hfd =>
      apply haside
      rcases acceptClient_spec setup.conf stfd beyond fcntl created s with heq | ⟨c₀, -, heq⟩
      · rw [heq]
        rfl
      · rw [heq]
        rfl
  | lrange hrunning hfree hcycle =>
      obtain ⟨⟨s₁, index, taken⟩, hdispatch, rfl⟩ := Option.map_eq_some_iff.mp hcycle
      obtain ⟨hstate, -, htaken⟩ := dispatchAll_spec hrun.registered.clients hdispatch
      obtain ⟨c', hc', hfed⟩ := fed_delivering (dispatchAll_run hdispatch) hc
      have hextended : some c' = some (c.extend fun key =>
          (batch s.tasks).filterMap (messageFor setup.platform key)) := by
        rw [← hc', hstate, conns_extend, hc]
        rfl
      have hwaiting := hfed.waiting
      rw [Option.some.inj hextended, LPushConn.waiting, LPushConn.extend, hclient,
        LPushConn.waiting_of_client hclient] at hwaiting
      have hpushed : (batch s.tasks).filterMap (messageFor setup.platform client.key) = pushed (view id taken) :=
        List.append_cancel_left hwaiting
      rw [← hpushed]
      change (List.filterMap _ (taken.filterMap Observation.dispatched?)).Sublist _
      rw [htaken]
  | page mie result hrunning hloading hpage =>
      apply haside
      unfold selectMongoHistoryLimit at hpage
      split at hpage
      · cases hpage
        rfl
      · exact dispatched_of_aside (loadAll_aside hpage)
  | rpush | ltrim | request | loaded => exact haside rfl

/-- A client keeps its key. -/
theorem Reached.key_eq (hrun : Reached setup tasks trace s) (hc : s.conns id = some c)
    (hclient : c.client = some client) (hrun' : Reached setup tasks (trace ++ shown) s')
    (hc' : s'.conns id = some c') (hclient' : c'.client = some client') : client'.key = client.key := by
  have hstanding := (LPushConn.history_vetted (hrun.history hc)).standing
  have hstanding' := (LPushConn.history_vetted (hrun'.history hc')).standing
  cases hstanding with
  | unknown hnone | forgotten _ hnone => cases hclient.symm.trans hnone
  | known msg₀ client₀ hsome hbare _ _ _ htrace =>
      cases hstanding' with
      | unknown hnone | forgotten _ hnone => cases hclient'.symm.trans hnone
      | known msg₁ client₁ hsome' hbare' _ _ _ htrace' =>
          obtain rfl := Option.some.inj (hclient.symm.trans hsome)
          obtain rfl := Option.some.inj (hclient'.symm.trans hsome')
          rw [view_append, LPushConn.registrations_append, htrace] at htrace'
          have hsame := Effect.createClient.inj (List.cons.inj htrace').1
          have hbares : client'.bare = client.bare := hbare'.trans (hsame.symm.trans hbare.symm)
          change client'.bare.key = client.bare.key
          rw [hbares]

theorem Stretch.run (h : Stretch setup id s k shown s') (hrun : Reached setup tasks trace s) :
    Run (· = s) (Step setup) shown s' := by
  induction h with
  | begins hwork => exact .start rfl
  | turn w hbefore hmove hwork ih =>
      exact ih.next ((hbefore.advanced hrun).1.step_of_move hmove)
  | other hbefore hstep hwork ih => exact ih.next hstep

theorem Stretch.messages (h : Stretch setup id s k shown s') (hrun : Reached setup tasks trace s)
    (hc : s.conns id = some c) (hclient : c.client = some client) :
    ((dispatched shown).filterMap (messageFor setup.platform client.key)).Sublist (pushed (view id shown)) := by
  have hnext : ∀ {k shown more s₁ s₂}, Stretch setup id s k shown s₁ → Step setup s₁ more s₂ →
      ((dispatched shown).filterMap (messageFor setup.platform client.key)).Sublist (pushed (view id shown)) →
        ((dispatched (shown ++ more)).filterMap (messageFor setup.platform client.key)).Sublist
          (pushed (view id (shown ++ more))) := by
    intro k shown more s₁ s₂ hbefore hstep ih
    have hrun₁ := (hbefore.advanced hrun).1
    obtain ⟨c₁, u, hc₁, hwork⟩ := hbefore.atWork
    obtain ⟨client₁, hclient₁, -⟩ := (hrun₁.conn_coherent hc₁ hwork.running).of_trd2 hwork.trd2
    have hmore := hstep.messages hrun₁ hc₁ hclient₁
    rw [hrun.key_eq hc hclient hrun₁ hc₁ hclient₁] at hmore
    rw [dispatched_append, List.filterMap_append, view_append, pushed_append]
    exact ih.append hmore
  induction h with
  | begins hwork => exact List.nil_sublist _
  | turn w hbefore hmove hwork ih =>
      exact hnext hbefore ((hbefore.advanced hrun).1.step_of_move hmove) ih
  | other hbefore hstep hwork ih => exact hnext hbefore hstep ih

/-- **How long an element takes**: as many passes as it takes to reach it in the list, and then as many turns
as its client has messages that are not delivered, and one more. -/
theorem delivered_in_time (hrun : Reached setup tasks trace s) (hbetween : s.Between) (hc : s.conns id = some c)
    (hclient : c.client = some client) (hwait : Stretch setup id s k shown s₁) (hn : n ≤ s.tasks.length)
    (hpasses : n ≤ 1001 * passes shown) (hserve : Stretch setup id s₁ j more s₂)
    (hturns : (pushed (view id (trace ++ shown))).length < (delivered (view id (trace ++ shown))).length + j) :
    (pushed (view id trace) ++ (s.tasks.take n).filterMap (messageFor setup.platform client.key)).Sublist
      (delivered (view id (trace ++ shown ++ more))) := by
  have hrun₁ := (hwait.advanced hrun).1
  have hreached : (s.tasks.take n).Sublist (dispatched shown) :=
    (dispatched_in_passes hrun hbetween (hwait.run hrun) hn hpasses).sublist
  have hpushed : (pushed (view id trace) ++
      (s.tasks.take n).filterMap (messageFor setup.platform client.key)).Sublist
        (pushed (view id (trace ++ shown))) := by
    rw [view_append, pushed_append]
    exact (List.Sublist.refl _).append ((hreached.filterMap _).trans (hwait.messages hrun hc hclient))
  have hserved := hserve.delivered hrun₁ le_rfl hturns
  rw [List.take_length] at hserved
  exact hpushed.trans hserved.sublist

end messages

/-! ### One element -/

/-- User 7 is active, and an element for it is in the list. -/
def listsOnce : List Move :=
  enters 0 7 1 (opening userSeven) ++ activates 0 1 2 ++ [.thread 0 .consum (calm 2), .rpush taskJson]

/-- The thread is at work for user 7. -/
def servesSeven (s : Server) : Bool :=
  (s.conns 0).any fun c => idles c && c.client.any fun client => client.key == text "7appkey"

theorem servesSeven_spec {s : Server} (h : servesSeven s = true) : ∃ c u client, s.conns 0 = some c ∧ c.AtWork u ∧
    c.client = some client ∧ client.key = text "7appkey" := by
  obtain ⟨c, hc, hserves⟩ := (Option.any_eq_true _ _).mp h
  obtain ⟨hidle, hclient⟩ := Bool.and_eq_true_iff.mp hserves
  obtain ⟨client, hclient, hkey⟩ := (Option.any_eq_true _ _).mp hclient
  obtain ⟨u, hwork⟩ := atWork_of_idles hidle
  exact ⟨c, u, client, hc, hwork, hclient, beq_iff_eq.mp hkey⟩

/-- A pass and two turns deliver it. -/
theorem delivered_in_time_listsOnce : ∃ trace s shown s₁ more s₂, Reached taskSetup [] trace s ∧
    s.tasks = [taskJson] ∧ Stretch taskSetup 0 s 0 shown s₁ ∧ passes shown = 1 ∧ Stretch taskSetup 0 s₁ 2 more s₂ ∧
      [taskMessage].Sublist (delivered (view 0 (trace ++ shown ++ more))) := by
  obtain ⟨trace, s, hrun, hwanted⟩ := reached_of_play taskSetup [] listsOnce
    (fun next => servesSeven next.1 && next.1.tasks == [taskJson] && decide (next.1.processor = .free) &&
      (next.1.move taskSetup .lrange).any fun first => servesSeven first.1 &&
        (first.1.move taskSetup .ltrim).any fun second => servesSeven second.1 &&
          (second.1.conns 0).any (fun c => c.waiting == [taskMessage]) &&
          (!second.1.crashed && decide (second.1.processor = .free)) && passes (first.2 ++ second.2) == 1 &&
          pushed (view 0 (next.2 ++ (first.2 ++ second.2))) == [taskMessage]) (by decide +kernel)
  simp only [Bool.and_eq_true, beq_iff_eq, decide_eq_true_eq, Bool.not_eq_true', Option.any_eq_true] at hwanted
  obtain ⟨⟨⟨hserves, htasks⟩, hfree⟩, ⟨s₀, first⟩, hlrange, hserves₀, ⟨s₁, second⟩, hltrim, hsecond⟩ := hwanted
  obtain ⟨⟨⟨⟨hserves₁, c', hc', hwaiting⟩, hrunning, hfree₁⟩, hpasses⟩, hpushed⟩ := hsecond
  obtain ⟨c, u, client, hc, hwork, hclient, hkey⟩ := servesSeven_spec hserves
  obtain ⟨c₀, u₀, -, hc₀, hwork₀, -⟩ := servesSeven_spec hserves₀
  obtain ⟨c₁, u₁, -, hc₁, hwork₁, -⟩ := servesSeven_spec hserves₁
  obtain rfl := Option.some.inj (hc₁.symm.trans hc')
  have hstep₀ := hrun.step_of_move hlrange
  have hrun₀ : Reached taskSetup [] (trace ++ first) s₀ := hrun.next hstep₀
  have hstep₁ := hrun₀.step_of_move hltrim
  have hwait : Stretch taskSetup 0 s 0 (first ++ second) s₁ :=
    ((Stretch.begins ⟨c, u, hc, hwork⟩).other hstep₀ ⟨c₀, u₀, hc₀, hwork₀⟩).other hstep₁ ⟨c₁, u₁, hc₁, hwork₁⟩
  have hfits : ∀ work ∈ c₁.waiting, (work.toJsonString taskSetup.platform).length < 2 ^ 31 - 5 := by
    intro work hmem
    rw [hwaiting, List.mem_singleton] at hmem
    rw [hmem]
    exact transmissible_task.length
  obtain ⟨more, s₂, -, -, hserve, -⟩ :=
    exists_stretch (hwait.advanced hrun).1 hrunning hfree₁ hc₁ hwork₁ hfits 2
  have hone : 1 ≤ s.tasks.length := by
    rw [htasks]
    decide
  have hbetween : s.Between := fun index hcycling => by cases hfree.symm.trans hcycling
  have htime := delivered_in_time hrun hbetween hc hclient hwait hone (by rw [hpasses]; decide) hserve (by
    rw [hpushed]
    exact Nat.lt_add_left _ (by decide))
  rw [htasks, hkey] at htime
  exact ⟨trace, s, first ++ second, s₁, more, s₂, hrun, htasks, hwait, hpasses, hserve,
    (List.sublist_append_right _ _).trans htime⟩

end Server

end LinkedonPush
