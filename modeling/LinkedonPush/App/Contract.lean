import LinkedonPush.App.Schedule
import LinkedonPush.App.Session

/-!
# Every connection of a server keeps to the session protocol

What a client can tell from the outside: the order of the frames it is sent, which of its own frames
are acted on, and that what is pushed to it arrives in order.
-/

namespace LinkedonPush

open Theory

/-! ### The writing side -/

namespace Writer

variable {writer : Writer} {writes : List (FrameKind × Bool)}

theorem Explains.conversation (h : writer.Explains writes) (hwriter : writer ≠ .broken) :
    Conversation (writes.map Prod.fst) := by
  cases writer with
  | opening =>
      obtain rfl : writes = [] := h
      exact .inl List.nil_prefix
  | accepted =>
      obtain rfl : writes = [(.handshake 1, true)] := h
      exact .inr (.inr (.inl (by decide)))
  | connected =>
      obtain ⟨n, rfl⟩ := h
      exact .inr (.inr (.inr ⟨n, by simp⟩))
  | finished => exact h.1
  | broken => exact (hwriter rfl).elim

/-- Only the last write can have failed. -/
theorem Explains.successful (h : writer.Explains writes) (hwriter : writer ≠ .broken) :
    ∀ write ∈ writes.dropLast, write.2 = true := by
  intro write hwrite
  cases writer with
  | opening =>
      obtain rfl : writes = [] := h
      exact (List.not_mem_nil hwrite).elim
  | accepted =>
      obtain rfl : writes = [(.handshake 1, true)] := h
      exact (List.not_mem_nil hwrite).elim
  | connected =>
      obtain ⟨n, rfl⟩ := h
      have hmem := List.dropLast_subset _ hwrite
      rcases List.mem_append.mp hmem with hopening | hpush
      · rcases List.mem_pair.mp hopening with rfl | rfl <;> rfl
      · rw [(List.mem_replicate.mp hpush).2]
  | finished => exact h.2 write hwrite
  | broken => exact (hwriter rfl).elim

end Writer

namespace LPushConn

/-- The push frame being written and the message it was made from. -/
def pushing (c : LPushConn) : Option (LPushWorkerMessage × LPushChunk) :=
  match c.trd2 with
  | some ⟨_, _, .writing work chunk⟩ => some (work, chunk)
  | _ => none

/-- The frame being written. -/
def writing (c : LPushConn) : Option LPushChunk :=
  match c.point with
  | .refusing chunk _ => some chunk
  | .accepting chunk => some chunk
  | .connecting chunk => some chunk
  | _ => c.pushing.map Prod.snd

section

variable {d : Dialogue} {c : LPushConn} {client : LPushClient} {work : LPushWorkerMessage} {chunk : LPushChunk}

theorem pushing_eq_some (h : c.pushing = some (work, chunk)) :
    ∃ u, c.trd2 = some u ∧ u.point = .writing work chunk := by
  unfold pushing at h
  split at h
  · rename_i trd canRun work' chunk' htrd2
    cases h
    exact ⟨_, htrd2, rfl⟩
  · cases h

theorem pushing_of_trd2_eq_none (h : c.trd2 = none) : c.pushing = none := by
  rw [pushing, h]

theorem pushing_of_point {u : LPushConsumThread} (h : c.trd2 = some u)
    (hpoint : ∀ work chunk, u.point ≠ .writing work chunk) : c.pushing = none := by
  rw [Option.eq_none_iff_forall_ne_some]
  rintro ⟨work, chunk⟩ hpushing
  obtain ⟨u', hu', hwriting⟩ := pushing_eq_some hpushing
  obtain rfl := Option.some.inj (h.symm.trans hu')
  exact hpoint work chunk hwriting

theorem Coherent.pushing (h : Coherent d c) (hpushing : c.pushing = some (work, chunk)) :
    d.writer = .connected ∧ frameKind chunk = .push := by
  obtain ⟨u, htrd2, hpoint⟩ := pushing_eq_some hpushing
  obtain ⟨client, -, hconsum, -⟩ := h.of_trd2 htrd2
  rw [ConsumOk, hpoint] at hconsum
  exact ⟨hconsum.1, hconsum.2.2.1⟩

/-- What is being written may follow what has been written, whatever becomes of it. -/
theorem Coherent.next_ne_broken (h : Coherent d c) (hwriting : c.writing = some chunk) (ok : Bool) :
    d.writer.next (frameKind chunk, ok) ≠ .broken := by
  have hpush : c.pushing.map Prod.snd = some chunk → d.writer.next (frameKind chunk, ok) ≠ .broken := by
    intro hmap
    obtain ⟨⟨work, chunk'⟩, hpushing, rfl⟩ := Option.map_eq_some_iff.mp hmap
    obtain ⟨hwriter, hkind⟩ := h.pushing hpushing
    rw [hwriter, hkind]
    cases ok <;> exact Writer.noConfusion
  unfold writing at hwriting
  cases h with
  | refusing chunk' ret hpoint halone hwrite =>
      rw [hpoint] at hwriting
      obtain rfl := Option.some.inj hwriting
      exact hwrite ok
  | accepting chunk' hpoint halone hquiet hkind =>
      rw [hpoint] at hwriting
      obtain rfl := Option.some.inj hwriting
      rw [hquiet.writer_eq, hkind]
      cases ok <;> exact Writer.noConfusion
  | connecting chunk' client hpoint htrd htrd2 hclient hquiet hkind =>
      rw [hpoint] at hwriting
      obtain rfl := Option.some.inj hwriting
      rw [hquiet.writer_eq, hkind]
      cases ok <;> exact Writer.noConfusion
  | opening hpoint => rcases hpoint with hp | hp <;> (rw [hp] at hwriting; exact hpush hwriting)
  | handshake r hpoint | createConnection r hpoint | joinConsum u client hpoint | closed hpoint =>
      rw [hpoint] at hwriting
      exact hpush hwriting
  | running t u client hpoint =>
      cases hp : c.point <;> rw [hp] at hpoint hwriting <;>
        first | exact hpoint.elim | exact hpush hwriting

/-- Until a push fails, what was pushed has been delivered, is being written or waits. -/
theorem Coherent.balance (h : Coherent d c) (hclient : c.client = some client) (hclean : d.pushFailed = false) :
    d.pushed = d.delivered ++ (c.pushing.map Prod.fst).toList ++ client.queue := by
  cases htrd2 : c.trd2 with
  | none =>
      rw [pushing_of_trd2_eq_none htrd2, Option.map_none, Option.toList_none, List.append_nil]
      cases h with
      | connecting chunk client' hpoint htrd htrd2' hclient' hquiet =>
          obtain rfl := Option.some.inj (hclient.symm.trans hclient')
          rw [hquiet.pushed, hquiet.delivered, List.nil_append]
      | running t u client' hpoint hactive => cases htrd2.symm.trans hactive.trd2
      | joinConsum u client' hpoint htrd htrd2' => cases htrd2.symm.trans htrd2'
      | opening hpoint halone => cases hclient.symm.trans halone.client
      | handshake r hpoint halone => cases hclient.symm.trans halone.client
      | refusing chunk ret hpoint halone => cases hclient.symm.trans halone.client
      | accepting chunk hpoint halone => cases hclient.symm.trans halone.client
      | createConnection r hpoint halone => cases hclient.symm.trans halone.client
      | closed hpoint halone => cases hclient.symm.trans halone.client
  | some u =>
      obtain ⟨client', hclient', hconsum, -⟩ := h.of_trd2 htrd2
      obtain rfl := Option.some.inj (hclient.symm.trans hclient')
      unfold ConsumOk at hconsum
      cases hp : u.point with
      | writing work chunk =>
          rw [hp] at hconsum
          have hpushing : c.pushing = some (work, chunk) := by
            obtain ⟨trd, canRun, point⟩ := u
            dsimp only at hp
            rw [LPushConn.pushing, htrd2, hp]
          rw [hpushing, hconsum.2.2.2, List.append_assoc]
          rfl
      | ended =>
          rw [hp] at hconsum
          rw [pushing_of_point htrd2 (by simp [hp])]
          rcases hconsum with hover | hidle
          · exact absurd (hclean.symm.trans hover.2) Bool.false_ne_true
          · rw [hidle.2.2, Option.map_none, Option.toList_none, List.append_nil]
      | _ =>
          rw [hp] at hconsum
          rw [pushing_of_point htrd2 (by simp [hp]), hconsum.2.2, Option.map_none, Option.toList_none,
            List.append_nil]

end

end LPushConn

/-! ### What the client can rely on -/

/-- The protocol of a session, as a client sees it. -/
structure SessionProtocol (trace : List Effect) (c : LPushConn) : Prop where
  /-- The frames written, the one being written included, start one of the four conversations. -/
  conversation : Conversation ((written trace).map fun write => frameKind write.1)
  conversation_writing : c.crashed = false → ∀ chunk, c.writing = some chunk →
    Conversation ((written trace).map (fun write => frameKind write.1) ++ [frameKind chunk])
  silent_after_failure : ∀ before chunk work after, trace = before ++ .wrote chunk false work :: after →
    written after = [] ∧ (c.crashed = false → c.writing = none)
  forward_connected : ∀ before lpc after, trace = before ++ .forward lpc :: after →
    ∃ chunk work, .wrote chunk true work ∈ before ∧ frameKind chunk = .connection 1
  /-- However the client goes on. -/
  prefix_handed : ∀ rest, handed trace <+: (frames (stream trace ++ rest)).drop 2
  handed_after_failure : ∀ before e after, trace = before ++ e :: after → e.readFailure = true →
    handed after = []

/-- First in, first out, for the messages pushed to a client. -/
structure FifoDelivery (trace : List Effect) (c : LPushConn) : Prop where
  balance : c.crashed = false → ∀ client, c.client = some client → trace.any Effect.pushFailure = false →
    pushed trace = delivered trace ++ (c.pushing.map Prod.fst).toList ++ client.queue
  prefix_delivered : delivered trace <+: pushed trace
  silent_after_failure : ∀ before chunk msg after, trace = before ++ .wrote chunk false (some msg) :: after →
    (∀ chunk' ok msg', .wrote chunk' ok (some msg') ∉ after) ∧ (c.crashed = false → c.pushing = none)
  pop_nonempty : .died .emptyPop ∉ trace

section

variable {trace : List Effect} {c : LPushConn}

theorem map_written (trace : List Effect) :
    (written trace).map (fun write => frameKind write.1) = (dialogue trace).kinds.map Prod.fst := by
  simp [Dialogue.kinds, dialogue]

theorem mem_written {chunk : LPushChunk} {ok : Bool} :
    (chunk, ok) ∈ written trace ↔ ∃ work, .wrote chunk ok work ∈ trace := by
  unfold written
  rw [List.mem_filterMap]
  constructor
  · rintro ⟨e, he, hwritten⟩
    cases e with
    | wrote chunk' ok' work =>
        cases hwritten
        exact ⟨work, he⟩
    | _ => cases hwritten
  · rintro ⟨work, he⟩
    exact ⟨_, he, rfl⟩

theorem mem_handed {lpc : LPushChunk} : lpc ∈ handed trace ↔ .forward lpc ∈ trace := by
  unfold handed
  rw [List.mem_filterMap]
  constructor
  · rintro ⟨e, he, hhanded⟩
    cases e with
    | forward lpc' =>
        cases hhanded
        exact he
    | _ => cases hhanded
  · intro he
    exact ⟨_, he, rfl⟩

theorem written_split {before after : List Effect} {chunk : LPushChunk} {ok : Bool}
    {work : Option LPushWorkerMessage} :
    written (before ++ .wrote chunk ok work :: after) = written before ++ (chunk, ok) :: written after := by
  simp [written]

theorem Proper.conversation (h : Proper trace) :
    Conversation ((written trace).map fun write => frameKind write.1) := by
  rw [map_written]
  exact (dialogue trace).explains_writer.conversation h.writer_ne_broken

theorem conversation_of_next {kind : FrameKind}
    (hnext : (dialogue trace).writer.next (kind, true) ≠ .broken) :
    Conversation ((written trace).map (fun write => frameKind write.1) ++ [kind]) := by
  have hconversation := ((dialogue trace).explains_writer.next (kind, true)).conversation hnext
  rwa [List.map_append, ← map_written] at hconversation

/-- A write that failed is the last one. -/
theorem Proper.written_after_failure (h : Proper trace) {before after : List Effect} {chunk : LPushChunk}
    {work : Option LPushWorkerMessage} (htrace : trace = before ++ .wrote chunk false work :: after) :
    written after = [] := by
  by_contra hafter
  have hok := (dialogue trace).explains_writer.successful h.writer_ne_broken
  have hkinds : (dialogue trace).kinds = (dialogue before).kinds ++ (frameKind chunk, false) ::
      (dialogue after).kinds := by
    simp only [Dialogue.kinds, dialogue, htrace, written_split, List.map_append, List.map_cons]
  have hne : (dialogue after).kinds ≠ [] := by
    simpa [Dialogue.kinds, dialogue] using hafter
  rw [hkinds, List.dropLast_append_of_ne_nil (List.cons_ne_nil _ _), List.dropLast_cons_of_ne_nil hne] at hok
  exact Bool.false_ne_true (hok (frameKind chunk, false) (by simp))

/-- Nor is one under way when a write has failed. -/
theorem next_eq_broken_after_failure {before after : List Effect} {chunk : LPushChunk}
    {work : Option LPushWorkerMessage} (htrace : trace = before ++ .wrote chunk false work :: after)
    (kind : FrameKind) : (dialogue trace).writer.next (kind, true) = .broken := by
  by_contra hnext
  have hok := ((dialogue trace).explains_writer.next (kind, true)).successful hnext
  have hkinds : (frameKind chunk, false) ∈ (dialogue trace).kinds := by
    simp only [Dialogue.kinds, dialogue, htrace, written_split, List.map_append, List.map_cons]
    exact List.mem_append_right _ List.mem_cons_self
  rw [List.dropLast_concat] at hok
  exact Bool.false_ne_true (hok _ hkinds)

theorem Proper.prefix_delivered (h : Proper trace) : delivered trace <+: pushed trace := by
  change (dialogue trace).delivered <+: (dialogue trace).pushed
  induction trace using List.reverseRecOn with
  | nil => exact List.nil_prefix
  | append_singleton trace e ih =>
      obtain ⟨htrace, hlegal⟩ := throughout_append_singleton.mp h
      rw [dialogue_append]
      have hmore := (ih htrace).trans (List.prefix_append _ e.pushed?.toList)
      cases e with
      | wrote chunk ok work =>
          cases ok with
          | true =>
              cases work with
              | none => simpa using hmore
              | some msg =>
                  rw [Dialogue.note_wrote_push]
                  exact hlegal.2 rfl msg rfl
          | false => cases work <;> simpa using hmore
      | _ => simpa [Dialogue.note] using hmore

theorem Proper.sessionProtocol (h : Proper trace)
    (hcoherent : c.crashed = false → LPushConn.Coherent (dialogue trace) c) : SessionProtocol trace c where
  conversation := h.conversation
  conversation_writing := fun hrunning chunk hwriting =>
    conversation_of_next ((hcoherent hrunning).next_ne_broken hwriting true)
  silent_after_failure := by
    intro before chunk work after htrace
    refine ⟨h.written_after_failure htrace, fun hrunning => ?_⟩
    rw [Option.eq_none_iff_forall_ne_some]
    intro chunk' hwriting
    exact (hcoherent hrunning).next_ne_broken hwriting true
      (next_eq_broken_after_failure htrace (frameKind chunk'))
  forward_connected := by
    intro before lpc after htrace
    obtain ⟨hconnected, -, -⟩ := h before (.forward lpc) after htrace
    obtain ⟨⟨chunk, ok⟩, hwrite, hkind⟩ := List.mem_map.mp hconnected
    obtain ⟨hconnection, rfl⟩ : frameKind chunk = .connection 1 ∧ ok = true := Prod.mk.inj hkind
    obtain ⟨work, hmem⟩ := mem_written.mp hwrite
    exact ⟨chunk, work, hmem, hconnection⟩
  prefix_handed := fun rest => h.prefix_handed.trans ((h.prefix_taken rest).drop 2)
  handed_after_failure := by
    intro before e after htrace hfailure
    rw [List.eq_nil_iff_forall_not_mem]
    intro lpc hmem
    obtain ⟨first, last, rfl⟩ := List.append_of_mem (mem_handed.mp hmem)
    have hlegal := h (before ++ e :: first) (.forward lpc) last (by rw [htrace]; simp)
    have hfailed : (dialogue (before ++ e :: first)).readFailed = true :=
      List.any_eq_true.mpr ⟨e, by simp, hfailure⟩
    exact Bool.false_ne_true (hlegal.2.1.symm.trans hfailed)

theorem Proper.fifoDelivery (h : Proper trace)
    (hcoherent : c.crashed = false → LPushConn.Coherent (dialogue trace) c) : FifoDelivery trace c where
  balance := fun hrunning _ hclient hclean => (hcoherent hrunning).balance hclient hclean
  prefix_delivered := h.prefix_delivered
  silent_after_failure := by
    intro before chunk msg after htrace
    refine ⟨fun chunk' ok msg' hmem => ?_, fun hrunning => ?_⟩
    · have hwritten := mem_written.mpr ⟨some msg', hmem⟩
      rw [h.written_after_failure htrace] at hwritten
      exact List.not_mem_nil hwritten
    · rw [Option.eq_none_iff_forall_ne_some]
      rintro ⟨work, chunk'⟩ hpushing
      obtain ⟨hwriter, hkind⟩ := (hcoherent hrunning).pushing hpushing
      have hbroken := next_eq_broken_after_failure htrace (frameKind chunk')
      rw [hwriter, hkind] at hbroken
      exact Writer.noConfusion hbroken
  pop_nonempty := by
    intro hmem
    obtain ⟨before, after, htrace⟩ := List.append_of_mem hmem
    exact h before (.died .emptyPop) after htrace

end

namespace Server

section contract

variable {setup : Setup} {tasks : List Bytes} {trace : List Observation} {s : Server}

/-- **The session protocol**, for every connection and at every moment of a run. -/
theorem session_protocol (hrun : Reached setup tasks trace s) (id : Nat) (c : LPushConn)
    (hc : s.conns id = some c) : SessionProtocol (view id trace) c := by
  obtain ⟨hproper, hcoherent⟩ := LPushConn.history_proper (hrun.history hc)
  exact hproper.sessionProtocol hcoherent

/-- **Every client gets what is pushed to it, in order.** -/
theorem fifo_delivery (hrun : Reached setup tasks trace s) (id : Nat) (c : LPushConn)
    (hc : s.conns id = some c) : FifoDelivery (view id trace) c := by
  obtain ⟨hproper, hcoherent⟩ := LPushConn.history_proper (hrun.history hc)
  exact hproper.fifoDelivery hcoherent

end contract

/-- What `pushesTwice` shows of user 7. -/
structure PushedTwice (trace : List Effect) (c : LPushConn) : Prop where
  running : c.crashed = false
  written : (written trace).map (fun write => (frameKind write.1, write.2)) =
    [(.handshake 1, true), (.connection 1, true), (.push, true), (.push, false)]
  handed : (handed trace).map LPushChunk.header = [(heartbeatChunk 0).header]
  pushed : pushed trace = [taskMessage, laterMessage]
  delivered : delivered trace = [taskMessage]

theorem reached_pushesTwice : ∃ trace s c, Reached laterSetup [] trace s ∧ s.conns 0 = some c ∧
    PushedTwice (view 0 trace) c := by
  obtain ⟨trace, s, hrun, hwanted⟩ := reached_of_play laterSetup [] pushesTwice
    (fun next => (next.1.conns 0).any (fun c => !c.crashed) = true ∧
      (written (view 0 next.2)).map (fun write => (frameKind write.1, write.2)) =
        [(.handshake 1, true), (.connection 1, true), (.push, true), (.push, false)] ∧
      (handed (view 0 next.2)).map LPushChunk.header = [(heartbeatChunk 0).header] ∧
      pushed (view 0 next.2) = [taskMessage, laterMessage] ∧ delivered (view 0 next.2) = [taskMessage])
    (by decide +kernel)
  obtain ⟨hconn, hwritten, hhanded, hpushed, hdelivered⟩ := of_decide_eq_true hwanted
  obtain ⟨c, hc, hrunning⟩ := (Option.any_eq_true _ _).mp hconn
  exact ⟨trace, s, c, hrun, hc, (Bool.not_eq_true' _).mp hrunning, hwritten, hhanded, hpushed, hdelivered⟩

/-- User 7 logs in, its heartbeat is handed over and one of its two tasks is written. -/
theorem session_protocol_pushesTwice : ∃ trace s c, Reached laterSetup [] trace s ∧ s.conns 0 = some c ∧
    PushedTwice (view 0 trace) c ∧ SessionProtocol (view 0 trace) c := by
  obtain ⟨trace, s, c, hrun, hc, hpushed⟩ := reached_pushesTwice
  exact ⟨trace, s, c, hrun, hc, hpushed, session_protocol hrun 0 c hc⟩

/-- The second task of user 7 is lost with the write that fails. -/
theorem fifo_delivery_pushesTwice : ∃ trace s c, Reached laterSetup [] trace s ∧ s.conns 0 = some c ∧
    PushedTwice (view 0 trace) c ∧ FifoDelivery (view 0 trace) c := by
  obtain ⟨trace, s, c, hrun, hc, hpushed⟩ := reached_pushesTwice
  exact ⟨trace, s, c, hrun, hc, hpushed, fifo_delivery hrun 0 c hc⟩

end Server

end LinkedonPush
