import LinkedonPush.App.Contract
import LinkedonPush.App.PushFrames
import LinkedonPush.App.Routing
import LinkedonPush.App.Schedule

/-!
# From the producers to the receiver

Every frame that a connection writes is one that its code builds, and every push frame is built from
a message of its queue. So what the receiver decodes are the messages that were pushed, in their
order, and each of them comes from a producer or from the history of the user.
-/

namespace LinkedonPush

open Theory LPushProtocol

/-- The frames of the server, with the message that a push frame is made from. -/
inductive Built (platform : Platform) : LPushChunk → Option LPushWorkerMessage → Prop where
  | handshake (now : Int) (issuccess : UInt8) : Built platform (LPushConn.sendHandshake now issuccess) none
  | createConnection (now : Int) (issuccess : UInt8) :
      Built platform (LPushConn.sendCreateConnection now issuccess) none
  | push {work : LPushWorkerMessage} {chunk : LPushChunk} (now : Int)
      (h : LPushConn.sendForward platform now work = some chunk) : Built platform chunk (some work)

/-- A write is one of a built frame. -/
def Effect.Built (platform : Platform) : Effect → Prop
  | .wrote chunk _ work => LinkedonPush.Built platform chunk work
  | _ => True

/-- What the cycle thread is writing. -/
def CyclePoint.chunk? : CyclePoint → Option LPushChunk
  | .refusing chunk _ | .accepting chunk | .connecting chunk => some chunk
  | _ => none

namespace LPushConn

/-- What the threads are writing is built. -/
structure Drafts (platform : Platform) (c : LPushConn) : Prop where
  cycle : ∀ chunk, c.point.chunk? = some chunk → Built platform chunk none
  consum : ∀ u, c.trd2 = some u → ∀ work chunk, u.point = .writing work chunk → Built platform chunk (some work)

structure Builds (platform : Platform) (p : Progress) : Prop where
  drafts : Drafts platform p.1
  effects : ∀ e ∈ p.2, e.Built platform

section builds

variable {platform : Platform} {env : Env} {w : World} {c c' : LPushConn} {p : Progress} {effects : List Effect}
  {t : LPushRecvThread} {u : LPushConsumThread}

theorem Drafts.of_eq (h : Drafts platform c) (hpoint : c'.point = c.point) (htrd2 : c'.trd2 = c.trd2) :
    Drafts platform c' where
  cycle := by
    rw [hpoint]
    exact h.cycle
  consum := by
    rw [htrd2]
    exact h.consum

/-- The cycle thread goes on to where it writes nothing. -/
theorem Drafts.moves (h : Drafts platform c) (hpoint : c'.point.chunk? = none) (htrd2 : c'.trd2 = c.trd2) :
    Drafts platform c' where
  cycle := by
    rw [hpoint]
    intro chunk hchunk
    cases hchunk
  consum := by
    rw [htrd2]
    exact h.consum

/-- It goes on to write a reply. -/
theorem Drafts.replies {chunk : LPushChunk} (h : Drafts platform c) (hpoint : c'.point.chunk? = some chunk)
    (htrd2 : c'.trd2 = c.trd2) (hbuilt : Built platform chunk none) : Drafts platform c' where
  cycle := by
    rw [hpoint]
    intro chunk' hchunk
    cases hchunk
    exact hbuilt
  consum := by
    rw [htrd2]
    exact h.consum

/-- The consum thread goes on to where it writes nothing. -/
theorem Drafts.rests (h : Drafts platform c) (hpoint : c'.point = c.point) (htrd2 : c'.trd2 = some u)
    (hresting : ∀ work chunk, u.point ≠ .writing work chunk) : Drafts platform c' where
  cycle := by
    rw [hpoint]
    exact h.cycle
  consum := by
    rw [htrd2]
    intro u' hu'
    cases hu'
    exact fun work chunk hwriting => (hresting work chunk hwriting).elim

/-- It stays where it is. -/
theorem Drafts.keeps {u' : LPushConsumThread} (h : Drafts platform c) (hu : c.trd2 = some u)
    (hpoint : c'.point.chunk? = none ∨ c'.point = c.point) (htrd2 : c'.trd2 = some u') (hsame : u'.point = u.point) :
    Drafts platform c' where
  cycle := by
    intro chunk hchunk
    rcases hpoint with hnone | heq
    · cases hnone.symm.trans hchunk
    · rw [heq] at hchunk
      exact h.cycle chunk hchunk
  consum := by
    rw [htrd2]
    intro v hv
    cases hv
    rw [hsame]
    exact h.consum u hu

theorem Builds.after (h : Builds platform p) (heffects : ∀ e ∈ effects, e.Built platform) :
    Builds platform (p.after effects) where
  drafts := h.drafts
  effects := fun e he => (List.mem_append.mp he).elim (heffects e) (h.effects e)

theorem Builds.after_cons {e : Effect} (he : e.Built platform) (h : Builds platform p) :
    Builds platform (p.after [e]) :=
  h.after (List.forall_mem_singleton.mpr he)

theorem Builds.after_message (ret : Int) (lpc : LPushChunk) (h : Builds platform p) :
    Builds platform (p.after [.message ret lpc]) :=
  .after_cons trivial h

theorem builds_stop (h : Drafts platform c) : Builds platform (c, []) := ⟨h, fun _ he => (List.not_mem_nil he).elim⟩

theorem builds_die (h : Drafts platform c) (fault : Fault) : Builds platform (c.die fault) :=
  ⟨h.of_eq rfl rfl, List.forall_mem_singleton.mpr trivial⟩

theorem OnlyRedis.built (h : OnlyRedis effects) : ∀ e ∈ effects, e.Built platform := by
  intro e he
  obtain ⟨command, rfl⟩ := h e he
  trivial

theorem Drafts.untouched (h : Drafts platform c) (hsame : c.Untouched c') : Drafts platform c' :=
  h.of_eq hsame.point hsame.trd2

/-! ### The cycle thread -/

theorem builds_release (c : LPushConn) : Builds platform c.release where
  drafts := ⟨nofun, nofun⟩
  effects := by
    unfold release
    cases c.client with
    | none => exact List.forall_mem_singleton.mpr trivial
    | some client => simp [Effect.Built]

theorem Drafts.deleteTrd2 (h : Drafts platform c) : Builds platform c.deleteTrd2 := by
  unfold LPushConn.deleteTrd2
  split
  · exact builds_release c
  · rename_i u htrd2
    dsimp only
    split
    · exact builds_release c
    · exact builds_release c
    · exact builds_stop (h.keeps htrd2 (.inl rfl) rfl rfl)

theorem Drafts.deleteTrd (h : Drafts platform c) : Builds platform c.deleteTrd := by
  unfold LPushConn.deleteTrd
  split
  · exact h.deleteTrd2
  · dsimp only
    split
    · exact (h.of_eq rfl rfl : Drafts platform { c with trd := none }).deleteTrd2
    · exact (h.of_eq rfl rfl : Drafts platform { c with trd := none }).deleteTrd2
    · exact builds_stop (h.moves rfl rfl)

theorem Drafts.finish (h : Drafts platform c) (ret : Int) : Builds platform (c.finish ret) := by
  unfold LPushConn.finish
  apply h.deleteTrd.after
  cases c.mie <;> simp [Effect.Built]

theorem Drafts.poll (h : Drafts platform c) : Builds platform c.poll := by
  unfold LPushConn.poll
  split
  · exact h.finish errorSuccess
  · split
    · exact h.finish errorConnHreatbeatTimeout
    · exact builds_stop (h.moves rfl rfl)

theorem Drafts.started (h : Drafts platform c) (w : World) : Builds platform (c.started w) :=
  (h.of_eq rfl rfl : Drafts platform { c with beforeDataTime := w.now, nowDataTime := w.now }).poll

theorem Drafts.startTrd2 (h : Drafts platform c) : Builds platform (c.startTrd2 w) := by
  unfold LPushConn.startTrd2
  split
  · exact builds_die h .nullPointer
  · rename_i u htrd2
    dsimp only
    split
    · exact builds_stop (h.keeps htrd2 (.inl rfl) rfl rfl)
    · have hnext : Drafts platform { c with trd2 := some { u with canRun := true } } :=
        h.keeps htrd2 (.inr rfl) rfl rfl
      exact hnext.started w

theorem Drafts.startTrd (h : Drafts platform c) : Builds platform (c.startTrd w) := by
  unfold LPushConn.startTrd
  split
  · exact builds_die h .nullPointer
  · dsimp only
    split
    · exact builds_stop (h.moves rfl rfl)
    · exact h.startTrd2

theorem Drafts.connected (h : Drafts platform c) : Builds platform (c.connected env w) := by
  unfold LPushConn.connected
  split
  · exact builds_die h .nullPointer
  · dsimp only
    refine Builds.after_cons trivial (Drafts.startTrd ⟨h.cycle, fun u hu => ?_⟩)
    cases hu
    intro work chunk hwriting
    cases hwriting

theorem Drafts.register (h : Drafts platform c) : Builds platform (c.register env w) := by
  unfold LPushConn.register
  split
  · exact builds_die h .nullPointer
  · dsimp only
    split
    · exact ⟨h.replies rfl rfl (.createConnection w.now 0x02), by simp [Effect.Built]⟩
    · exact ⟨h.replies rfl rfl (.createConnection w.now 0x01), by simp [Effect.Built]⟩

theorem Drafts.createConnection (h : Drafts platform c) (r : MessageReading) :
    Builds platform (c.createConnection env w r) := by
  cases r with
  | need size resume => exact builds_stop (h.moves rfl rfl)
  | abort => exact builds_die h .assertion
  | done result =>
      obtain ⟨ret, lpc, b⟩ := result
      have hnext : Drafts platform { c with lpushProtocol := some b } := h.of_eq rfl rfl
      simp only [LPushConn.createConnection]
      apply Builds.after_message
      split
      · exact hnext.finish ret
      · split
        · exact hnext.finish _
        · exact hnext.register

theorem Drafts.handshake (h : Drafts platform c) (r : MessageReading) :
    Builds platform (c.handshake env w r) := by
  cases r with
  | need size resume => exact builds_stop (h.moves rfl rfl)
  | abort => exact builds_die h .assertion
  | done result =>
      obtain ⟨ret, lpc, b⟩ := result
      have hnext : Drafts platform { c with lpushProtocol := some b } := h.of_eq rfl rfl
      simp only [LPushConn.handshake]
      apply Builds.after_message
      split
      · exact builds_stop (h.replies rfl rfl (.handshake w.now 0x00))
      · split
        · exact builds_die hnext .decoder
        · split
          · exact builds_stop (h.replies rfl rfl (.handshake w.now 0x00))
          · split
            · exact ⟨h.replies rfl rfl (.handshake w.now 0x02), List.forall_mem_singleton.mpr trivial⟩
            · exact ⟨h.replies rfl rfl (.handshake w.now 0x01), List.forall_mem_singleton.mpr trivial⟩

theorem Drafts.withProtocol {next : MessageReading → Progress} (h : Drafts platform c)
    (hnext : ∀ r, Builds platform (next r)) : Builds platform (c.withProtocol next) := by
  unfold LPushConn.withProtocol
  split
  · exact builds_die h .nullPointer
  · exact hnext _

theorem builds_cycle (h : Drafts platform c) (hstep : c.cycle env w = some p) : Builds platform p := by
  cases cycle_spec hstep with
  | created hpoint => exact h.withProtocol h.handshake
  | handshake size resume hpoint hallowed => exact .after_cons trivial (h.handshake _)
  | refusing chunk ret hpoint =>
      exact .after_cons (h.cycle chunk (congrArg CyclePoint.chunk? hpoint)) (h.finish ret)
  | unwritten chunk e hpoint hwrite =>
      have hchunk : c.point.chunk? = some chunk :=
        hpoint.elim (congrArg CyclePoint.chunk?) (congrArg CyclePoint.chunk?)
      exact .after_cons (h.cycle chunk hchunk) (h.finish _)
  | accepting chunk hpoint hwrite =>
      exact .after_cons (h.cycle chunk (congrArg CyclePoint.chunk? hpoint)) (h.withProtocol h.createConnection)
  | createConnection size resume hpoint hallowed => exact .after_cons trivial (h.createConnection _)
  | connecting chunk hpoint hwrite =>
      exact .after_cons (h.cycle chunk (congrArg CyclePoint.chunk? hpoint)) h.connected
  | noThread hpoint => exact builds_die h .nullPointer
  | unready hpoint => exact builds_stop h
  | startRecv t hpoint htrd hcid =>
      exact (h.of_eq rfl rfl : Drafts platform
        { c with trd := some { t with trd := { t.trd with canRun := true } } }).startTrd2
  | startConsum u hpoint htrd2 hcid =>
      have hnext : Drafts platform { c with trd2 := some { u with trd := { u.trd with canRun := true } } } :=
        h.keeps htrd2 (.inr rfl) rfl rfl
      exact hnext.started w
  | polling hpoint => exact h.poll
  | joinRecv t hpoint htrd hended =>
      exact (h.of_eq rfl rfl : Drafts platform { c with trd := none }).deleteTrd2
  | joinConsum u hpoint htrd2 hended => exact builds_release c

/-! ### The helper threads -/

theorem builds_rests {stopped : LPushConn → LPushConn → Prop}
    (hstopped : ∀ {c c'}, stopped c c' → Drafts platform c → Drafts platform c') (h : Drafts platform c)
    (hrests : Rests stopped c p) : Builds platform p := by
  cases hrests with
  | stops hstop => exact builds_stop (hstopped hstop h)
  | disposes hdispose hstop =>
      obtain ⟨hsame, hredis⟩ := doDispose_spec hdispose
      exact (builds_stop (hstopped hstop (h.untouched hsame))).after hredis.built
  | undisposed => exact builds_die h .nullPointer

theorem RecvStopped.drafts (hstopped : RecvStopped c c') (h : Drafts platform c) : Drafts platform c' := by
  obtain ⟨t, rfl⟩ := hstopped
  exact h.of_eq rfl rfl

theorem ConsumStopped.drafts (hstopped : ConsumStopped c c') (h : Drafts platform c) : Drafts platform c' := by
  obtain ⟨u, rfl, hresting⟩ := hstopped
  exact h.rests rfl rfl hresting

theorem builds_recv (h : Drafts platform c) (hdone : RecvDone env w c p) : Builds platform p := by
  have hnext : ∀ b, Drafts platform { c with lpushProtocol := some b } := fun _ => h.of_eq rfl rfl
  have hforward : ∀ lpc, Effect.Built platform (.forward lpc) := fun _ => trivial
  induction hdone with
  | rests hrests => exact builds_rests RecvStopped.drafts h hrests
  | received hdone ih => exact .after_cons trivial ih
  | aborted => exact builds_die h .assertion
  | refused ret lpc b hrests => exact .after_message ret lpc (builds_rests RecvStopped.drafts (hnext b) hrests)
  | failed ret lpc b fault hresult =>
      exact .after_message ret lpc (.after_cons (hforward lpc) (builds_die (hnext b) fault))
  | @forwarded ret lpc b ret' c' effects p hresult hrests =>
      have hhandled := handled_forwardServer env w.beyond { c with lpushProtocol := some b } lpc
      rw [hresult] at hhandled
      obtain ⟨hsame, hredis⟩ := hhandled
      have heffects : ∀ e ∈ effects ++ [.forwardReturned ret'], e.Built platform := by
        rw [List.forall_mem_append, List.forall_mem_singleton]
        exact ⟨hredis.built, trivial⟩
      have hrest := builds_rests RecvStopped.drafts ((hnext b).untouched hsame) hrests
      exact .after_message ret lpc (.after_cons (hforward lpc) (hrest.after heffects))

/-- What is popped becomes a frame, and what is written was one. -/
theorem builds_consum (hplatform : env.platform = platform) (h : Drafts platform c)
    (hdone : ConsumDone env w c p) : Builds platform p := by
  induction hdone with
  | rests hrests => exact builds_rests ConsumStopped.drafts h hrests
  | wrote u work chunk ok htrd2 hpoint hdone ih => exact .after_cons (h.consum u htrd2 work chunk hpoint) ih
  | popped u client work queue chunk hclient hqueue hchunk =>
      refine builds_stop ⟨h.cycle, fun u' hu' => ?_⟩
      cases hu'
      intro work chunk hwriting
      cases hwriting
      rw [hplatform] at hchunk
      exact .push w.now hchunk
  | died fault hfault => exact builds_die h fault

/-! ### Runs -/

theorem builds_step {thread : ThreadName} (hplatform : env.platform = platform) (h : Drafts platform c)
    (hstep : c.step env w thread = some p) : Builds platform p := by
  unfold step at hstep
  split at hstep
  · cases hstep
  · cases thread with
    | cycle => exact builds_cycle h hstep
    | recv => exact builds_recv h (recv_done hstep)
    | consum => exact builds_consum hplatform h (consum_done hstep)

theorem Drafts.queued {msg : LPushWorkerMessage} (h : Drafts platform c) (hpush : c.push msg = some c') :
    Drafts platform c' := by
  obtain ⟨client, -, rfl⟩ := Option.map_eq_some_iff.mp hpush
  exact h.of_eq rfl rfl

theorem drafts_of_accepted (h : Accepted c) : Drafts platform c := by
  obtain ⟨stfd, beyond, rfl | rfl⟩ := h <;>
    exact ⟨nofun, nofun⟩

/-- **Every frame is built**, the ones under way included. -/
theorem history_builds {surroundings : Env → Prop} {trace : List Effect}
    (hplatform : ∀ env, surroundings env → env.platform = platform) (hrun : History surroundings trace c) :
    Builds platform (c, trace) := by
  induction hrun with
  | start haccepted => exact builds_stop (drafts_of_accepted haccepted)
  | next hbefore hstep ih =>
      cases hstep with
      | thread env w thread henv hthread =>
          have hnext := builds_step (hplatform env henv) ih.drafts hthread
          exact ⟨hnext.drafts, fun e he => (List.mem_append.mp he).elim (ih.effects e) (hnext.effects e)⟩
      | queued msg hrunning hpush =>
          refine ⟨ih.drafts.queued hpush, fun e he => ?_⟩
          rcases List.mem_append.mp he with hpast | hnow
          · exact ih.effects e hpast
          · rw [List.mem_singleton.mp hnow]
            trivial

end builds

end LPushConn

/-! ### What the client receives -/

/-- The frame of a write that succeeded. -/
def Effect.sent? : Effect → Option LPushChunk
  | .wrote chunk true _ => some chunk
  | _ => none

/-- The frames the client is sent. -/
def sent (trace : List Effect) : List LPushChunk := trace.filterMap Effect.sent?

def isPush (chunk : LPushChunk) : Bool := frameKind chunk == .push

section sent

variable {platform : Platform} {trace : List Effect} {kinds : List FrameKind}

/-- At most two replies come before the push frames. -/
theorem Conversation.replies (h : Conversation kinds) :
    (∀ kind ∈ kinds.take 2, kind ≠ .push) ∧ ∀ kind ∈ kinds.drop 2, kind = .push := by
  have hsplit : ∀ replies : List FrameKind, ∀ n, .push ∉ replies → (replies.length = 2 ∨ replies.length < 2 ∧ n = 0) →
      kinds <+: replies ++ List.replicate n .push →
      (∀ kind ∈ kinds.take 2, kind ≠ .push) ∧ ∀ kind ∈ kinds.drop 2, kind = .push := by
    intro replies n hreplies hlength hfirst
    have htake := (hfirst.take 2).subset
    have hdrop := (hfirst.drop 2).subset
    rw [List.take_append] at htake
    rw [List.drop_append] at hdrop
    rcases hlength with htwo | ⟨hshort, rfl⟩
    · rw [htwo, Nat.sub_self, List.take_zero, List.append_nil] at htake
      rw [List.drop_of_length_le htwo.le, List.nil_append] at hdrop
      refine ⟨fun kind hkind heq => ?_, fun kind hkind => ?_⟩
      · rw [heq] at hkind
        exact hreplies (List.mem_of_mem_take (htake hkind))
      · exact List.eq_of_mem_replicate (List.mem_of_mem_drop (hdrop hkind))
    · rw [List.replicate_zero, List.take_nil, List.append_nil] at htake
      rw [List.replicate_zero, List.drop_nil, List.append_nil, List.drop_of_length_le hshort.le] at hdrop
      refine ⟨fun kind hkind heq => ?_, fun kind hkind => (List.not_mem_nil (hdrop hkind)).elim⟩
      rw [heq] at hkind
      exact hreplies (List.mem_of_mem_take (htake hkind))
  rcases h with hfirst | hsecond | hthird | ⟨n, hpushing⟩
  · exact hsplit [.handshake 0] 0 (by simp) (.inr ⟨Nat.one_lt_two, rfl⟩) hfirst
  · exact hsplit [.handshake 2] 0 (by simp) (.inr ⟨Nat.one_lt_two, rfl⟩) hsecond
  · exact hsplit [.handshake 1, .connection 2] 0 (by simp) (.inl rfl) hthird
  · exact hsplit _ n (by simp) (.inl rfl) hpushing

theorem filterMap_cons_toList {α β : Type} (f : α → Option β) (a : α) (rest : List α) :
    (a :: rest).filterMap f = (f a).toList ++ rest.filterMap f := by
  rw [List.filterMap_cons]
  cases f a <;> rfl

theorem sent_eq_written (trace : List Effect) :
    sent trace = ((written trace).filter Prod.snd).map Prod.fst := by
  induction trace with
  | nil => rfl
  | cons e trace ih =>
      rw [sent, written, filterMap_cons_toList, filterMap_cons_toList, List.filter_append, List.map_append]
      change e.sent?.toList ++ sent trace = _ ++ ((written trace).filter Prod.snd).map Prod.fst
      rw [ih]
      congr 1
      cases e with
      | wrote chunk ok work => cases ok <;> rfl
      | _ => rfl

/-- The replies come first, and there are at most two. -/
theorem sent_split (h : Conversation ((written trace).map fun write => frameKind write.1)) :
    ∃ replies, sent trace = replies ++ (sent trace).filter isPush ∧ replies.length ≤ 2 ∧
      ∀ chunk ∈ replies, isPush chunk = false := by
  obtain ⟨hreplies, hpushes⟩ := h.replies
  rw [← List.map_take, List.forall_mem_map] at hreplies
  rw [← List.map_drop, List.forall_mem_map] at hpushes
  have hnone : ∀ chunk ∈ (((written trace).take 2).filter Prod.snd).map Prod.fst, isPush chunk = false := by
    simp only [List.forall_mem_map, List.mem_filter]
    exact fun write hwrite => beq_eq_false_iff_ne.mpr (hreplies write hwrite.1)
  have hall : ∀ chunk ∈ (((written trace).drop 2).filter Prod.snd).map Prod.fst, isPush chunk = true := by
    simp only [List.forall_mem_map, List.mem_filter]
    exact fun write hwrite => beq_iff_eq.mpr (hpushes write hwrite.1)
  have hsplit : sent trace = (((written trace).take 2).filter Prod.snd).map Prod.fst ++
      (((written trace).drop 2).filter Prod.snd).map Prod.fst := by
    rw [sent_eq_written, ← List.map_append, ← List.filter_append, List.take_append_drop]
  refine ⟨(((written trace).take 2).filter Prod.snd).map Prod.fst, ?_, ?_, hnone⟩
  · have hempty : ((((written trace).take 2).filter Prod.snd).map Prod.fst).filter isPush = [] :=
      List.filter_eq_nil_iff.mpr fun chunk hchunk => Bool.eq_false_iff.mp (hnone chunk hchunk)
    rw [hsplit, List.filter_append, List.filter_eq_self.mpr hall, hempty, List.nil_append]
  · rw [List.length_map]
    exact (List.length_filter_le ..).trans (List.length_take_le ..)

/-- A reply is no push frame. -/
theorem Built.isPush_none {chunk : LPushChunk} (h : Built platform chunk none) : isPush chunk = false := by
  cases h <;> rfl

theorem Built.isPush_some {chunk : LPushChunk} {work : LPushWorkerMessage} (h : Built platform chunk (some work)) :
    isPush chunk = true := by
  cases h with
  | push now h => exact beq_iff_eq.mpr (LPushConn.frameKind_sendForward h)

/-- The push frames are built from the messages delivered, one by one. -/
theorem pushes_of_built (h : ∀ e ∈ trace, e.Built platform) :
    List.Forall₂ (fun chunk work => Built platform chunk (some work)) ((sent trace).filter isPush)
      (delivered trace) := by
  induction trace with
  | nil => exact .nil
  | cons e trace ih =>
      obtain ⟨he, htrace⟩ := List.forall_mem_cons.mp h
      have hpushes := ih htrace
      have hsent : sent (e :: trace) = e.sent?.toList ++ sent trace := filterMap_cons_toList Effect.sent? e trace
      have hmore : delivered (e :: trace) = e.delivered?.toList ++ delivered trace :=
        filterMap_cons_toList Effect.delivered? e trace
      rw [hsent, hmore, List.filter_append]
      -- only a push frame that was written counts on either side
      cases e with
      | wrote chunk ok work =>
          cases ok with
          | false => exact hpushes
          | true =>
              cases work with
              | none =>
                  have hreply : [chunk].filter isPush = [] :=
                    List.filter_eq_nil_iff.mpr (by simp [Built.isPush_none he])
                  change List.Forall₂ _ ([chunk].filter isPush ++ (sent trace).filter isPush) (delivered trace)
                  rw [hreply]
                  exact hpushes
              | some work =>
                  have hpush : [chunk].filter isPush = [chunk] :=
                    List.filter_eq_self.mpr (by simp [Built.isPush_some he])
                  change List.Forall₂ _ ([chunk].filter isPush ++ (sent trace).filter isPush)
                    (work :: delivered trace)
                  rw [hpush]
                  exact .cons he hpushes
      | _ => exact hpushes

end sent

/-- The text of a message survives its way to a receiver that prints from an array of the given size: it fits
a frame and the array, and jsoncpp reads back what it wrote. -/
structure Transmissible (platform : Platform) (size : Nat) (work : LPushWorkerMessage) : Prop where
  length : (work.toJsonString platform).length < 2 ^ 31 - 5
  fits : (work.toJsonString platform).length < size
  malloc : platform.malloc (work.toJsonString platform).length = true
  readBack : platform.ReadsBack work.pushJson

/-- A push frame with the text of a message. -/
structure Carries (platform : Platform) (chunk : LPushChunk) (work : LPushWorkerMessage) : Prop where
  dataType : chunk.header.dataType = LPushConn.lpushCallbackTypePush
  datalenght : chunk.header.datalenght = BitVec.ofNat 32 ((work.toJsonString platform).length + 5)
  data : chunk.data = jsonBody (work.toJsonString platform)

/-- What the receiver has seen of a push frame. -/
structure Sees (work : LPushWorkerMessage) (frame : SeenFrame) : Prop where
  dataType : frame.header.dataType = LPushConn.lpushCallbackTypePush
  members : ∀ key, frame.jsonValuemap.lookup key = work.pushMembers.lookup key

section carries

variable {platform : Platform} {size : Nat} {chunk : LPushChunk} {work : LPushWorkerMessage}

theorem Built.carries (h : Built platform chunk (some work)) (htransmissible : Transmissible platform size work) :
    Carries platform chunk work := by
  cases h with
  | push now hchunk =>
      obtain ⟨chunk', hchunk', hheader, hdata⟩ := sendForward_spec now htransmissible.length
      obtain rfl := Option.some.inj (hchunk.symm.trans hchunk')
      refine ⟨?_, ?_, hdata⟩
      · rw [hheader]
      · rw [hheader]

theorem Carries.threadRecv_cons (h : Carries platform chunk work)
    (htransmissible : Transmissible platform size work) (beyond : Nat → UInt8) (rest : Bytes) :
    ∃ frame, Sees work frame ∧ threadRecv size platform beyond (sendPacket chunk ++ rest) =
      (threadRecv size platform beyond rest).map (frame :: ·) := by
  obtain ⟨root, hreader, hback⟩ := htransmissible.readBack
  rw [← LPushWorkerMessage.toJsonString_eq] at hreader
  obtain ⟨parms, hparms, hlookup⟩ := stringMembers_of_readBack hback
  exact ⟨_, ⟨h.dataType, hlookup⟩, LinkedonPush.threadRecv_cons h.dataType h.datalenght h.data htransmissible.length
    htransmissible.fits htransmissible.malloc hreader hparms beyond rest⟩

/-- The receiver sees all the push frames. -/
theorem threadRecv_flatMap {chunks : List LPushChunk} {works : List LPushWorkerMessage}
    (hcarries : List.Forall₂ (Carries platform) chunks works)
    (htransmissible : ∀ work ∈ works, Transmissible platform size work) (beyond : Nat → UInt8) :
    ∃ seen, threadRecv size platform beyond (chunks.flatMap sendPacket) = some seen ∧
      List.Forall₂ Sees works seen := by
  induction hcarries with
  | nil =>
      refine ⟨[], ?_, .nil⟩
      rw [List.flatMap_nil, threadRecv, if_pos List.length_nil]
  | @cons chunk work chunks works hchunk _ ih =>
      obtain ⟨hwork, hworks⟩ := List.forall_mem_cons.mp htransmissible
      obtain ⟨seen, hseen, hall⟩ := ih hworks
      obtain ⟨frame, hframe, hcons⟩ := hchunk.threadRecv_cons hwork beyond (chunks.flatMap sendPacket)
      refine ⟨frame :: seen, ?_, .cons hframe hall⟩
      rw [List.flatMap_cons, hcons, hseen, Option.map_some]

end carries

namespace Server

section arrival

variable {setup : Setup} {tasks : List Bytes} {trace : List Observation} {s : Server} {id : Nat} {c : LPushConn}

theorem Reached.builds (hrun : Reached setup tasks trace s) (hc : s.conns id = some c) :
    ∀ e ∈ view id trace, e.Built setup.platform :=
  (LPushConn.history_builds (fun _ henv => henv.2.1) (hrun.history hc)).effects

/-- **What is pushed arrives.** All that a client is ever sent are at most two replies and then push
frames, out of which the receiver decodes the messages delivered, one by one. They are the first ones
of those pushed to the client, and each comes from an element of the list or a document of the
history that names a key of the client's user. -/
theorem messages_arrive (hrun : Reached setup tasks trace s) (hc : s.conns id = some c) (size : Nat)
    (beyond : Nat → UInt8)
    (htransmissible : ∀ work ∈ delivered (view id trace), Transmissible setup.platform size work) :
    ∃ replies pushes frames, sent (view id trace) = replies ++ pushes ∧ replies.length ≤ 2 ∧
      (∀ chunk ∈ replies, Built setup.platform chunk none) ∧
      threadRecv size setup.platform beyond (pushes.flatMap sendPacket) = some frames ∧
      List.Forall₂ (fun work frame => ∀ key, frame.jsonValuemap.lookup key = work.pushMembers.lookup key)
        (delivered (view id trace)) frames ∧
      delivered (view id trace) <+: pushed (view id trace) ∧
      ∀ work ∈ delivered (view id trace), ∃ user t, Enrolled trace id user ∧
        tripleKey (visitor user) = tripleKey t ∧ Source setup.platform trace work t := by
  have hbuilt := hrun.builds hc
  obtain ⟨hproper, -⟩ := LPushConn.history_proper (hrun.history hc)
  have hfirst := hproper.prefix_delivered
  obtain ⟨replies, hsplit, hlength, hreplies⟩ := sent_split hproper.conversation
  have hpushes := pushes_of_built hbuilt
  have hcarries : List.Forall₂ (Carries setup.platform) ((sent (view id trace)).filter isPush)
      (delivered (view id trace)) := by
    rw [List.forall₂_iff_zip] at hpushes ⊢
    exact ⟨hpushes.1, fun hmem => (hpushes.2 hmem).carries (htransmissible _ (List.of_mem_zip hmem).2)⟩
  obtain ⟨frames, hframes, hsees⟩ := threadRecv_flatMap hcarries htransmissible beyond
  refine ⟨replies, _, frames, hsplit, hlength, ?_, hframes, ?_, hfirst, ?_⟩
  · intro chunk hchunk
    have hsent : chunk ∈ sent (view id trace) := by
      rw [hsplit]
      exact List.mem_append_left _ hchunk
    obtain ⟨e, he, hmade⟩ := List.mem_filterMap.mp hsent
    cases e with
    | wrote chunk' ok work =>
        cases ok with
        | false => cases hmade
        | true =>
            cases hmade
            cases work with
            | none => exact hbuilt _ he
            | some work => cases (hreplies chunk hchunk).symm.trans (Built.isPush_some (hbuilt _ he))
    | _ => cases hmade
  · exact hsees.imp fun _ _ hframe => hframe.members
  · intro work hwork
    obtain ⟨e, he, hqueued⟩ := List.mem_filterMap.mp (hfirst.subset hwork)
    cases e with
    | queued msg =>
        cases hqueued
        exact hrun.routed.queued id work (mem_view.mp he)
    | _ => cases hqueued

end arrival

/-! ### A task on its way -/

theorem members_pushJson_taskMessage : taskMessage.pushJson.members = some [
    (text "MsgId", .string (text "m")), (text "TaskId", .string (text "t"))] := rfl

theorem transmissible_task : Transmissible taskPlatform 1024 taskMessage where
  length := by decide
  fits := by decide
  malloc := rfl
  readBack := ⟨_, rfl, Json.readBack_self members_pushJson_taskMessage (by decide)⟩

theorem messages_arrive_pushesOnce : ∃ trace s c, Reached taskSetup [] trace s ∧ s.conns 0 = some c ∧
    delivered (view 0 trace) = [taskMessage] ∧
      ∃ replies pushes frames, sent (view 0 trace) = replies ++ pushes ∧ replies.length ≤ 2 ∧
        threadRecv 1024 taskPlatform (fun _ => 0) (pushes.flatMap sendPacket) = some frames ∧
        List.Forall₂ (fun work frame => ∀ key, frame.jsonValuemap.lookup key = work.pushMembers.lookup key)
          [taskMessage] frames := by
  obtain ⟨trace, s, hrun, hwanted⟩ := reached_of_play taskSetup [] pushesOnce
    (fun next => (next.1.conns 0).isSome && delivered (view 0 next.2) == [taskMessage]) (by decide +kernel)
  obtain ⟨hsome, hdelivered⟩ := Bool.and_eq_true_iff.mp hwanted
  obtain ⟨c, hc⟩ := Option.isSome_iff_exists.mp hsome
  have htask : delivered (view 0 trace) = [taskMessage] := beq_iff_eq.mp hdelivered
  obtain ⟨replies, pushes, frames, hsent, hlength, -, hframes, hmaps, -⟩ :=
    messages_arrive hrun hc 1024 (fun _ => 0) (by
      rw [htask]
      exact List.forall_mem_singleton.mpr transmissible_task)
  rw [htask] at hmaps
  exact ⟨trace, s, c, hrun, hc, htask, replies, pushes, frames, hsent, hlength, hframes, hmaps⟩

end Server

end LinkedonPush
