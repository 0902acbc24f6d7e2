import LinkedonPush.App.Session

/-!
# How a connection comes to have a client, and how it loses it

Most of what the threads do leaves the user of a connection alone. The exceptions are few: a
handshake message is accepted, the user turns out to be registered already, a client is created, and
the destructor deletes it.
-/

namespace LinkedonPush

open Theory

/-- Effects that neither show nor change who is registered. -/
def Effect.Plain : Effect → Prop
  | .presented _ => False
  | .refused _ => False
  | .createClient _ => False
  | .queued _ => False
  | .destroyKey _ => False
  | .deleteClient _ => False
  | _ => True

/-- A client without its queue. -/
def LPushClient.bare (client : LPushClient) : LPushClient := { client with queue := [] }

namespace LPushConn

/-- The message passes both checks that `do_cycle` makes before it accepts the handshake. -/
def Admits (env : Env) (msg : LPushHandshakeMessage) : Prop :=
  msg.check env.platform = true ∧ checkUserMessage env msg = errorSuccess

/-- `handshake` made the message of a frame. -/
def Made (platform : Platform) (lpc : LPushChunk) (msg : LPushHandshakeMessage) : Prop :=
  ∃ memory, (LPushProtocol.handshake platform memory lpc).result = some (errorSuccess, msg)

/-- The cycle thread is about to write its last frame, or the connection is gone. -/
def Dismissed (c : LPushConn) : Prop := (∃ chunk ret, c.point = .refusing chunk ret) ∨ c.point = .closed

/-- The user of a connection, as far as it keeps one. -/
structure SameUser (c c' : LPushConn) : Prop where
  stfd : c'.stfd = c.stfd
  lphandshakeMsg : ∀ msg, c'.lphandshakeMsg = some msg → c.lphandshakeMsg = some msg
  client : c'.client.map LPushClient.bare = c.client.map LPushClient.bare

/-- What a thread may do about the user of its connection before it yields. -/
inductive Outcome (env : Env) (c : LPushConn) : Progress → Prop where
  | kept {c' : LPushConn} {effects : List Effect} (hplain : ∀ e ∈ effects, e.Plain) (huser : SameUser c c')
      (hclosed : c'.point = .closed → c'.client = none) : Outcome env c (c', effects)
  | presented {c' : LPushConn} {effects : List Effect} (msg : LPushHandshakeMessage)
      (hplain : ∀ e ∈ effects, e.Plain) (hstfd : c'.stfd = c.stfd) (hclient : c'.client = c.client)
      (hmsg : c'.lphandshakeMsg = some msg) (hjudged : c'.Dismissed ∨ Admits env msg)
      (hopen : c'.point ≠ .closed)
      (hmade : ∃ lpc, .message errorSuccess lpc ∈ effects ∧ Made env.platform lpc msg) :
      Outcome env c (c', effects ++ [.presented msg])
  | refused {c' : LPushConn} {effects : List Effect} (msg : LPushHandshakeMessage)
      (hplain : ∀ e ∈ effects, e.Plain) (huser : SameUser c c') (hclient : c'.client = none)
      (hmsg : c.lphandshakeMsg = some msg)
      (hregistered : env.registered msg.userId msg.appId msg.screteKey = true)
      (hdismissed : ∃ chunk ret, c'.point = .refusing chunk ret) :
      Outcome env c (c', effects ++ [.refused msg])
  | enrolled {c' : LPushConn} {effects : List Effect} (msg : LPushHandshakeMessage)
      (hplain : ∀ e ∈ effects, e.Plain) (hstfd : c'.stfd = c.stfd)
      (hkept : c'.lphandshakeMsg = c.lphandshakeMsg) (hnone : c.client = none)
      (hmsg : c.lphandshakeMsg = some msg) (hclient : c'.client = some (.create c.stfd msg))
      (hunknown : env.registered msg.userId msg.appId msg.screteKey = false)
      (hopen : c'.point ≠ .closed) :
      Outcome env c (c', effects ++ [.createClient (.create c.stfd msg)])
  | released {c' : LPushConn} {effects : List Effect} (client : LPushClient)
      (hplain : ∀ e ∈ effects, e.Plain) (hstfd : c'.stfd = c.stfd) (hclient : c.client = some client)
      (hnone : c'.client = none) (hmsg : c'.lphandshakeMsg = none) (hclosed : c'.point = .closed) :
      Outcome env c (c', effects ++ [.destroyKey client.key, .deleteClient client.cstfd, .close])

section outcome

variable {env : Env} {c c₁ : LPushConn} {p : Progress} {effects : List Effect}

theorem SameUser.refl (c : LPushConn) : SameUser c c := ⟨rfl, fun _ h => h, rfl⟩

theorem SameUser.of_untouched {c' : LPushConn} (h : c.Untouched c') : SameUser c c' :=
  ⟨h.stfd, fun _ hmsg => h.lphandshakeMsg.symm.trans hmsg, by rw [h.client]⟩

/-- Only the user of the starting point counts. -/
theorem Outcome.of_eq (h : Outcome env c₁ p) (hstfd : c₁.stfd = c.stfd)
    (hmsg : c₁.lphandshakeMsg = c.lphandshakeMsg) (hclient : c₁.client = c.client) : Outcome env c p := by
  cases h with
  | kept hplain huser hclosed =>
      exact .kept hplain ⟨huser.stfd.trans hstfd, fun msg h => hmsg.symm.trans (huser.lphandshakeMsg msg h),
        by rw [huser.client, hclient]⟩ hclosed
  | presented msg hplain hstfd' hclient' hmsg' hjudged hopen hmade =>
      exact .presented msg hplain (hstfd'.trans hstfd) (hclient'.trans hclient) hmsg' hjudged hopen hmade
  | refused msg hplain huser hnone hmsg' hregistered hdismissed =>
      exact .refused msg hplain ⟨huser.stfd.trans hstfd,
        fun msg h => hmsg.symm.trans (huser.lphandshakeMsg msg h), by rw [huser.client, hclient]⟩ hnone
        (hmsg.symm.trans hmsg') hregistered hdismissed
  | enrolled msg hplain hstfd' hkept hnone hmsg' hclient' hunknown hopen =>
      rw [hstfd] at hstfd' hclient' ⊢
      exact .enrolled msg hplain hstfd' (hkept.trans hmsg) (hclient.symm.trans hnone)
        (hmsg.symm.trans hmsg') hclient' hunknown hopen
  | released client hplain hstfd' hclient' hnone hmsg' hclosed =>
      exact .released client hplain (hstfd'.trans hstfd) (hclient.symm.trans hclient') hnone hmsg' hclosed

theorem Outcome.after (h : Outcome env c p) (hplain : ∀ e ∈ effects, e.Plain) :
    Outcome env c (p.after effects) := by
  have hboth : ∀ more : List Effect, (∀ e ∈ more, e.Plain) → ∀ e ∈ effects ++ more, e.Plain := by
    intro more hmore e he
    rcases List.mem_append.mp he with hfirst | hlast
    · exact hplain e hfirst
    · exact hmore e hlast
  cases h with
  | kept hplain' huser hclosed => exact .kept (hboth _ hplain') huser hclosed
  | presented msg hplain' hstfd hclient hmsg hjudged hopen hmade =>
      obtain ⟨lpc, hmem, hmade⟩ := hmade
      rw [Progress.after, ← List.append_assoc]
      exact .presented msg (hboth _ hplain') hstfd hclient hmsg hjudged hopen
        ⟨lpc, List.mem_append_right _ hmem, hmade⟩
  | refused msg hplain' huser hnone hmsg hregistered hdismissed =>
      rw [Progress.after, ← List.append_assoc]
      exact .refused msg (hboth _ hplain') huser hnone hmsg hregistered hdismissed
  | enrolled msg hplain' hstfd hkept hnone hmsg hclient hunknown hopen =>
      rw [Progress.after, ← List.append_assoc]
      exact .enrolled msg (hboth _ hplain') hstfd hkept hnone hmsg hclient hunknown hopen
  | released client hplain' hstfd hclient hnone hmsg hclosed =>
      rw [Progress.after, ← List.append_assoc]
      exact .released client (hboth _ hplain') hstfd hclient hnone hmsg hclosed

theorem Outcome.after_cons {e : Effect} (he : e.Plain) (h : Outcome env c p) : Outcome env c (p.after [e]) :=
  h.after fun e' he' => by rwa [List.mem_singleton.mp he']

/-- The thread stops, its connection keeping its user. -/
theorem outcome_stop {c' : LPushConn} (huser : SameUser c c') (hopen : c'.point ≠ .closed) :
    Outcome env c (c', []) :=
  .kept (fun _ he => (List.not_mem_nil he).elim) huser fun hclosed => (hopen hclosed).elim

theorem outcome_die (fault : Fault) (hopen : c.point ≠ .closed) : Outcome env c (c.die fault) := by
  refine .kept (fun e he => ?_) ⟨rfl, fun _ h => h, rfl⟩ fun hclosed => (hopen hclosed).elim
  rw [List.mem_singleton.mp he]
  trivial

theorem OnlyRedis.plain (h : OnlyRedis effects) : ∀ e ∈ effects, e.Plain := by
  intro e he
  obtain ⟨command, rfl⟩ := h e he
  trivial

end outcome

/-! ### The cycle thread -/

section cycle

variable {c : LPushConn} (env : Env) (w : World)

theorem outcome_release (c : LPushConn) : Outcome env c c.release := by
  unfold release
  cases hclient : c.client with
  | none =>
      refine .kept (fun e he => ?_) ⟨rfl, fun _ h => (by cases h), ?_⟩ fun _ => rfl
      · rw [List.mem_singleton.mp he]
        trivial
      · rw [hclient]
  | some client =>
      have hplain : ∀ e ∈ ([] : List Effect), e.Plain := fun _ he => (List.not_mem_nil he).elim
      exact .released client hplain rfl hclient rfl rfl rfl

theorem outcome_deleteTrd2 (c : LPushConn) : Outcome env c c.deleteTrd2 := by
  unfold deleteTrd2
  split
  · exact outcome_release env c
  · dsimp only
    split
    · exact outcome_release env c
    · exact outcome_release env c
    · exact outcome_stop ⟨rfl, fun _ h => h, rfl⟩ CyclePoint.noConfusion

theorem outcome_deleteTrd (c : LPushConn) : Outcome env c c.deleteTrd := by
  unfold deleteTrd
  split
  · exact outcome_deleteTrd2 env c
  · dsimp only
    split
    · exact (outcome_deleteTrd2 env { c with trd := none }).of_eq rfl rfl rfl
    · exact (outcome_deleteTrd2 env { c with trd := none }).of_eq rfl rfl rfl
    · exact outcome_stop ⟨rfl, fun _ h => h, rfl⟩ CyclePoint.noConfusion

theorem outcome_finish (c : LPushConn) (ret : Int) : Outcome env c (c.finish ret) := by
  unfold finish
  apply (outcome_deleteTrd env c).after
  intro e he
  rcases List.mem_append.mp he with hfirst | hfind
  · rcases List.mem_pair.mp hfirst with rfl | rfl <;> trivial
  · cases hmie : c.mie with
    | none =>
        rw [hmie] at hfind
        exact (List.not_mem_nil hfind).elim
    | some address =>
        rw [hmie, List.mem_singleton] at hfind
        rw [hfind]
        trivial

theorem outcome_poll (c : LPushConn) : Outcome env c c.poll := by
  unfold poll
  split
  · exact outcome_finish env c _
  · split
    · exact outcome_finish env c _
    · exact outcome_stop ⟨rfl, fun _ h => h, rfl⟩ CyclePoint.noConfusion

theorem outcome_started (c : LPushConn) : Outcome env c (c.started w) :=
  (outcome_poll env { c with beforeDataTime := w.now, nowDataTime := w.now }).of_eq rfl rfl rfl

theorem outcome_startTrd2 (hopen : c.point ≠ .closed) : Outcome env c (c.startTrd2 w) := by
  unfold startTrd2
  split
  · exact outcome_die _ hopen
  · dsimp only
    split
    · exact outcome_stop ⟨rfl, fun _ h => h, rfl⟩ CyclePoint.noConfusion
    · exact (outcome_started env w _).of_eq rfl rfl rfl

theorem outcome_startTrd (hopen : c.point ≠ .closed) : Outcome env c (c.startTrd w) := by
  unfold startTrd
  split
  · exact outcome_die _ hopen
  · dsimp only
    split
    · exact outcome_stop ⟨rfl, fun _ h => h, rfl⟩ CyclePoint.noConfusion
    · exact outcome_startTrd2 env w hopen

theorem outcome_connected (hopen : c.point ≠ .closed) : Outcome env c (c.connected env w) := by
  unfold connected
  cases hmsg : c.lphandshakeMsg with
  | none => exact outcome_die _ hopen
  | some msg =>
      refine Outcome.after_cons trivial ?_
      apply Outcome.of_eq (outcome_startTrd env w _)
      · rfl
      · exact hmsg.symm
      · rfl
      · exact hopen

theorem outcome_register (hopen : c.point ≠ .closed) (hnone : c.client = none) :
    Outcome env c (c.register env w) := by
  unfold register
  cases hmsg : c.lphandshakeMsg with
  | none => exact outcome_die _ hopen
  | some msg =>
      dsimp only
      split
      · rename_i hregistered
        refine .refused msg ?_ ⟨rfl, fun _ h => hmsg.trans h, rfl⟩ hnone hmsg hregistered ⟨_, _, rfl⟩
        intro e he
        simp only [List.mem_cons, List.not_mem_nil, or_false] at he
        rcases he with rfl | rfl | rfl | rfl | rfl <;> trivial
      · rename_i hunknown
        refine .enrolled msg ?_ rfl hmsg.symm hnone hmsg rfl (Bool.eq_false_iff.mpr hunknown)
          CyclePoint.noConfusion
        intro e he
        simp only [List.mem_cons, List.not_mem_nil, or_false] at he
        rcases he with rfl | rfl | rfl | rfl | rfl <;> trivial

theorem outcome_createConnection {r : MessageReading} (hopen : c.point ≠ .closed) (hnone : c.client = none) :
    Outcome env c (c.createConnection env w r) := by
  cases r with
  | need size resume => exact outcome_stop ⟨rfl, fun _ h => h, rfl⟩ CyclePoint.noConfusion
  | abort => exact outcome_die _ hopen
  | done result =>
      obtain ⟨ret, lpc, b⟩ := result
      simp only [createConnection]
      refine Outcome.after_cons trivial ?_
      split
      · exact (outcome_finish env { c with lpushProtocol := some b } _).of_eq rfl rfl rfl
      · split
        · exact (outcome_finish env { c with lpushProtocol := some b } _).of_eq rfl rfl rfl
        · exact (outcome_register (c := { c with lpushProtocol := some b }) env w hopen hnone).of_eq rfl rfl rfl

theorem outcome_handshake {r : MessageReading} (hopen : c.point ≠ .closed) :
    Outcome env c (c.handshake env w r) := by
  cases r with
  | need size resume => exact outcome_stop ⟨rfl, fun _ h => h, rfl⟩ CyclePoint.noConfusion
  | abort => exact outcome_die _ hopen
  | done result =>
      obtain ⟨ret, lpc, b⟩ := result
      have hrefused : ∀ chunk ret, Outcome env c
          ({ c with lpushProtocol := some b, point := .refusing chunk ret }, []) :=
        fun chunk ret => outcome_stop ⟨rfl, fun _ h => h, rfl⟩ CyclePoint.noConfusion
      have hplain : ∀ e ∈ [Effect.message ret lpc], e.Plain := by
        intro e he
        rw [List.mem_singleton.mp he]
        trivial
      simp only [handshake]
      split
      · exact (hrefused _ _).after_cons trivial
      · rename_i hread
        have hmessage : .message errorSuccess lpc ∈ [Effect.message ret lpc] := by
          rw [not_not.mp hread]
          exact List.mem_singleton_self _
        split
        · refine Outcome.after_cons trivial ?_
          exact (outcome_die (c := { c with lpushProtocol := some b }) _ hopen).of_eq rfl rfl rfl
        · rename_i ret' lpsm hresult
          split
          · exact (hrefused _ _).after_cons trivial
          · rename_i hret
            rw [not_not.mp hret] at hresult
            have hcheck := (LPushProtocol.handshake_spec hresult).1
            have hmade : ∃ lpc', .message errorSuccess lpc' ∈ [Effect.message ret lpc] ∧
                Made env.platform lpc' lpsm := ⟨lpc, hmessage, w.beyond, hresult⟩
            split
            · exact .presented lpsm hplain rfl rfl (congrArg some (LPushHandshakeMessage.setParams_tomap lpsm))
                (.inl (.inl ⟨_, _, rfl⟩)) CyclePoint.noConfusion hmade
            · rename_i hchecked
              exact .presented lpsm hplain rfl rfl (congrArg some (LPushHandshakeMessage.setParams_tomap lpsm))
                (.inr ⟨hcheck, not_not.mp hchecked⟩) CyclePoint.noConfusion hmade

theorem outcome_withProtocol {next : MessageReading → Progress} (hopen : c.point ≠ .closed)
    (hnext : ∀ r, Outcome env c (next r)) : Outcome env c (c.withProtocol next) := by
  unfold withProtocol
  split
  · exact outcome_die _ hopen
  · exact hnext _

/-- There is a client only from its creation to the last join. -/
theorem Coherent.alone {d : Dialogue} (h : Coherent d c) (hrunning : ¬ Running c.point)
    (hconnecting : ∀ chunk, c.point ≠ .connecting chunk) (hjoin : c.point ≠ .joinConsum) : c.Alone := by
  cases h with
  | opening _ halone | handshake _ _ halone | refusing _ _ _ halone | accepting _ _ halone
  | createConnection _ _ halone | closed _ halone => exact halone
  | connecting chunk _ hpoint => exact (hconnecting chunk hpoint).elim
  | running _ _ _ hpoint => exact (hrunning hpoint).elim
  | joinConsum _ _ hpoint => exact (hjoin hpoint).elim

theorem outcome_cycle {d : Dialogue} {p : Progress} (h : Coherent d c) (hstep : c.cycle env w = some p) :
    Outcome env c p := by
  cases cycle_spec hstep with
  | created hpoint =>
      have hopen : c.point ≠ .closed := by simp [hpoint]
      exact outcome_withProtocol env hopen fun r => outcome_handshake env w hopen
  | handshake size resume hpoint => exact (outcome_handshake env w (by simp [hpoint])).after_cons trivial
  | refusing chunk ret => exact (outcome_finish env c _).after_cons trivial
  | unwritten chunk e => exact (outcome_finish env c _).after_cons trivial
  | accepting chunk hpoint =>
      have hopen : c.point ≠ .closed := by simp [hpoint]
      have halone : c.Alone := h.alone (by simp [hpoint, Running]) (by simp [hpoint]) (by simp [hpoint])
      refine Outcome.after_cons trivial ?_
      exact outcome_withProtocol env hopen fun r => outcome_createConnection env w hopen halone.client
  | createConnection size resume hpoint =>
      have halone : c.Alone := h.alone (by simp [hpoint, Running]) (by simp [hpoint]) (by simp [hpoint])
      exact (outcome_createConnection env w (by simp [hpoint]) halone.client).after_cons trivial
  | connecting chunk hpoint => exact (outcome_connected env w (by simp [hpoint])).after_cons trivial
  | noThread hpoint =>
      apply outcome_die
      rcases hpoint with ⟨hpoint, -⟩ | ⟨hpoint, -⟩ <;> simp [hpoint]
  | unready hpoint =>
      apply outcome_stop (.refl c)
      rcases hpoint with ⟨hpoint, -⟩ | ⟨hpoint, -⟩ <;> simp [hpoint]
  | startRecv t hpoint => exact (outcome_startTrd2 env w (by simp [hpoint])).of_eq rfl rfl rfl
  | startConsum t => exact (outcome_started env w _).of_eq rfl rfl rfl
  | polling => exact outcome_poll env c
  | joinRecv t => exact (outcome_deleteTrd2 env { c with trd := none }).of_eq rfl rfl rfl
  | joinConsum t => exact outcome_release env c

end cycle

/-! ### The helper threads -/

/-- A helper thread leaves the user and the cycle thread alone. -/
structure Keeps (c : LPushConn) (p : Progress) : Prop where
  user : SameUser c p.1
  point : p.1.point = c.point
  plain : ∀ e ∈ p.2, e.Plain

section keeps

variable {env : Env} {w : World} {c c' : LPushConn} {p : Progress} {effects : List Effect}

theorem SameUser.trans {c'' : LPushConn} (h : SameUser c c') (h' : SameUser c' c'') : SameUser c c'' :=
  ⟨h'.stfd.trans h.stfd, fun msg hmsg => h.lphandshakeMsg msg (h'.lphandshakeMsg msg hmsg),
    h'.client.trans h.client⟩

theorem Keeps.trans (h : Keeps c (c', effects)) (h' : Keeps c' p) : Keeps c (p.after effects) := by
  refine ⟨h.user.trans h'.user, h'.point.trans h.point, fun e he => ?_⟩
  rcases List.mem_append.mp he with hfirst | hlast
  · exact h.plain e hfirst
  · exact h'.plain e hlast

theorem keeps_stop (huser : SameUser c c') (hpoint : c'.point = c.point) : Keeps c (c', []) :=
  ⟨huser, hpoint, fun _ he => (List.not_mem_nil he).elim⟩

theorem keeps_single {e : Effect} (huser : SameUser c c') (hpoint : c'.point = c.point) (he : e.Plain) :
    Keeps c (c', [e]) :=
  ⟨huser, hpoint, fun e' he' => by rwa [List.mem_singleton.mp he']⟩

theorem keeps_die (c : LPushConn) (fault : Fault) : Keeps c (c.die fault) :=
  keeps_single ⟨rfl, fun _ h => h, rfl⟩ rfl trivial

theorem keeps_of_untouched (h : c.Untouched c') (hredis : OnlyRedis effects) : Keeps c (c', effects) :=
  ⟨.of_untouched h, h.point, hredis.plain⟩

theorem keeps_rests {stopped : LPushConn → LPushConn → Prop}
    (hstopped : ∀ {c c'}, stopped c c' → Keeps c (c', [])) (h : Rests stopped c p) : Keeps c p := by
  cases h with
  | stops hstop => exact hstopped hstop
  | disposes hdispose hstop =>
      obtain ⟨hsame, hredis⟩ := doDispose_spec hdispose
      exact (keeps_of_untouched hsame hredis).trans (hstopped hstop)
  | undisposed => exact keeps_die c _

theorem keeps_recvStopped (h : RecvStopped c c') : Keeps c (c', []) := by
  obtain ⟨t, rfl⟩ := h
  exact keeps_stop ⟨rfl, fun _ h => h, rfl⟩ rfl

theorem keeps_consumStopped (h : ConsumStopped c c') : Keeps c (c', []) := by
  obtain ⟨t, rfl, -⟩ := h
  exact keeps_stop ⟨rfl, fun _ h => h, rfl⟩ rfl

theorem keeps_recv (h : RecvDone env w c p) : Keeps c p := by
  have hmessage : ∀ ret lpc b, Keeps c ({ c with lpushProtocol := some b }, [.message ret lpc]) := fun _ _ _ =>
    keeps_single ⟨rfl, fun _ h => h, rfl⟩ rfl trivial
  have hforward : ∀ (c : LPushConn) lpc, Keeps c (c, [.forward lpc]) := fun c _ => keeps_single (.refl c) rfl trivial
  induction h with
  | rests h => exact keeps_rests keeps_recvStopped h
  | received h ih =>
      have hreceived : Keeps c (c, [.received w.delivery]) := keeps_single (.refl c) rfl trivial
      exact hreceived.trans ih
  | aborted => exact keeps_die c _
  | refused ret lpc b h => exact (hmessage ret lpc b).trans (keeps_rests keeps_recvStopped h)
  | failed ret lpc b fault hresult => exact (hmessage ret lpc b).trans ((hforward _ lpc).trans (keeps_die _ fault))
  | @forwarded ret lpc b ret' c' effects p hresult h =>
      have hhandled := handled_forwardServer env w.beyond { c with lpushProtocol := some b } lpc
      rw [hresult] at hhandled
      have hreturned : Keeps c' (c', [.forwardReturned ret']) := keeps_single (.refl c') rfl trivial
      rw [← after_after]
      exact (hmessage ret lpc b).trans ((hforward _ lpc).trans ((keeps_of_untouched hhandled.1 hhandled.2).trans
        (hreturned.trans (keeps_rests keeps_recvStopped h))))

theorem keeps_consum (h : ConsumDone env w c p) : Keeps c p := by
  induction h with
  | rests h => exact keeps_rests keeps_consumStopped h
  | wrote t work chunk ok htrd2 hpoint h ih =>
      have hwrote : Keeps c (c, [.wrote chunk ok (some work)]) := keeps_single (.refl c) rfl trivial
      exact hwrote.trans ih
  | popped t client work queue chunk hclient hqueue hchunk =>
      exact keeps_stop ⟨rfl, fun _ h => h, by rw [hclient]; rfl⟩ rfl
  | died fault hfault => exact keeps_die c fault

end keeps

/-! ### Steps -/

section step

variable {env : Env} {w : World} {thread : ThreadName} {d : Dialogue} {c : LPushConn} {p : Progress}

/-- Nothing runs any more once the connection is closed. -/
theorem Coherent.step_closed (h : Coherent d c) (hclosed : c.point = .closed) :
    c.step env w thread = none := by
  have halone : c.Alone := h.alone (by simp [hclosed, Running]) (by simp [hclosed]) (by simp [hclosed])
  unfold step
  split
  · rfl
  · cases thread with
    | cycle => rw [cycle, hclosed]
    | recv => rw [recv, halone.trd]
    | consum => rw [consum, halone.trd2]

/-- **What a step does about the user.** -/
theorem outcome_step (h : Coherent d c) (hstep : c.step env w thread = some p) : Outcome env c p := by
  have hopen : c.point ≠ .closed := by
    intro hclosed
    rw [h.step_closed hclosed] at hstep
    cases hstep
  have hkept : Keeps c p → Outcome env c p := fun hkeeps =>
    .kept hkeeps.plain hkeeps.user fun hclosed => (hopen (hkeeps.point.symm.trans hclosed)).elim
  unfold step at hstep
  split at hstep
  · cases hstep
  · cases thread with
    | cycle => exact outcome_cycle env w h hstep
    | recv => exact hkept (keeps_recv (recv_done hstep))
    | consum => exact hkept (keeps_consum (consum_done hstep))

/-- A dismissed connection only closes. -/
theorem Coherent.step_dismissed (h : Coherent d c) (hdismissed : c.Dismissed)
    (hstep : c.step env w thread = some p) : p.1.point = .closed ∧ ∀ e ∈ p.2, e.Plain := by
  have houtcome := outcome_step h hstep
  rcases hdismissed with ⟨chunk, ret, hpoint⟩ | hclosed
  · have halone : c.Alone := h.alone (by simp [hpoint, Running]) (by simp [hpoint]) (by simp [hpoint])
    have hclosed : p.1.point = .closed := by
      unfold step at hstep
      split at hstep
      · cases hstep
      · cases thread with
        | cycle =>
            simp only [cycle, hpoint] at hstep
            cases hstep
            simp only [Progress.after, finish, deleteTrd, halone.trd, deleteTrd2, halone.trd2, release]
        | recv =>
            simp only [recv, halone.trd] at hstep
            cases hstep
        | consum =>
            simp only [consum, halone.trd2] at hstep
            cases hstep
    refine ⟨hclosed, ?_⟩
    cases houtcome with
    | kept hplain => exact hplain
    | presented _ _ _ _ _ _ hopen => exact (hopen hclosed).elim
    | refused _ _ _ _ _ _ hrefusing =>
        obtain ⟨_, _, hrefusing⟩ := hrefusing
        cases hrefusing.symm.trans hclosed
    | enrolled _ _ _ _ _ _ _ _ hopen => exact (hopen hclosed).elim
    | released client _ _ hclient => cases halone.client.symm.trans hclient
  · rw [h.step_closed hclosed] at hstep
    cases hstep

end step

/-! ### Whole histories -/

/-- The effects by which clients enter and leave the maps of `LPushSource`. -/
def registration : Effect → Bool
  | .createClient _ => true
  | .destroyKey _ => true
  | .deleteClient _ => true
  | _ => false

def registrations (trace : List Effect) : List Effect := trace.filter registration

/-- Which of the three stages of its client a connection is in. -/
inductive Standing (surroundings : Env → Prop) (trace : List Effect) (c : LPushConn) : Prop where
  | unknown (hclient : c.client = none) (htrace : registrations trace = [])
  | known (msg : LPushHandshakeMessage) (client : LPushClient) (hclient : c.client = some client)
      (hbare : client.bare = .create c.stfd msg) (hpresented : .presented msg ∈ trace)
      (hadmits : ∃ env, surroundings env ∧ Admits env msg) (hopen : c.point ≠ .closed)
      (htrace : registrations trace = [.createClient (.create c.stfd msg)])
  | forgotten (client : LPushClient) (hclient : c.client = none) (hclosed : c.point = .closed)
      (htrace : registrations trace =
        [.createClient client, .destroyKey client.key, .deleteClient client.cstfd])

/-- Who a connection has turned out to be. -/
structure Vetted (surroundings : Env → Prop) (trace : List Effect) (c : LPushConn) : Prop where
  standing : Standing surroundings trace c
  message : ∀ msg, c.lphandshakeMsg = some msg →
    .presented msg ∈ trace ∧ (c.Dismissed ∨ ∃ env, surroundings env ∧ Admits env msg)
  refused : ∀ msg, .refused msg ∈ trace → c.Dismissed ∧ registrations trace = []

section history

variable {surroundings : Env → Prop} {trace effects : List Effect} {c c' : LPushConn}

theorem registrations_append (trace effects : List Effect) :
    registrations (trace ++ effects) = registrations trace ++ registrations effects :=
  List.filter_append ..

theorem registrations_plain (h : ∀ e ∈ effects, e.Plain) : registrations effects = [] := by
  rw [registrations, List.filter_eq_nil_iff]
  intro e he
  have hplain := h e he
  cases e with
  | createClient client | destroyKey key | deleteClient cstfd => exact hplain.elim
  | _ => exact Bool.false_ne_true

/-- A refusal among effects of which only the last is not plain is that last one. -/
theorem refused_mem_concat {msg : LPushHandshakeMessage} {e : Effect} (hplain : ∀ e ∈ effects, e.Plain)
    (hmem : .refused msg ∈ trace ++ (effects ++ [e])) : .refused msg ∈ trace ∨ e = .refused msg := by
  rcases List.mem_append.mp hmem with hbefore | hnow
  · exact .inl hbefore
  · rcases List.mem_append.mp hnow with hfirst | hlast
    · exact (hplain _ hfirst).elim
    · exact .inr (List.mem_singleton.mp hlast).symm

theorem registrations_concat {e : Effect} (hplain : ∀ e ∈ effects, e.Plain) :
    registrations (effects ++ [e]) = registrations [e] := by
  rw [registrations_append, registrations_plain hplain, List.nil_append]

theorem key_of_bare {client client' : LPushClient} (h : client.bare = client'.bare) :
    client.key = client'.key ∧ client.cstfd = client'.cstfd := by
  have hcstfd := congrArg LPushClient.cstfd h
  have huserId := congrArg LPushClient.userId h
  have happId := congrArg LPushClient.appId h
  have hscrete := congrArg LPushClient.screteKey h
  simp only [LPushClient.bare] at hcstfd huserId happId hscrete
  exact ⟨by rw [LPushClient.key, LPushClient.key, huserId, happId, hscrete], hcstfd⟩

/-- The stage stays the same where the client does. -/
theorem Standing.keep (h : Standing surroundings trace c) (hstfd : c'.stfd = c.stfd)
    (hclient : c'.client.map LPushClient.bare = c.client.map LPushClient.bare)
    (hsame : registrations effects = []) (hopen : c.point ≠ .closed)
    (hclosed : c'.point = .closed → c'.client = none) : Standing surroundings (trace ++ effects) c' := by
  have hregistrations : registrations (trace ++ effects) = registrations trace := by
    rw [registrations_append, hsame, List.append_nil]
  cases h with
  | unknown hnone htrace =>
      rw [hnone, Option.map_none, Option.map_eq_none_iff] at hclient
      exact .unknown hclient (hregistrations.trans htrace)
  | known msg client hsome hbare hpresented hadmits _ htrace =>
      rw [hsome, Option.map_some] at hclient
      obtain ⟨client', hclient', hbare'⟩ := Option.map_eq_some_iff.mp hclient
      refine .known msg client' hclient' ?_ (List.mem_append_left _ hpresented) hadmits ?_ ?_
      · rw [hbare', hbare, hstfd]
      · intro hpoint
        cases hclient'.symm.trans (hclosed hpoint)
      · rw [hregistrations, htrace, hstfd]
  | forgotten client _ hpoint => exact (hopen hpoint).elim

theorem Vetted.outcome {env : Env} {w : World} {thread : ThreadName} {d : Dialogue}
    (h : Vetted surroundings trace c) (hcoherent : Coherent d c) (henv : surroundings env)
    (hstep : c.step env w thread = some (c', effects)) : Vetted surroundings (trace ++ effects) c' := by
  have hopen : c.point ≠ .closed := by
    intro hclosed
    rw [hcoherent.step_closed hclosed] at hstep
    cases hstep
  -- a dismissed connection shows plain effects only
  have hdismissed : c.Dismissed → c'.point = .closed ∧ ∀ e ∈ effects, e.Plain :=
    fun hdismissed => hcoherent.step_dismissed hdismissed hstep
  have hmessage : ∀ msg, c.lphandshakeMsg = some msg → .presented msg ∈ trace ++ effects ∧
      (c'.Dismissed ∨ ∃ env, surroundings env ∧ Admits env msg) := by
    intro msg hmsg
    obtain ⟨hpresented, hjudged⟩ := h.message msg hmsg
    refine ⟨List.mem_append_left _ hpresented, hjudged.imp_left fun hdismiss => ?_⟩
    exact .inr (hdismissed hdismiss).1
  cases outcome_step hcoherent hstep with
  | kept hplain huser hclosed =>
      refine ⟨h.standing.keep huser.stfd huser.client (registrations_plain hplain) hopen hclosed,
        fun msg hmsg => hmessage msg (huser.lphandshakeMsg msg hmsg), fun msg hmem => ?_⟩
      rcases List.mem_append.mp hmem with hbefore | hnow
      · obtain ⟨hdismiss, htrace⟩ := h.refused msg hbefore
        refine ⟨.inr (hdismissed hdismiss).1, ?_⟩
        rw [registrations_append, htrace, registrations_plain hplain, List.append_nil]
      · exact (hplain _ hnow).elim
  | presented msg hplain hstfd hclient hmsg hjudged hopen' hmade =>
      rename_i effects
      have hlast : Effect.presented msg ∈ trace ++ (effects ++ [.presented msg]) := by simp
      refine ⟨?_, fun msg' hmsg' => ?_, fun msg' hmem => ?_⟩
      · apply h.standing.keep hstfd (by rw [hclient])
        · rw [registrations_concat hplain]
          rfl
        · exact hopen
        · intro hclosed
          exact (hopen' hclosed).elim
      · obtain rfl := Option.some.inj (hmsg.symm.trans hmsg')
        exact ⟨hlast, hjudged.imp_right fun hadmits => ⟨env, henv, hadmits⟩⟩
      · rcases refused_mem_concat hplain hmem with hbefore | hnow
        · have hall := (hdismissed (h.refused msg' hbefore).1).2
          exact (hall (.presented msg) (by simp)).elim
        · cases hnow
  | refused msg hplain huser hclient hmsg hregistered hdismissed' =>
      have hsame : registrations (_ ++ [.refused msg]) = [] := registrations_concat hplain
      have hstanding := h.standing.keep huser.stfd huser.client hsame hopen fun _ => hclient
      refine ⟨hstanding, fun msg' hmsg' => hmessage msg' (huser.lphandshakeMsg msg' hmsg'), fun _ _ => ?_⟩
      refine ⟨.inl hdismissed', ?_⟩
      have hnone : c.client = none := by
        have huser' := huser.client
        rwa [hclient, Option.map_none, eq_comm, Option.map_eq_none_iff] at huser'
      cases h.standing with
      | unknown _ htrace => rw [registrations_append, htrace, hsame, List.append_nil]
      | known _ _ hsome => cases hnone.symm.trans hsome
      | forgotten _ _ hclosed => exact (hopen hclosed).elim
  | enrolled msg hplain hstfd hkept hnone hmsg hclient hunknown hopen' =>
      obtain ⟨hpresented, hjudged⟩ := h.message msg hmsg
      have hnot : ¬ c.Dismissed := by
        intro hdismiss
        exact (hdismissed hdismiss).2 (.createClient (.create c.stfd msg)) (by simp)
      refine ⟨?_, fun msg' hmsg' => hmessage msg' (hkept.symm.trans hmsg'), fun msg' hmem => ?_⟩
      · have hadmits := hjudged.resolve_left hnot
        refine .known msg (.create c.stfd msg) hclient ?_ (List.mem_append_left _ hpresented) hadmits hopen' ?_
        · rw [hstfd]
          rfl
        · cases h.standing with
          | unknown _ htrace =>
              rw [registrations_append, htrace, registrations_concat hplain, hstfd]
              rfl
          | known _ _ hsome => cases hnone.symm.trans hsome
          | forgotten _ _ hclosed => exact (hopen hclosed).elim
      · rcases refused_mem_concat hplain hmem with hbefore | hnow
        · exact (hnot (h.refused msg' hbefore).1).elim
        · cases hnow
  | released client hplain hstfd hclient hnone hmsg hclosed =>
      have hnot : ¬ c.Dismissed := by
        intro hdismiss
        exact (hdismissed hdismiss).2 (.destroyKey client.key) (by simp)
      refine ⟨?_, fun msg' hmsg' => ?_, fun msg' hmem => ?_⟩
      · cases h.standing with
        | unknown hnone' => cases hnone'.symm.trans hclient
        | known msg client' hsome hbare _ _ _ htrace =>
            obtain rfl := Option.some.inj (hclient.symm.trans hsome)
            have hbare' : client.bare = (LPushClient.create c.stfd msg).bare := hbare
            obtain ⟨hkey, hcstfd⟩ := key_of_bare hbare'
            refine .forgotten (.create c.stfd msg) hnone hclosed ?_
            rw [registrations_append, htrace, registrations_append, registrations_plain hplain, hkey, hcstfd]
            rfl
        | forgotten _ _ hclosed' => exact (hopen hclosed').elim
      · cases hmsg.symm.trans hmsg'
      · rcases List.mem_append.mp hmem with hbefore | hnow
        · exact (hnot (h.refused msg' hbefore).1).elim
        · rcases List.mem_append.mp hnow with hfirst | hlast
          · exact (hplain _ hfirst).elim
          · simp at hlast

theorem Vetted.queued {msg : LPushWorkerMessage} (h : Vetted surroundings trace c)
    (hpush : c.push msg = some c') : Vetted surroundings (trace ++ [.queued msg]) c' := by
  obtain ⟨client, hclient, rfl⟩ := Option.map_eq_some_iff.mp hpush
  have hsame : registrations [.queued msg] = [] := rfl
  obtain ⟨hopen, hknown⟩ : c.point ≠ .closed ∧ registrations trace ≠ [] := by
    cases h.standing with
    | unknown hnone => cases hnone.symm.trans hclient
    | known _ _ _ _ _ _ hopen htrace =>
        refine ⟨hopen, ?_⟩
        rw [htrace]
        exact List.cons_ne_nil _ _
    | forgotten _ hnone => cases hnone.symm.trans hclient
  refine ⟨h.standing.keep rfl ?_ hsame hopen fun hclosed => (hopen hclosed).elim,
    fun msg' hmsg => ?_, fun msg' hmem => ?_⟩
  · rw [hclient]
    rfl
  · obtain ⟨hpresented, hjudged⟩ := h.message msg' hmsg
    exact ⟨List.mem_append_left _ hpresented, hjudged⟩
  · rcases List.mem_append.mp hmem with hbefore | hnow
    · exact (hknown (h.refused msg' hbefore).2).elim
    · cases List.mem_singleton.mp hnow

/-- **The client of a connection belongs to whoever passed the handshake on it.** -/
theorem history_vetted (hrun : History surroundings trace c) : Vetted surroundings trace c := by
  induction hrun with
  | start haccepted =>
      obtain ⟨stfd, beyond, rfl | rfl⟩ := haccepted
      · exact ⟨.unknown rfl rfl, fun _ h => (by cases h), fun _ h => (List.not_mem_nil h).elim⟩
      · exact ⟨.unknown rfl rfl, fun _ h => (by cases h), fun _ h => (List.not_mem_nil h).elim⟩
  | next hbefore hstep ih =>
      cases hstep with
      | thread env w thread henv hstep =>
          have hcoherent := (history_proper hbefore).2 (crashed_of_step hstep)
          exact ih.outcome hcoherent henv hstep
      | queued msg hrunning hpush => exact ih.queued hpush

/-- Only what `handshake` made of a frame is ever presented. -/
theorem Outcome.made {env : Env} (h : Outcome env c (c', effects)) {msg : LPushHandshakeMessage}
    (hmem : .presented msg ∈ effects) : ∃ lpc, .message errorSuccess lpc ∈ effects ∧ Made env.platform lpc msg := by
  cases h with
  | kept hplain => exact (hplain _ hmem).elim
  | presented msg' hplain _ _ _ _ _ hmade =>
      obtain ⟨lpc, hmessage, hmade⟩ := hmade
      rcases List.mem_append.mp hmem with hfirst | hlast
      · exact (hplain _ hfirst).elim
      · cases List.mem_singleton.mp hlast
        exact ⟨lpc, List.mem_append_left _ hmessage, hmade⟩
  | refused _ hplain | enrolled _ hplain | released _ hplain =>
      rcases List.mem_append.mp hmem with hfirst | hlast
      · exact (hplain _ hfirst).elim
      · simp at hlast

/-- No thread queues a message. -/
theorem Outcome.not_queued {env : Env} (h : Outcome env c (c', effects)) (msg : LPushWorkerMessage) :
    .queued msg ∉ effects := by
  intro hmem
  cases h with
  | kept hplain => exact hplain _ hmem
  | presented _ hplain | refused _ hplain | enrolled _ hplain | released _ hplain =>
      rcases List.mem_append.mp hmem with hfirst | hlast
      · exact hplain _ hfirst
      · simp at hlast

/-- A user is refused where the lookup finds a client, and nothing is deleted then. -/
theorem Outcome.refusal {env : Env} (h : Outcome env c (c', effects)) {msg : LPushHandshakeMessage}
    (hmem : .refused msg ∈ effects) : c.lphandshakeMsg = some msg ∧
      env.registered msg.userId msg.appId msg.screteKey = true ∧ ∀ cstfd, .deleteClient cstfd ∉ effects := by
  cases h with
  | kept hplain => exact (hplain _ hmem).elim
  | refused msg' hplain _ _ hmsg hregistered =>
      rcases List.mem_append.mp hmem with hfirst | hlast
      · exact (hplain _ hfirst).elim
      · cases List.mem_singleton.mp hlast
        refine ⟨hmsg, hregistered, fun cstfd hdeleted => ?_⟩
        rcases List.mem_append.mp hdeleted with hfirst | hlast'
        · exact hplain _ hfirst
        · simp at hlast'
  | presented _ hplain | enrolled _ hplain | released _ hplain =>
      rcases List.mem_append.mp hmem with hfirst | hlast
      · exact (hplain _ hfirst).elim
      · simp at hlast

theorem history_made (hrun : History surroundings trace c) {msg : LPushHandshakeMessage}
    (hmem : .presented msg ∈ trace) :
    ∃ env lpc, surroundings env ∧ .message errorSuccess lpc ∈ trace ∧ Made env.platform lpc msg := by
  induction hrun with
  | start => exact (List.not_mem_nil hmem).elim
  | next hbefore hstep ih =>
      rcases List.mem_append.mp hmem with hpast | hnow
      · obtain ⟨env, lpc, henv, hmessage, hmade⟩ := ih hpast
        exact ⟨env, lpc, henv, List.mem_append_left _ hmessage, hmade⟩
      · cases hstep with
        | thread env w thread henv hstep =>
            have hcoherent := (history_proper hbefore).2 (crashed_of_step hstep)
            obtain ⟨lpc, hmessage, hmade⟩ := (outcome_step hcoherent hstep).made hnow
            exact ⟨env, lpc, henv, List.mem_append_right _ hmessage, hmade⟩
        | queued msg' hrunning hpush => simp at hnow

end history

end LPushConn

end LinkedonPush
