import Mathlib.Data.Fintype.EquivFin
import LinkedonPush.App.Registry
import LinkedonPush.App.Schedule

/-!
# Logging in

The two checks of the handshake are all that stands between a client and the registry: on a server
that knows nobody, a client whose first frame passes them and whose second frame asks for a
connection is registered.
-/

namespace LinkedonPush

open Theory LPushProtocol

namespace LPushConn

/-- The cycle thread takes a connection without a client to its next yield point, whatever addresses
`new` returns. -/
def Solo (env : Env) (c : LPushConn) (effects : List Effect) (c' : LPushConn) : Prop :=
  c.client = none ∧ ∃ w : World, ∀ address,
    c.step env { w with address := address } .cycle = some (c', effects)

section solo

variable {env : Env} {c c' : LPushConn} {p : Progress} (w : World)

theorem solo_of_cycle (hclient : c.client = none) (hrunning : c.crashed = false)
    (h : ∀ address, c.cycle env { w with address := address } = some p) : Solo env c p.2 p.1 := by
  refine ⟨hclient, w, fun address => ?_⟩
  rw [step, hrunning]
  exact h address

/-- Before there is a client, no address is needed, and what was read is in the tree already. -/
theorem handshake_world (r : MessageReading) (delivery : Delivery SocketError UInt8) (address : Nat) :
    c.handshake env { w with delivery := delivery, address := address } r = c.handshake env w r := by
  cases r <;> rfl

theorem createConnection_world (r : MessageReading) (delivery : Delivery SocketError UInt8) (address : Nat) :
    c.createConnection env { w with delivery := delivery, address := address } r =
      c.createConnection env w r := by
  cases r <;> rfl

variable {post : Int × LPushChunk × LPushFastBuffer → List (Delivery SocketError UInt8) → Prop}
  {r : MessageReading} {history : List (Delivery SocketError UInt8)} {eof : SocketError}
  {feed feed' : Reading.Feed UInt8} {result : Int × LPushChunk × LPushFastBuffer}

/-- A step within a call of `readMessage` changes nothing but the point of the thread. -/
theorem solo_reading (go : LPushConn → MessageReading → Progress)
    (hstep : ∀ point size resume (d : Delivery SocketError UInt8), d.Allowed size →
      ∃ effects point', Solo env (go { c with point := point } (.need size resume)).1 effects
        (go { c with point := point' } (resume d)).1)
    (h : Reading.Ensures post r history) (hrun : r.run eof feed = some (result, feed')) :
    ∃ effects point, Run (· = (go c r).1) (Solo env) effects
      (go { c with point := point } (.done result)).1 := by
  have hsuspended : ∀ c' size resume, (∃ point, c' = (go { c with point := point } (.need size resume)).1) →
      ∀ d : Delivery SocketError UInt8, d.Allowed size → ∃ effects c'', Solo env c' effects c'' ∧
        ∃ point, c'' = (go { c with point := point } (resume d)).1 := by
    intro c' size resume hc' d hallowed
    obtain ⟨point, rfl⟩ := hc'
    obtain ⟨effects, point', hsolo⟩ := hstep point size resume d hallowed
    exact ⟨effects, _, hsolo, point', rfl⟩
  obtain ⟨effects, c', hsolo, point, rfl⟩ := Reading.driven
    (fun c' r => ∃ point, c' = (go { c with point := point } r).1) hsuspended h hrun ⟨c.point, rfl⟩
  exact ⟨effects, point, hsolo⟩

theorem solo_handshake (hclient : c.client = none) (hrunning : c.crashed = false)
    (h : Reading.Ensures post r history) (hrun : r.run eof feed = some (result, feed')) :
    ∃ effects point, Run (· = (c.handshake env w r).1) (Solo env) effects
      ({ c with point := point }.handshake env w (.done result)).1 := by
  refine solo_reading (fun c => c.handshake env w) (fun point size resume d hallowed => ?_) h hrun
  refine ⟨_, .handshake (.need size resume), solo_of_cycle { w with delivery := d } hclient hrunning
    (p := Progress.after [.received d] (handshake env w _ (resume d))) fun address => ?_⟩
  show (if d.Allowed size then some (Progress.after [.received d] (handshake env _ _ (resume d))) else none) = _
  rw [if_pos hallowed]
  exact congrArg (fun p => some (Progress.after [.received d] p)) (handshake_world w (resume d) d address)

theorem solo_createConnection (hclient : c.client = none) (hrunning : c.crashed = false)
    (h : Reading.Ensures post r history) (hrun : r.run eof feed = some (result, feed')) :
    ∃ effects point, Run (· = (c.createConnection env w r).1) (Solo env) effects
      ({ c with point := point }.createConnection env w (.done result)).1 := by
  refine solo_reading (fun c => c.createConnection env w) (fun point size resume d hallowed => ?_) h hrun
  refine ⟨_, .createConnection (.need size resume), solo_of_cycle { w with delivery := d } hclient hrunning
    (p := Progress.after [.received d] (createConnection env w _ (resume d))) fun address => ?_⟩
  show (if d.Allowed size then some (Progress.after [.received d] (createConnection env _ _ (resume d)))
    else none) = _
  rw [if_pos hallowed]
  exact congrArg (fun p => some (Progress.after [.received d] p)) (createConnection_world w (resume d) d address)

/-! ### From the first frame to the registry -/

variable (env) {b : LPushFastBuffer} {chunk : LPushChunk}

theorem solo_created (hpoint : c.point = .created) (hprotocol : c.lpushProtocol = some b)
    (hclient : c.client = none) (hrunning : c.crashed = false) :
    ∃ effects, Solo env c effects (c.handshake env w (readMessage b)).1 := by
  refine ⟨_, solo_of_cycle w (p := c.handshake env w (readMessage b)) hclient hrunning fun address => ?_⟩
  simp only [cycle, hpoint, withProtocol, hprotocol]
  exact congrArg some (handshake_world w (readMessage b) w.delivery address)

theorem solo_accepting (hpoint : c.point = .accepting chunk) (hprotocol : c.lpushProtocol = some b)
    (hwrite : w.writeError = none) (hclient : c.client = none) (hrunning : c.crashed = false) :
    ∃ effects, Solo env c effects (c.createConnection env w (readMessage b)).1 := by
  refine ⟨_, solo_of_cycle w
    (p := Progress.after [.wrote chunk true none] (c.createConnection env w (readMessage b)))
    hclient hrunning fun address => ?_⟩
  simp only [cycle, hpoint, withProtocol, hprotocol, hwrite, Option.isNone_none]
  exact congrArg (fun p => some (Progress.after [.wrote chunk true none] p))
    (createConnection_world w (readMessage b) w.delivery address)

/-- **A client that passes both checks is registered.** -/
theorem solo_login {first second : LPushChunk} {msg : LPushHandshakeMessage} (hpoint : c.point = .created)
    (hprotocol : c.lpushProtocol = some b) (hclient : c.client = none) (hrunning : c.crashed = false)
    (hb : b.WellFormed) (hnb : b.nbBuffer = lpDefaultRecvBufferSize) (hempty : b.data = [])
    (hfirst : 1 ≤ first.header.datalenght.toInt ∧ first.header.datalenght.toInt ≤ lpushHandshakeDataMax)
    (hsecond : 1 ≤ second.header.datalenght.toInt ∧ second.header.datalenght.toInt ≤ lpushHandshakeDataMax)
    (hhandshake : (LPushProtocol.handshake env.platform w.beyond first).result = some (errorSuccess, msg))
    (hchecked : checkUserMessage env msg = errorSuccess)
    (hconnection : LPushProtocol.createConnection second = errorSuccess)
    (hunknown : env.registered msg.userId msg.appId msg.screteKey = false) (hwrite : w.writeError = none) :
    ∃ effects c' b', Run (· = c) (Solo env) effects c' ∧ c'.client = some (.create c.stfd msg) ∧
      c'.point = .connecting (sendCreateConnection w.now 0x01) ∧ c'.lphandshakeMsg = some msg ∧
        c'.crashed = false ∧ c'.lpushProtocol = some b' ∧ b'.WellFormed ∧
          b'.nbBuffer = lpDefaultRecvBufferSize ∧ b'.data = [] := by
  -- the first frame
  obtain ⟨b₁, feed₁, hrun₁, hb₁, hnb₁, hunread₁⟩ := run_readMessage_sendPacket hb hnb .read
    ⟨sendPacket first ++ sendPacket second, fun _ => 1⟩ hfirst.1 hfirst.2 (by rw [unread, hempty, List.nil_append])
  obtain ⟨_, hcreated⟩ := solo_created env w hpoint hprotocol hclient hrunning
  obtain ⟨_, point, hhand⟩ := solo_handshake (c := c) w hclient hrunning
    (readMessage_ensures hb hnb) hrun₁
  have haccepting : ({ c with point := point }.handshake env w (.done (errorSuccess, first, b₁))).1 =
      { c with lpushProtocol := some b₁, lphandshakeMsg := some msg,
               point := .accepting (sendHandshake w.now 0x01) } := by
    simp only [handshake, ne_eq, not_true_eq_false, if_false, hhandshake, hchecked, Progress.after,
      LPushHandshakeMessage.setParams_tomap]
  rw [haccepting] at hhand
  -- the second frame
  have hunread₁' : unread b₁ feed₁ = sendPacket second ++ [] := by rw [hunread₁, List.append_nil]
  obtain ⟨b₂, feed₂, hrun₂, hb₂, hnb₂, hunread₂⟩ :=
    run_readMessage_sendPacket hb₁ hnb₁ .read feed₁ hsecond.1 hsecond.2 hunread₁'
  generalize hc₁ : ({ c with lpushProtocol := some b₁, lphandshakeMsg := some msg,
                             point := .accepting (sendHandshake w.now 0x01) } : LPushConn) = c₁ at hhand
  have hfields : c₁.client = none ∧ c₁.crashed = false ∧ c₁.lphandshakeMsg = some msg ∧ c₁.stfd = c.stfd ∧
      c₁.lpushProtocol = some b₁ ∧ c₁.point = .accepting (sendHandshake w.now 0x01) := by
    rw [← hc₁]
    exact ⟨hclient, hrunning, rfl, rfl, rfl, rfl⟩
  obtain ⟨hclient₁, hrunning₁, hmsg, hstfd, hprotocol₁, hpoint₁⟩ := hfields
  obtain ⟨_, haccepted⟩ := solo_accepting env w hpoint₁ hprotocol₁ hwrite hclient₁ hrunning₁
  obtain ⟨_, point', hcreate⟩ := solo_createConnection (c := c₁) w hclient₁ hrunning₁
    (readMessage_ensures hb₁ hnb₁) hrun₂
  have hdata : b₂.data = [] := (List.append_eq_nil_iff.mp hunread₂).1
  refine ⟨_, _, b₂, (((Run.single hcreated).append hhand).append (Run.single haccepted)).append hcreate, ?_⟩
  simp only [createConnection, register, ne_eq, not_true_eq_false, if_false, hconnection, hmsg, hunknown,
    Progress.after, hstfd, hrunning₁, Bool.false_eq_true]
  exact ⟨trivial, trivial, trivial, trivial, trivial, hb₂, hnb₂, hdata⟩

end solo

end LPushConn

namespace Server

/-! ### The only connection of a server -/

/-- Nothing but connection 0 has happened on the server. -/
structure Only (trace : List Observation) (s : Server) (c : LPushConn) : Prop where
  conns : s.conns = Function.update (fun _ => none) 0 (some c)
  crashed : s.crashed = c.crashed
  processor : s.processor = .free
  shown : ∀ o ∈ trace, o = .accepted 0 ∨ (∃ e, o = .conn 0 e) ∨ ∃ source, o = .sourceDeleted source

section only

variable {setup : Setup} {tasks : List Bytes} {trace : List Observation} {s : Server} {c c' : LPushConn}
  {effects : List Effect}

theorem Only.conn (h : Only trace s c) : s.conns 0 = some c := by rw [h.conns, Function.update_self]

/-- As long as the only connection has no client, nobody is registered. -/
theorem Only.env (h : Only trace s c) (hclient : c.client = none) (hrun : Reached setup tasks trace s) :
    s.env setup = (initial tasks).env setup := by
  have hclients : s.clients = fun _ => none := by
    funext key
    cases hkey : s.clients key with
    | none => rfl
    | some id =>
        obtain ⟨c', client, hc', hsome, -⟩ := (hrun.clients_iff key id).mp hkey
        rw [h.conns] at hc'
        rcases update_eq_some.mp hc' with ⟨-, rfl⟩ | ⟨-, hnone⟩
        · cases hclient.symm.trans hsome
        · cases hnone
  simp only [Server.env, sourceInstance, hclients]
  rfl

theorem Only.step (h : Only trace s c) (hrun : Reached setup tasks trace s)
    (hsolo : LPushConn.Solo ((initial tasks).env setup) c effects c') :
    ∃ trace' s', Reached setup tasks trace' s' ∧ Only trace' s' c' := by
  obtain ⟨hclient, w, hstep⟩ := hsolo
  -- an address that no request in the loader's queue has
  obtain ⟨address, haddress⟩ := Infinite.exists_notMem_finset (s.history.map Prod.fst).toFinset
  have hthread : threadStep setup 0 .cycle { w with address := address } s = some (performAll 0
      { s with conns := Function.update s.conns 0 (some c'), crashed := c'.crashed } effects) := by
    simp only [threadStep, h.conn, h.env hclient hrun, hstep address]
  have hrunning : s.crashed = false := by
    rw [h.crashed]
    exact LPushConn.crashed_of_step (hstep address)
  refine ⟨_, _, hrun.next (.thread 0 .cycle _ hrunning h.processor (fun entry hentry heq => ?_) hthread), ?_⟩
  · apply haddress
    have hmem : entry.1 ∈ s.history.map Prod.fst := List.mem_map_of_mem hentry
    rwa [heq, ← List.mem_toFinset] at hmem
  · obtain ⟨hconns, -, hcrashed, -, hprocessor⟩ := performAll_frame 0
      { s with conns := Function.update s.conns 0 (some c'), crashed := c'.crashed } effects
    refine ⟨hconns.trans ?_, hcrashed, hprocessor.trans h.processor, fun o ho => ?_⟩
    · rw [h.conns, Function.update_idem]
    · rcases List.mem_append.mp ho with hpast | hnow
      · exact h.shown o hpast
      · exact .inr ((mem_performAll _ _ hnow).imp_left fun hconn => hconn.imp fun _ he => he.2)

theorem Only.run (h : Only trace s c) (hrun : Reached setup tasks trace s)
    (hsolo : Run (· = c) (LPushConn.Solo ((initial tasks).env setup)) effects c') :
    ∃ trace' s', Reached setup tasks trace' s' ∧ Only trace' s' c' := by
  induction hsolo with
  | start hc =>
      rw [hc]
      exact ⟨trace, s, hrun, h⟩
  | next _ hstep ih =>
      obtain ⟨trace₁, s₁, hrun₁, honly₁⟩ := ih
      exact honly₁.step hrun₁ hstep

/-- **A client that passes both checks of its server can be registered there.** -/
theorem reached_login {msg : LPushHandshakeMessage} (setup : Setup) (tasks : List Bytes) (stfd : Nat)
    (first second : LPushChunk) (memory : Nat → UInt8) (hroom : 0 < setup.conf.maxconnect)
    (hfirst : 1 ≤ first.header.datalenght.toInt ∧ first.header.datalenght.toInt ≤ lpushHandshakeDataMax)
    (hsecond : 1 ≤ second.header.datalenght.toInt ∧ second.header.datalenght.toInt ≤ lpushHandshakeDataMax)
    (hhandshake : (LPushProtocol.handshake setup.platform memory first).result = some (errorSuccess, msg))
    (hchecked : LPushConn.checkUserMessage ((initial tasks).env setup) msg = errorSuccess)
    (hconnection : LPushProtocol.createConnection second = errorSuccess) :
    ∃ trace s c, Reached setup tasks trace s ∧ Only trace s c ∧ c.client = some (.create stfd msg) := by
  have hfree : ¬ (initial tasks).InUse stfd := by
    rintro ⟨id, c, hc, -⟩
    cases hc
  have hstart : Reached setup tasks [] (initial tasks) := .start rfl
  have haccepted := hstart.next (.accept stfd [] true true rfl rfl hfree)
  have hspec : acceptClient setup.conf stfd [] true true (initial tasks) =
      ({ initial tasks with
          conns := Function.update (initial tasks).conns 0 (some (.create stfd []))
          accepted := 1
          table := [0] }, [.accepted 0]) := by
    have hlt : ¬ setup.conf.maxconnect ≤ (initial tasks).table.length := not_le.mpr hroom
    rw [acceptClient, if_neg hlt]
    rfl
  rw [hspec] at haccepted
  obtain ⟨effects, c, -, hsolo, hclient, -⟩ := LPushConn.solo_login ((initial tasks).env setup)
    ⟨.error .read, none, memory, 0, 0, 0, true, true⟩ (c := .create stfd []) rfl rfl rfl rfl
    (LPushFastBuffer.fresh_wellFormed []) rfl (LPushFastBuffer.fresh_data []) hfirst hsecond hhandshake hchecked
    hconnection rfl rfl
  obtain ⟨trace, s, hrun, honly⟩ :=
    Only.run ⟨rfl, rfl, rfl, fun o ho => .inl (List.mem_singleton.mp ho)⟩ haccepted hsolo
  exact ⟨trace, s, c, hrun, honly, hclient⟩

end only

/-! ### A server with one application -/

section known

variable {setup : Setup} {tasks : List Bytes} {trace : List Observation} {s : Server} {id : Nat}
  {msg : LPushHandshakeMessage}

theorem Reached.made (hrun : Reached setup tasks trace s) (hmem : .conn id (.presented msg) ∈ trace) :
    ∃ lpc, .conn id (.message errorSuccess lpc) ∈ trace ∧ LPushConn.Made setup.platform lpc msg := by
  have hview := mem_view.mpr hmem
  cases hc : s.conns id with
  | none =>
      rw [hrun.projects.unseen id hc] at hview
      exact (List.not_mem_nil hview).elim
  | some c =>
      obtain ⟨env, lpc, henv, hmessage, hmade⟩ := LPushConn.history_made (hrun.history hc) hview
      rw [henv.2.1] at hmade
      exact ⟨lpc, mem_view.mp hmessage, hmade⟩

def userSetup : Setup := knownSetup userJson userMembers (text "7appkey") userDigest

/-- Nothing but the one known message can be presented. -/
theorem presented_known {json src : Bytes} {members : List (Bytes × Bytes)} {digest : List.Vector UInt8 16}
    (hmembers : LPushFMT.stringMembers (.object (members.map fun (key, value) => (key, .string value))) =
      some members)
    (hrun : Reached (knownSetup json members src digest) tasks trace s)
    (hmem : .conn id (.presented msg) ∈ trace) : msg = .setParams members := by
  obtain ⟨lpc, -, memory, hhandshake⟩ := hrun.made hmem
  obtain ⟨-, source, root, parms, hreader, hparms, rfl⟩ := LPushProtocol.handshake_spec hhandshake
  simp only [knownSetup, knownPlatform] at hreader
  split at hreader
  · cases hreader
    cases hmembers.symm.trans hparms
    rfl
  · cases hreader

theorem userSetup_handshake : (LPushProtocol.handshake userSetup.platform (fun _ => 0)
    (handshakeChunk userJson (by decide))).result = some (errorSuccess, .setParams userMembers) := by
  decide +kernel

theorem reached_user : ∃ trace s c, Reached userSetup [] trace s ∧ Only trace s c ∧
    c.client = some (.create 7 (.setParams userMembers)) :=
  reached_login userSetup [] 7 (handshakeChunk userJson (by decide)) connectionChunk (fun _ => 0) (by decide)
    (by decide) (by decide) userSetup_handshake rfl rfl

end known

end Server

end LinkedonPush
