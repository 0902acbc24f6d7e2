import LinkedonPush.App.Login

/-!
# Who gets registered

The checks of the handshake compare strings by searching one in another and by their bytes up to the
first NUL. They decide what they are meant to decide for messages of which these comparisons leave
nothing out, and for no others.
-/

namespace LinkedonPush

open Theory

/-! ### What the checks decide -/

/-- The digest of a whole text in hexadecimal. -/
def md5Hex (platform : Platform) (src : Bytes) : Bytes :=
  (platform.md5 src).toList.flatMap fun (byte : UInt8) => [hexDigit (byte >>> 4), hexDigit (byte &&& 0x0F)]

theorem md5Encoder_eq_md5Hex (platform : Platform) (src : Bytes) :
    md5Encoder platform src = md5Hex platform (cStr src) := rfl

/-- The secret stored for an application. -/
def Setup.stored (setup : Setup) (appId : Bytes) : Option Bytes :=
  setup.hashes (cStr setup.conf.appKeys) appId

/-- What the handshake of a user has to show. -/
structure Authentic (setup : Setup) (msg : LPushHandshakeMessage) : Prop where
  userId_ne_nil : msg.userId ≠ []
  userId_decimal : ∀ c ∈ msg.userId, c ∈ decimalDigits
  screteKey : setup.stored msg.appId = some msg.screteKey
  md5Data : msg.md5Data = md5Hex setup.platform (msg.userId ++ msg.appId ++ msg.screteKey)

/-- The message names a user, its secret is no proper part of the stored one, and no NUL hides a
part of it. -/
structure Definite (setup : Setup) (msg : LPushHandshakeMessage) : Prop where
  userId_ne_nil : msg.userId ≠ []
  appId : (0 : UInt8) ∉ msg.appId
  screteKey : (0 : UInt8) ∉ msg.screteKey
  length : ∀ value, setup.stored msg.appId = some value → msg.screteKey <:+: value →
    value.length ≤ msg.screteKey.length

section checks

variable {setup : Setup} {env : Env} {msg : LPushHandshakeMessage}

/-- What `check` compares, where no NUL is involved. -/
theorem check_iff {platform : Platform} (happId : (0 : UInt8) ∉ msg.appId)
    (hscreteKey : (0 : UInt8) ∉ msg.screteKey) :
    msg.check platform = true ↔ isIntergeStr msg.userId = true ∧
      msg.md5Data = md5Hex platform (msg.userId ++ msg.appId ++ msg.screteKey) := by
  rw [LPushHandshakeMessage.check_iff_md5Encoder]
  apply and_congr_right
  intro hinteger
  have hnul : (0 : UInt8) ∉ msg.userId ++ msg.appId ++ msg.screteKey := by
    simp only [List.mem_append, not_or]
    exact ⟨⟨zero_notMem_of_isIntergeStr hinteger, happId⟩, hscreteKey⟩
  rw [md5Encoder_eq_md5Hex, cStr_eq_self hnul]

/-- What `checkUserMessage` compares, where no NUL is involved. -/
theorem checkUserMessage_spec (henv : Server.Surroundings setup env) (happId : (0 : UInt8) ∉ msg.appId)
    (h : LPushConn.checkUserMessage env msg = errorSuccess) :
    ∃ value, setup.stored msg.appId = some value ∧ occursIn msg.screteKey (cStr value) = true := by
  obtain ⟨hconf, -, hhashes⟩ := henv
  unfold LPushConn.checkUserMessage RedisClient.hget at h
  rw [hconf, hhashes, cStr_eq_self happId] at h
  dsimp only at h
  rw [Setup.stored]
  cases hstored : setup.hashes (cStr setup.conf.appKeys) msg.appId with
  | none =>
      simp only [hstored, List.isEmpty_nil, if_true] at h
      exact absurd h (by decide)
  | some value =>
      rw [hstored] at h
      dsimp only at h
      split at h
      · exact absurd h (by decide)
      · split at h
        · rename_i hoccurs
          exact ⟨value, rfl, hoccurs⟩
        · exact absurd h (by decide)

/-- **What the two checks decide.** -/
theorem authentic_iff (henv : Server.Surroundings setup env) (hadmits : LPushConn.Admits env msg)
    (happId : (0 : UInt8) ∉ msg.appId) (hscreteKey : (0 : UInt8) ∉ msg.screteKey) :
    Authentic setup msg ↔ msg.userId ≠ [] ∧ ∀ value, setup.stored msg.appId = some value →
      msg.screteKey <:+: value → value.length ≤ msg.screteKey.length := by
  obtain ⟨hcheck, hchecked⟩ := hadmits
  constructor
  · intro h
    refine ⟨h.userId_ne_nil, fun value hvalue _ => ?_⟩
    rw [Option.some.inj (hvalue.symm.trans h.screteKey)]
  · intro h
    obtain ⟨huserId, hlength⟩ := h
    obtain ⟨hinteger, hmd5⟩ := (check_iff happId hscreteKey).mp hcheck
    obtain ⟨value, hvalue, hoccurs⟩ := checkUserMessage_spec henv happId hchecked
    have hpart : msg.screteKey <:+: cStr value := by
      rwa [occursIn, decide_eq_true_iff, cStr_eq_self hscreteKey] at hoccurs
    have hshort := hlength value hvalue (hpart.trans (cStr_isPrefix value).isInfix)
    have hsecret : msg.screteKey = cStr value :=
      eq_of_occursIn hscreteKey ((cStr_isPrefix value).length_le.trans hshort) hoccurs
    have hwhole : cStr value = value := by
      apply (cStr_isPrefix value).eq_of_length_le
      rw [← hsecret]
      exact hshort
    refine ⟨huserId, isIntergeStr_iff.mp hinteger, ?_, ?_⟩
    · rw [hvalue, hsecret, hwhole]
    · rw [hmd5, henv.2.1]

end checks

namespace Server

/-! ### Whole runs -/

/-- The client of connection `id` is the one that this message, made of a frame the client sent,
asked for. -/
structure Presents (setup : Setup) (trace : List Observation) (s : Server) (id : Nat)
    (msg : LPushHandshakeMessage) : Prop where
  frame : ∃ lpc, .conn id (.message errorSuccess lpc) ∈ trace ∧ LPushConn.Made setup.platform lpc msg
  presented : .conn id (.presented msg) ∈ trace
  client : ∃ c client, s.conns id = some c ∧ c.client = some client ∧ client.bare = .create c.stfd msg

/-- Every registered client has shown who it is. -/
def Authenticated (setup : Setup) (trace : List Observation) (s : Server) : Prop :=
  ∀ key id, s.clients key = some id → ∃ msg, Presents setup trace s id msg ∧ Authentic setup msg

section runs

variable {setup : Setup} {tasks : List Bytes} {trace : List Observation} {s : Server} {id : Nat}
  {msg : LPushHandshakeMessage}

/-- Whoever is registered has passed both checks. -/
theorem Reached.admitted {key : Bytes} (hrun : Reached setup tasks trace s) (hkey : s.clients key = some id) :
    ∃ msg env, Presents setup trace s id msg ∧ Surroundings setup env ∧ LPushConn.Admits env msg := by
  obtain ⟨c, client, hc, hclient, -⟩ := (hrun.clients_iff key id).mp hkey
  cases (LPushConn.history_vetted (hrun.history hc)).standing with
  | unknown hnone => cases hnone.symm.trans hclient
  | known msg client' hsome hbare hpresented hadmits =>
      obtain ⟨env, henv, hadmits⟩ := hadmits
      have hmem := mem_view.mp hpresented
      exact ⟨msg, env, ⟨hrun.made hmem, hmem, c, client', hc, hsome, hbare⟩, henv, hadmits⟩
  | forgotten _ hnone => cases hnone.symm.trans hclient

/-- **Authentication.** Where every handshake that is presented names a user, offers no proper part
of the stored secret and contains no NUL, every registered client is authentic. -/
theorem authentication (hrun : Reached setup tasks trace s)
    (hdefinite : ∀ id msg, .conn id (.presented msg) ∈ trace → Definite setup msg) :
    Authenticated setup trace s := by
  intro key id hkey
  obtain ⟨msg, env, hpresents, henv, hadmits⟩ := hrun.admitted hkey
  have h := hdefinite id msg hpresents.presented
  exact ⟨msg, hpresents, (authentic_iff henv hadmits h.appId h.screteKey).mpr ⟨h.userId_ne_nil, h.length⟩⟩

theorem authentication_user : ∃ trace s c, Reached userSetup [] trace s ∧ s.conns 0 = some c ∧
    c.client = some (.create 7 (.setParams userMembers)) ∧ Authenticated userSetup trace s := by
  obtain ⟨trace, s, c, hrun, honly, hclient⟩ := reached_user
  refine ⟨trace, s, c, hrun, honly.conn, hclient, authentication hrun fun id msg hmem => ?_⟩
  rw [presented_known rfl hrun hmem]
  refine ⟨by decide, by decide, by decide, fun value hvalue _ => ?_⟩
  have hstored : userSetup.stored (text "app") = some (text "key") := by decide
  rw [show (LPushHandshakeMessage.setParams userMembers).appId = text "app" from rfl, hstored] at hvalue
  rw [← Option.some.inj hvalue]
  decide

/-- A message that is not authentic but passes the checks gets its client registered all the same. -/
theorem exists_not_authenticated (setup : Setup) (tasks : List Bytes) (first second : LPushChunk)
    (memory : Nat → UInt8) (hroom : 0 < setup.conf.maxconnect)
    (hfirst : 1 ≤ first.header.datalenght.toInt ∧ first.header.datalenght.toInt ≤ LPushProtocol.lpushHandshakeDataMax)
    (hsecond : 1 ≤ second.header.datalenght.toInt ∧
      second.header.datalenght.toInt ≤ LPushProtocol.lpushHandshakeDataMax)
    (hhandshake : (LPushProtocol.handshake setup.platform memory first).result = some (errorSuccess, msg))
    (hchecked : LPushConn.checkUserMessage ((initial tasks).env setup) msg = errorSuccess)
    (hconnection : LPushProtocol.createConnection second = errorSuccess)
    (hfails : msg.userId = [] ∨ ∃ value, setup.stored msg.appId = some value ∧ value ≠ msg.screteKey) :
    ∃ trace s, Reached setup tasks trace s ∧ ¬ Authenticated setup trace s := by
  obtain ⟨trace, s, c, hrun, honly, hclient⟩ :=
    reached_login setup tasks 7 first second memory hroom hfirst hsecond hhandshake hchecked hconnection
  refine ⟨trace, s, hrun, fun hauthenticated => ?_⟩
  have hkey : s.clients (LPushClient.create 7 msg).key = some 0 :=
    (hrun.clients_iff _ 0).mpr ⟨c, _, honly.conn, hclient, rfl⟩
  obtain ⟨msg', hpresents, hauthentic⟩ := hauthenticated _ 0 hkey
  obtain ⟨c', client', hc', hclient', hbare⟩ := hpresents.client
  obtain rfl := Option.some.inj (honly.conn.symm.trans hc')
  obtain rfl := Option.some.inj (hclient.symm.trans hclient')
  have huserId : msg.userId = msg'.userId := congrArg LPushClient.userId hbare
  have happId : msg.appId = msg'.appId := congrArg LPushClient.appId hbare
  have hscreteKey : msg.screteKey = msg'.screteKey := congrArg LPushClient.screteKey hbare
  rcases hfails with hempty | ⟨value, hvalue, hne⟩
  · exact hauthentic.userId_ne_nil (huserId.symm.trans hempty)
  · rw [happId, hauthentic.screteKey] at hvalue
    exact hne ((Option.some.inj hvalue).symm.trans hscreteKey.symm)

/-- A client of application "app" that names neither a user nor a secret. -/
def guestJson : Bytes :=
  text "\x7b\"appId\":\"app\",\"md5Data\":\"d2a57dc1d883fd21fb9951699df71cc7\"\x7d"

def guestMembers : List (Bytes × Bytes) :=
  [(text "appId", text "app"), (text "md5Data", text "d2a57dc1d883fd21fb9951699df71cc7")]

def guestDigest : List.Vector UInt8 16 :=
  ⟨[0xd2, 0xa5, 0x7d, 0xc1, 0xd8, 0x83, 0xfd, 0x21, 0xfb, 0x99, 0x51, 0x69, 0x9d, 0xf7, 0x1c, 0xc7], rfl⟩

def guestSetup : Setup := knownSetup guestJson guestMembers (text "app") guestDigest

theorem guestSetup_handshake : (LPushProtocol.handshake guestSetup.platform (fun _ => 0)
    (handshakeChunk guestJson (by decide))).result = some (errorSuccess, .setParams guestMembers) := by
  decide +kernel

theorem not_authenticated_guest : ∃ trace s, Reached guestSetup [] trace s ∧ ¬ Authenticated guestSetup trace s :=
  exists_not_authenticated guestSetup [] (handshakeChunk guestJson (by decide)) connectionChunk (fun _ => 0)
    (by decide) (by decide) (by decide) guestSetup_handshake rfl rfl (.inl rfl)

end runs

end Server

end LinkedonPush
