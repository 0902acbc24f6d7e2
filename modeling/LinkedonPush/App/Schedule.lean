import LinkedonPush.App.Lifecycle
import LinkedonPush.App.Projection
import LinkedonPush.App.PushFrames

/-!
# Schedules

The steps of a server as moves that a scheduler picks, so that a run can be computed from its
moves.
-/

namespace LinkedonPush

open Theory LPushProtocol

namespace Server

/-- What may happen next, with all that the system and the outside world decide. -/
inductive Move where
  | thread (id : Nat) (thread : LPushConn.ThreadName) (w : World)
  | accept (stfd : Nat) (beyond : Bytes) (fcntl created : Bool)
  | rpush (element : Bytes)
  | lrange
  | ltrim
  | request
  | page (result : List Bytes)
  | loaded

/-- `InUse`, over the connections accepted so far. -/
def inUse (s : Server) (stfd : Nat) : Bool :=
  (List.range s.accepted).any fun id =>
    match s.conns id with
    | none => false
    | some c => c.stfd == stfd && c.point.phase != .closed

/-- One move; `none` if it is not possible now. -/
def move (setup : Setup) (s : Server) : Move → Option (Server × List Observation)
  | .thread id thread w =>
      if s.crashed = false ∧ s.processor = .free ∧ ∀ entry ∈ s.history, entry.1 ≠ w.address then
        threadStep setup id thread w s
      else none
  | .accept stfd beyond fcntl created =>
      if s.crashed = false ∧ s.processor = .free ∧ s.inUse stfd = false then
        some (acceptClient setup.conf stfd beyond fcntl created s)
      else none
  | .rpush element =>
      if s.crashed = false then some ({ s with tasks := s.tasks ++ [element] }, [.pushed element])
      else none
  | .lrange =>
      if s.crashed = false ∧ s.processor = .free then cycleAll setup.platform s else none
  | .ltrim =>
      match s.crashed, s.processor with
      | false, .cycling index => some (s.ltrim index)
      | _, _ => none
  | .request =>
      match s.crashed, s.processor, s.history with
      | false, .free, (_, mie) :: rest =>
          some ({ s with history := rest, processor := .loading mie }, [.request mie])
      | _, _, _ => none
  | .page result =>
      match s.crashed, s.processor with
      | false, .loading mie => selectMongoHistoryLimit setup.platform mie result s
      | _, _ => none
  | .loaded =>
      match s.crashed, s.processor with
      | false, .loading _ => some ({ s with processor := .free }, [])
      | _, _ => none

/-- Moves one after the other. -/
def play (setup : Setup) : Server → List Move → Option (Server × List Observation)
  | s, [] => some (s, [])
  | s, m :: moves =>
      match s.move setup m with
      | none => none
      | some (s, shown) =>
          match play setup s moves with
          | none => none
          | some (s, more) => some (s, shown ++ more)

section play

variable {setup : Setup} {tasks : List Bytes} {trace shown : List Observation} {s s' : Server}

theorem inUse_iff (hfresh : ∀ id, s.accepted ≤ id → s.conns id = none) (stfd : Nat) :
    s.inUse stfd = true ↔ s.InUse stfd := by
  unfold inUse InUse
  rw [List.any_eq_true]
  constructor
  · intro h
    obtain ⟨id, -, hid⟩ := h
    split at hid
    · cases hid
    · rename_i c hc
      obtain ⟨hstfd, hopen⟩ := Bool.and_eq_true_iff.mp hid
      refine ⟨id, c, hc, beq_iff_eq.mp hstfd, fun hclosed => ?_⟩
      rw [hclosed] at hopen
      cases hopen
  · intro h
    obtain ⟨id, c, hc, hstfd, hopen⟩ := h
    refine ⟨id, List.mem_range.mpr ?_, ?_⟩
    · by_contra hge
      exact Option.some_ne_none c (hc.symm.trans (hfresh id (not_lt.mp hge)))
    · rw [hc]
      refine Bool.and_eq_true_iff.mpr ⟨beq_iff_eq.mpr hstfd, bne_iff_ne.mpr fun hclosed => ?_⟩
      exact hopen (CyclePoint.eq_closed hclosed)

/-- **The moves are the steps.** -/
theorem step_iff_move (hfresh : ∀ id, s.accepted ≤ id → s.conns id = none) :
    Step setup s shown s' ↔ ∃ m, s.move setup m = some (s', shown) := by
  constructor
  · intro hstep
    cases hstep with
    | thread id thread w hrunning hfree haddress hthread =>
        refine ⟨.thread id thread w, ?_⟩
        rw [move, if_pos ⟨hrunning, hfree, haddress⟩, hthread]
    | accept stfd beyond fcntl created hrunning hfree hfd =>
        refine ⟨.accept stfd beyond fcntl created, ?_⟩
        rw [move, if_pos ⟨hrunning, hfree, by rwa [Bool.eq_false_iff, ne_eq, inUse_iff hfresh]⟩]
    | rpush element hrunning => exact ⟨.rpush element, if_pos hrunning⟩
    | lrange hrunning hfree hcycle =>
        refine ⟨.lrange, ?_⟩
        rw [move, if_pos ⟨hrunning, hfree⟩, hcycle]
    | ltrim index hrunning hcycling => exact ⟨.ltrim, by simp only [move, hrunning, hcycling]⟩
    | request address mie rest hrunning hfree hhistory =>
        exact ⟨.request, by simp only [move, hrunning, hfree, hhistory]⟩
    | page mie result hrunning hloading hpage =>
        exact ⟨.page result, by simp only [move, hrunning, hloading, hpage]⟩
    | loaded mie hrunning hloading => exact ⟨.loaded, by simp only [move, hrunning, hloading]⟩
  · intro h
    obtain ⟨m, hmove⟩ := h
    cases m with
    | thread id thread w =>
        rw [move] at hmove
        split at hmove
        · rename_i hallowed
          exact .thread id thread w hallowed.1 hallowed.2.1 hallowed.2.2 hmove
        · cases hmove
    | accept stfd beyond fcntl created =>
        rw [move] at hmove
        split at hmove
        · rename_i hallowed
          have hfd : ¬ s.InUse stfd := by
            rw [← inUse_iff hfresh, hallowed.2.2]
            exact Bool.false_ne_true
          have hstep : Step setup s (acceptClient setup.conf stfd beyond fcntl created s).2
              (acceptClient setup.conf stfd beyond fcntl created s).1 :=
            .accept stfd beyond fcntl created hallowed.1 hallowed.2.1 hfd
          rwa [Option.some.inj hmove] at hstep
        · cases hmove
    | rpush element =>
        rw [move] at hmove
        split at hmove
        · rename_i hrunning
          cases hmove
          exact .rpush element hrunning
        · cases hmove
    | lrange =>
        rw [move] at hmove
        split at hmove
        · rename_i hallowed
          exact .lrange hallowed.1 hallowed.2 hmove
        · cases hmove
    | ltrim =>
        simp only [move] at hmove
        split at hmove
        · rename_i index hrunning hcycling
          cases hmove
          exact .ltrim index hrunning hcycling
        · cases hmove
    | request =>
        simp only [move] at hmove
        split at hmove
        · rename_i address mie rest hrunning hfree hhistory
          cases hmove
          exact .request address mie rest hrunning hfree hhistory
        · cases hmove
    | page result =>
        simp only [move] at hmove
        split at hmove
        · rename_i mie hrunning hloading
          exact .page mie result hrunning hloading hmove
        · cases hmove
    | loaded =>
        simp only [move] at hmove
        split at hmove
        · rename_i mie hrunning hloading
          cases hmove
          exact .loaded mie hrunning hloading
        · cases hmove

theorem Reached.step_of_move {m : Move} (hrun : Reached setup tasks trace s)
    (hmove : s.move setup m = some (s', shown)) : Step setup s shown s' :=
  (step_iff_move hrun.projects.fresh).mpr ⟨m, hmove⟩

/-- **What a schedule computes is a run.** -/
theorem Reached.play (hrun : Reached setup tasks trace s) {moves : List Move}
    (h : Server.play setup s moves = some (s', shown)) : Reached setup tasks (trace ++ shown) s' := by
  induction moves generalizing s trace shown with
  | nil =>
      cases h
      rwa [List.append_nil]
  | cons m moves ih =>
      rw [Server.play] at h
      split at h
      · cases h
      · rename_i s₁ first hmove
        split at h
        · cases h
        · rename_i s₂ more hplay
          cases h
          rw [← List.append_assoc]
          exact ih (hrun.next (hrun.step_of_move hmove)) hplay

/-- A schedule from the start of a server that ends as wanted. -/
theorem reached_of_play (setup : Setup) (tasks : List Bytes) (moves : List Move)
    (wanted : Server × List Observation → Bool)
    (h : (Server.play setup (initial tasks) moves).any wanted = true) :
    ∃ trace s, Reached setup tasks trace s ∧ wanted (s, trace) = true := by
  cases hplay : Server.play setup (initial tasks) moves with
  | none =>
      rw [hplay] at h
      cases h
  | some next =>
      rw [hplay] at h
      have hstart : Reached setup tasks [] (initial tasks) := .start rfl
      exact ⟨next.2, next.1, hstart.play hplay, h⟩

end play

end Server

/-! ### A server with one application -/

/-- A system whose parser accepts one text and whose digest is known on one source. -/
def knownPlatform (json : Bytes) (members : List (Bytes × Bytes)) (src : Bytes) (digest : List.Vector UInt8 16) :
    Platform :=
  { barePlatform with
    reader := fun source =>
      if source = json then some (.object (members.map fun (key, value) => (key, .string value))) else none
    md5 := fun source => if source = src then digest else List.Vector.replicate 16 0 }

/-- The application "app" has the secret "key", the application "23" the secret "k". -/
def knownHashes (key field : Bytes) : Option Bytes :=
  if key ≠ bareConfig.appKeys then none
  else if field = text "app" then some (text "key")
  else if field = text "23" then some (text "k")
  else none

def knownSetup (json : Bytes) (members : List (Bytes × Bytes)) (src : Bytes) (digest : List.Vector UInt8 16) :
    Setup :=
  ⟨bareConfig, knownPlatform json members src digest, knownHashes⟩

theorem length_jsonBody {json : Bytes} (h : json.length < 2 ^ 16) : (jsonBody json).length =
    LPushHeader.length ⟨0, lpushHeaderTypeHandshake, BitVec.ofNat 32 (json.length + 5)⟩ := by
  have hnat : (BitVec.ofNat 32 (json.length + 5)).toNat = json.length + 5 := by
    rw [BitVec.toNat_ofNat]
    omega
  have hint : (BitVec.ofNat 32 (json.length + 5)).toInt = ((json.length + 5 : Nat) : Int) := by
    rw [BitVec.toInt_eq_toNat_of_lt (by omega), hnat]
  simp only [jsonBody, List.length_cons, LPushHeader.length, hint, Int.toNat_natCast]

/-- The first frame of a client. -/
def handshakeChunk (json : Bytes) (h : json.length < 2 ^ 16) : LPushChunk :=
  ⟨⟨0, lpushHeaderTypeHandshake, BitVec.ofNat 32 (json.length + 5)⟩, jsonBody json, length_jsonBody h⟩

theorem length_single (header : LPushHeader) (h : header.datalenght = 1) (b : UInt8) :
    [b].length = header.length := by
  rw [LPushHeader.length, h]
  rfl

/-- The second frame of a client. -/
def connectionChunk : LPushChunk :=
  ⟨⟨0, lpushHeaderTypeCreateConnection, 1⟩, [1], length_single _ rfl _⟩

namespace Server

/-! ### Visitors -/

/-- User 7 of application "app", who knows its secret. -/
def userJson : Bytes :=
  text ("\x7b\"userId\":\"7\",\"appId\":\"app\",\"screteKey\":\"key\"," ++
    "\"md5Data\":\"ddd212570390b56182dadde08c0dee32\"\x7d")

def userMembers : List (Bytes × Bytes) :=
  [(text "userId", text "7"), (text "appId", text "app"), (text "screteKey", text "key"),
    (text "md5Data", text "ddd212570390b56182dadde08c0dee32")]

def userDigest : List.Vector UInt8 16 :=
  ⟨[0xdd, 0xd2, 0x12, 0x57, 0x03, 0x90, 0xb5, 0x61, 0x82, 0xda, 0xdd, 0xe0, 0x8c, 0x0d, 0xee, 0x32], rfl⟩

/-- A client of a system that knows its first message and its digest. -/
structure Visitor where
  json : Bytes
  short : json.length < 2 ^ 16
  members : List (Bytes × Bytes)
  src : Bytes
  digest : List.Vector UInt8 16

/-- A system whose parser accepts the messages of the visitors and whose digest is known on their
sources. -/
def visitorPlatform (visitors : List Visitor) : Platform :=
  { barePlatform with
    reader := fun source => (visitors.find? fun v => v.json == source).map fun v =>
      .object (v.members.map fun (key, value) => (key, .string value))
    md5 := fun source =>
      ((visitors.find? fun v => v.src == source).map Visitor.digest).getD (List.Vector.replicate 16 0) }

def visitorSetup (visitors : List Visitor) : Setup := ⟨bareConfig, visitorPlatform visitors, knownHashes⟩

/-- User 7 of application "app". -/
def userSeven : Visitor := ⟨userJson, by decide, userMembers, text "7appkey", userDigest⟩

/-- User 8 of application "app". -/
def userEight : Visitor where
  json := text ("\x7b\"userId\":\"8\",\"appId\":\"app\",\"screteKey\":\"key\"," ++
    "\"md5Data\":\"de72732b9b922cc61e33a5e9de9c4b57\"\x7d")
  short := by decide
  members :=
    [(text "userId", text "8"), (text "appId", text "app"), (text "screteKey", text "key"),
      (text "md5Data", text "de72732b9b922cc61e33a5e9de9c4b57")]
  src := text "8appkey"
  digest := ⟨[0xde, 0x72, 0x73, 0x2b, 0x9b, 0x92, 0x2c, 0xc6, 0x1e, 0x33, 0xa5, 0xe9, 0xde, 0x9c, 0x4b, 0x57], rfl⟩

def twoVisitors : Setup := visitorSetup [userSeven, userEight]

/-- A system on which nothing goes wrong and new entries get the given address. -/
def calm (address : Nat) : World := ⟨.error .read, none, fun _ => 0, 0, 0, address, true, true⟩

/-- The frames a visitor opens with. -/
def opening (visitor : Visitor) : Bytes :=
  LPushProtocol.sendPacket (handshakeChunk visitor.json visitor.short) ++ LPushProtocol.sendPacket connectionChunk

/-- A heartbeat with the given time. -/
def heartbeatChunk (timestamp : BitVec 32) : LPushChunk :=
  ⟨⟨timestamp, LPushConn.lpushHeaderTypeHreatbeat, 1⟩, [0], length_single _ rfl _⟩

/-- Connection `id` comes in on descriptor `stfd` and gets as far as the write that tells it so. -/
def enters (id stfd address : Nat) (frames : Bytes) : List Move :=
  [.accept stfd [] true true, .thread id .cycle (calm address),
    .thread id .cycle { calm address with delivery := .ok frames }, .thread id .cycle (calm address)]

/-- Connection `id` becomes active; its request gets the address. -/
def activates (id address spare : Nat) : List Move :=
  [.thread id .cycle (calm address), .thread id .recv (calm spare), .thread id .cycle (calm spare),
    .thread id .consum (calm spare), .thread id .cycle (calm spare), .thread id .recv (calm spare)]

/-! ### A task on its way -/

/-- What a producer pushes for user 7. -/
def taskJson : Bytes :=
  text ("\x7b\"TaskId\":\"t\",\"MsgId\":\"m\",\"AppKey\":\"app\",\"AppSecret\":\"key\"," ++
    "\"UserId\":\"7\"\x7d")

def taskMembers : List (Bytes × Json) :=
  [(text "TaskId", .string (text "t")), (text "MsgId", .string (text "m")), (text "AppKey", .string (text "app")),
    (text "AppSecret", .string (text "key")), (text "UserId", .string (text "7"))]

def taskMessage : LPushWorkerMessage :=
  { LPushWorkerMessage.empty with
    taskId := text "t", msgId := text "m", appKey := text "app", appSecret := text "key", userId := text "7" }

/-- What jsoncpp prints for it. -/
def taskStyled : Bytes := text "\x7b\n   \"MsgId\" : \"m\",\n   \"TaskId\" : \"t\"\n\x7d\n"

/-- The system of user 7, on which jsoncpp also knows the task. -/
def taskPlatform : Platform :=
  { visitorPlatform [userSeven] with
    reader := fun source =>
      if source = taskJson then some (.object taskMembers)
      else if source = taskStyled then some taskMessage.pushJson
      else (visitorPlatform [userSeven]).reader source
    writer := fun _ => taskStyled }

def taskSetup : Setup := ⟨bareConfig, taskPlatform, knownHashes⟩

/-- The task is dispatched to user 7 and written. -/
def pushesOnce : List Move :=
  enters 0 7 1 (opening userSeven) ++ activates 0 1 2 ++
    [.rpush taskJson, .lrange, .ltrim, .thread 0 .consum (calm 2), .thread 0 .consum (calm 2)]

/-- What a producer pushes next, with a time that jsoncpp keeps unsigned. -/
def laterJson : Bytes :=
  text ("\x7b\"TaskId\":\"u\",\"MsgId\":\"n\",\"AppKey\":\"app\",\"AppSecret\":\"key\"," ++
    "\"UserId\":\"7\",\"CreateTime\":3000000000\x7d")

def laterMembers : List (Bytes × Json) :=
  [(text "TaskId", .string (text "u")), (text "MsgId", .string (text "n")), (text "AppKey", .string (text "app")),
    (text "AppSecret", .string (text "key")), (text "UserId", .string (text "7")),
    (text "CreateTime", .uint 3000000000)]

def laterMessage : LPushWorkerMessage :=
  { taskMessage with taskId := text "u", msgId := text "n", createTime := 3000000000 }

/-- The same system once jsoncpp knows both tasks. -/
def laterPlatform : Platform :=
  { taskPlatform with
    reader := fun source => if source = laterJson then some (.object laterMembers) else taskPlatform.reader source }

def laterSetup : Setup := ⟨bareConfig, laterPlatform, knownHashes⟩

/-- User 7 sends a heartbeat and is pushed two tasks, the second of which cannot be written. -/
def pushesTwice : List Move :=
  enters 0 7 1 (opening userSeven) ++ activates 0 1 2 ++
    [.thread 0 .recv { calm 2 with delivery := .ok (LPushProtocol.sendPacket (heartbeatChunk 0)) },
      .rpush taskJson, .rpush laterJson, .lrange, .ltrim, .thread 0 .consum (calm 2),
      .thread 0 .consum (calm 2), .thread 0 .consum { calm 2 with writeError := some .write }]

end Server

end LinkedonPush
