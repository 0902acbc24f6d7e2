import LinkedonPush.App.Message
import LinkedonPush.Protocol.Handshake
import LinkedonPush.Protocol.Receive

/-!
# A connection

`LPushConn`, the client object it registers and the state of its three threads. What a connection
does to the rest of the world is a list of effects; what it needs from there is an `Env`, and what
the operating system answers at a yield point is a `World`.
-/

namespace LinkedonPush

open Theory

/-! ### The client and its queue -/

namespace LPushFastQueue

def push (queue : List LPushWorkerMessage) (msg : LPushWorkerMessage) : List LPushWorkerMessage :=
  queue ++ [msg]

/-- `none` where `pop` dereferences `begin()` of an empty vector. -/
def pop : List LPushWorkerMessage → Option (LPushWorkerMessage × List LPushWorkerMessage)
  | [] => none
  | lpwm :: queue => some (lpwm, queue)

end LPushFastQueue

/-- An `LPushClient` together with the queue of the `LPushSource` it creates. -/
structure LPushClient where
  cstfd : Nat
  appId : Bytes
  screteKey : Bytes
  userId : Bytes
  clientFlag : Bytes
  queue : List LPushWorkerMessage

namespace LPushClient

def create (cstfd : Nat) (message : LPushHandshakeMessage) : LPushClient where
  cstfd := cstfd
  appId := message.appId
  screteKey := message.screteKey
  userId := message.userId
  clientFlag := message.clientFlag
  queue := []

/-- The key under which `LPushSource` registers it. -/
def key (client : LPushClient) : Bytes := client.userId ++ client.appId ++ client.screteKey

def canLoop (client : LPushClient) : Bool := !client.queue.isEmpty

def push (client : LPushClient) (msg : LPushWorkerMessage) : LPushClient :=
  { client with queue := LPushFastQueue.push client.queue msg }

end LPushClient

/-! ### The threads -/

/-- The fields of an `LPushThread` that its two loops and `start` look at; `tid` and `cid` tell
whether they are set. -/
structure LPushThread where
  tid : Bool
  cid : Bool
  canRun : Bool
  loop : Bool
deriving DecidableEq

def LPushThread.init : LPushThread := ⟨false, false, false, false⟩

/-- Where the recv thread is. -/
inductive RecvPoint where
  | created
  /-- In the loop of `thread_cycle` that waits for `can_run`. -/
  | waiting
  | reading (r : MessageReading)
  /-- In the `st_usleep` at the end of the loop of `cycle`. -/
  | sleeping
  /-- In the `st_usleep` between two calls of `cycle`. -/
  | resting
  | ended

structure LPushRecvThread where
  trd : LPushThread
  point : RecvPoint

/-- Where the consum thread is. -/
inductive ConsumPoint where
  | created
  | waiting
  /-- In the `st_usleep` of `cycle`, the queue having been empty. -/
  | sleeping
  /-- In `sendForward`, with the message `playing` popped. -/
  | writing (work : LPushWorkerMessage) (chunk : LPushChunk)
  | resting
  | ended

structure LPushConsumThread where
  trd : LPushThread
  /-- `can_run` of the `LPushConsumThread` itself. -/
  canRun : Bool
  point : ConsumPoint

/-- Where the thread is that runs `LPushConnection::cycle`. -/
inductive CyclePoint where
  /-- `st_thread_create` failed. -/
  | unstarted
  | created
  | handshake (r : MessageReading)
  /-- Writing a refusal, to return with `ret` afterwards. -/
  | refusing (chunk : LPushChunk) (ret : Int)
  | accepting (chunk : LPushChunk)
  | createConnection (r : MessageReading)
  | connecting (chunk : LPushChunk)
  /-- In `start` of the recv thread, waiting for its cid. -/
  | startRecv
  | startConsum
  /-- In the `st_usleep` of the loop of `do_cycle`. -/
  | polling
  /-- In the destructor, joining the recv thread. -/
  | joinRecv
  | joinConsum
  | closed

/-! ### The connection object -/

structure LPushConn where
  stfd : Nat
  /-- The receive buffer of the protocol object; `none` once that is deleted. -/
  lpushProtocol : Option LPushFastBuffer
  lphandshakeMsg : Option LPushHandshakeMessage
  client : Option LPushClient
  redisApp : Option LPushAPPKey
  redisPlatform : Option LPushPlatform
  clientKey : Bytes
  hostname : Bytes
  /-- The address of the history request it has queued. -/
  mie : Option Nat
  dispose : Bool
  beforeDataTime : Int
  hreatDataTime : Int
  nowDataTime : Int
  trd : Option LPushRecvThread
  trd2 : Option LPushConsumThread
  point : CyclePoint
  /-- One of its threads ended the process. -/
  crashed : Bool

/-- The constructor; `beyond` is the memory behind the receive buffer. -/
def LPushConn.create (stfd : Nat) (beyond : Bytes) : LPushConn where
  stfd := stfd
  lpushProtocol := some (.fresh beyond)
  lphandshakeMsg := none
  client := none
  redisApp := none
  redisPlatform := none
  clientKey := []
  hostname := []
  mie := none
  dispose := false
  beforeDataTime := 0
  hreatDataTime := 0
  nowDataTime := 0
  trd := none
  trd2 := none
  point := .created
  crashed := false

/-- What ends the process. -/
inductive Fault where
  | assertion
  /-- An exception nobody catches, or a write through a null pointer. -/
  | decoder
  | nullPointer
  | emptyPop
deriving DecidableEq

inductive Effect where
  | received (d : Delivery SocketError UInt8)
  /-- `readMessage` returned. -/
  | message (ret : Int) (lpc : LPushChunk)
  /-- A write of a frame came back; a push frame carries the message it was made from. -/
  | wrote (chunk : LPushChunk) (ok : Bool) (work : Option LPushWorkerMessage)
  /-- `LPushProtocol::handshake` accepted the message of the first frame. -/
  | presented (msg : LPushHandshakeMessage)
  | redis (command : RedisCommand)
  | userInsertMongodb (msg : LPushHandshakeMessage)
  /-- `createConnection` found the user registered. -/
  | refused (msg : LPushHandshakeMessage)
  /-- `LPushSource::create`. -/
  | createClient (client : LPushClient)
  /-- `LPushMongoIOThread::push`. -/
  | pushHistory (address : Nat) (mie : MongoIOEntity)
  /-- A frame is handed to `forwardServer`. -/
  | forward (message : LPushChunk)
  | forwardReturned (ret : Int)
  /-- `LPushClient::push`, called from outside. -/
  | queued (msg : LPushWorkerMessage)
  /-- `do_cycle` returned. -/
  | returned (ret : Int)
  /-- The erasure from `conns` in `LPushServer::remove`. -/
  | removed
  | findPop (address : Nat)
  | destroyKey (key : Bytes)
  /-- `SafeDelete(client)`, whose destructor destroys the source of `cstfd`. -/
  | deleteClient (cstfd : Nat)
  | close
  | died (fault : Fault)

/-- What a connection sees of the rest of the server. -/
structure Env where
  conf : LPushConfig
  platform : Platform
  /-- The hashes in Redis. -/
  hashes : Bytes → Bytes → Option Bytes
  /-- Whether `LPushSource::instance` finds a client. -/
  registered : Bytes → Bytes → Bytes → Bool

inductive WriteError where
  | timeout
  | write
deriving DecidableEq

def WriteError.code : WriteError → Int
  | .timeout => errorSocketTimeout
  | .write => errorSocketWrite

/-- What the operating system hands to the thread that goes on; each step uses what it needs. -/
structure World where
  delivery : Delivery SocketError UInt8
  writeError : Option WriteError
  /-- The memory behind the body of a chunk. -/
  beyond : Nat → UInt8
  /-- `getCurrentTime()`. -/
  now : Int
  /-- `st_utime()`. -/
  utime : Int
  /-- The address `new` returns. -/
  address : Nat
  recvCreated : Bool
  consumCreated : Bool

/-- Where a thread stops next, and the effects up to there. -/
abbrev Progress := LPushConn × List Effect

def Progress.after (effects : List Effect) (progress : Progress) : Progress :=
  (progress.1, effects ++ progress.2)

namespace LPushConn

def die (c : LPushConn) (fault : Fault) : Progress := ({ c with crashed := true }, [.died fault])

def isActive (c : LPushConn) : Bool := c.trd.isSome && c.trd2.isSome

/-- `LPushClient::push`; `none` through a null pointer. -/
def push (c : LPushConn) (msg : LPushWorkerMessage) : Option LPushConn :=
  c.client.map fun client => { c with client := some (client.push msg) }

/-! ### What it sends -/

def lpushCallbackTypeHandshake : UInt8 := 0x01
def lpushCallbackTypeConnectionIsOk : UInt8 := 0x04
def lpushCallbackTypePush : UInt8 := 0x08

/-- A reply of one byte. -/
def reply (dataType : UInt8) (now : Int) (issuccess : UInt8) : LPushChunk :=
  ⟨⟨BitVec.ofInt 32 now, dataType, 1⟩, [issuccess], rfl⟩

def sendHandshake (now : Int) (issuccess : UInt8) : LPushChunk :=
  reply lpushCallbackTypeHandshake now issuccess

def sendCreateConnection (now : Int) (issuccess : UInt8) : LPushChunk :=
  reply lpushCallbackTypeConnectionIsOk now issuccess

/-- The chunk that `sendForward` fills in; `none` where `setData` would copy more than it was given. -/
def sendForward (platform : Platform) (now : Int) (message : LPushWorkerMessage) : Option LPushChunk :=
  let json := message.toJsonString platform
  let jsonLen := BitVec.ofNat 32 json.length
  let buf := LPushFMT.lpushFmtJson :: byteAt jsonLen 24 :: byteAt jsonLen 16 :: byteAt jsonLen 8 ::
    byteAt jsonLen 0 :: json
  LPushChunk.setData ⟨BitVec.ofInt 32 now, lpushCallbackTypePush, BitVec.ofNat 32 (json.length + 5)⟩ buf

/-! ### What it does with a client frame -/

def lpushHeaderTypeHreatbeat : UInt8 := 0x05
def lpushHeaderTypeClose : UInt8 := 0x06
def lpushHeaderTypePush : UInt8 := 0x08

/-- `do_dispose`; `none` where a key object is missing. -/
def doDispose (c : LPushConn) : Option Progress :=
  match c.redisApp, c.redisPlatform with
  | some redisApp, some redisPlatform =>
      some ({ c with dispose := true },
        [.redis (RedisClient.del c.clientKey),
          .redis (RedisClient.zrem redisApp.appKey redisApp.key),
          .redis (RedisClient.zrem redisPlatform.platformKey redisPlatform.key)])
  | _, _ => none

def hreatbeat (c : LPushConn) : Option (List Effect) :=
  match c.redisApp, c.redisPlatform with
  | some redisApp, some redisPlatform =>
      let score := c.hreatDataTime.tdiv 1000
      some [.redis (RedisClient.zadd redisApp.appKey score redisApp.key),
        .redis (RedisClient.zadd redisPlatform.platformKey score redisPlatform.key),
        .redis (RedisClient.expire c.clientKey 60)]
  | _, _ => none

/-- The returned code and the command for the result list. -/
def recvPushCallback (conf : LPushConfig) (platform : Platform) (beyond : Nat → UInt8)
    (message : LPushChunk) : Access (Int × List RedisCommand) := do
  let data := bodyMemory message.data beyond
  let (result, taskId) ← LPushFMT.decodeString platform data 0
  if result ≤ 0 then
    pure (-2, [])
  else
    let (result, msgId) ← LPushFMT.decodeString platform data result.toNat
    if result ≤ 0 then
      pure (-2, [])
    else if msgId.isEmpty || taskId.isEmpty then
      pure (errorObjectNotExist, [])
    else
      pure (errorSuccess, [RedisClient.lPushForList (conf.resultList ++ msgId) taskId])

/-- The handlers behind the switch on the data type. -/
def dispatch (env : Env) (beyond : Nat → UInt8) (c : LPushConn) (message : LPushChunk) :
    Except Fault (Int × Progress) :=
  if message.header.dataType = lpushHeaderTypeHreatbeat then
    match c.hreatbeat with
    | none => .error .nullPointer
    | some effects => .ok (errorSuccess, c, effects)
  else if message.header.dataType = lpushHeaderTypeClose then
    match c.doDispose with
    | none => .error .nullPointer
    | some progress => .ok (errorSuccess, progress)
  else if message.header.dataType = lpushHeaderTypePush then
    match (recvPushCallback env.conf env.platform beyond message).result with
    | none => .error .decoder
    | some (ret, commands) => .ok (ret, c, commands.map .redis)
  else
    .ok (errorSuccess, c, [])

def forwardServer (env : Env) (beyond : Nat → UInt8) (c : LPushConn) (message : LPushChunk) :
    Except Fault (Int × Progress) :=
  match dispatch env beyond c message with
  | .error fault => .error fault
  | .ok (ret, c, effects) =>
      .ok (ret,
        { c with
          beforeDataTime := c.nowDataTime
          nowDataTime := message.header.timestamp.toInt },
        effects)

/-! ### The end of a connection -/

/-- The destructor behind the two joins: the client is unregistered and deleted, the descriptor
closed. -/
def release (c : LPushConn) : Progress :=
  let effects :=
    match c.client with
    | none => []
    | some client => [.destroyKey client.key, .deleteClient client.cstfd]
  ({ c with
      trd2 := none, lpushProtocol := none, lphandshakeMsg := none, redisApp := none,
      redisPlatform := none, client := none, point := .closed },
    effects ++ [.close])

def deleteTrd2 (c : LPushConn) : Progress :=
  match c.trd2 with
  | none => c.release
  | some t =>
      let t := { t with canRun := false, trd := { t.trd with loop := false } }
      match t.trd.tid, t.point with
      | false, _ => c.release
      | true, .ended => c.release
      | true, _ => ({ c with trd2 := some t, point := .joinConsum }, [])

def deleteTrd (c : LPushConn) : Progress :=
  match c.trd with
  | none => c.deleteTrd2
  | some t =>
      let t := { t with trd := { t.trd with loop := false } }
      match t.trd.tid, t.point with
      | false, _ => { c with trd := none }.deleteTrd2
      | true, .ended => { c with trd := none }.deleteTrd2
      | true, _ => ({ c with trd := some t, point := .joinRecv }, [])

/-- `do_cycle` returned: `LPushServer::remove` deletes the connection. -/
def finish (c : LPushConn) (ret : Int) : Progress :=
  let findPop := match c.mie with
    | none => []
    | some address => [.findPop address]
  Progress.after ([.returned ret, .removed] ++ findPop) c.deleteTrd

/-! ### `do_cycle` -/

def lpHreatTimeoutUs : Int := 60

/-- The head of the loop of `do_cycle`. -/
def poll (c : LPushConn) : Progress :=
  if c.dispose then c.finish errorSuccess
  else if c.nowDataTime - c.beforeDataTime > lpHreatTimeoutUs then
    c.finish errorConnHreatbeatTimeout
  else ({ c with point := .polling }, [])

/-- Both threads are started; the clock starts. -/
def started (w : World) (c : LPushConn) : Progress :=
  { c with beforeDataTime := w.now, nowDataTime := w.now }.poll

/-- `trd2->start()`. -/
def startTrd2 (w : World) (c : LPushConn) : Progress :=
  match c.trd2 with
  | none => c.die .nullPointer
  | some t =>
      let t := { t with canRun := true }
      if w.consumCreated then
        let t := { t with trd := { t.trd with tid := true, loop := true } }
        ({ c with trd2 := some t, point := .startConsum }, [])
      else { c with trd2 := some t }.started w

/-- `trd->start()`. -/
def startTrd (w : World) (c : LPushConn) : Progress :=
  match c.trd with
  | none => c.die .nullPointer
  | some t =>
      if w.recvCreated then
        let t := { t with trd := { t.trd with tid := true, loop := true } }
        ({ c with trd := some t, point := .startRecv }, [])
      else c.startTrd2 w

def historyRequest (conf : LPushConfig) (msg : LPushHandshakeMessage) : MongoIOEntity where
  db := conf.mongodb
  collectionName := text "TASK_PULL_" ++ msg.appId
  appKey := msg.appId
  userId := msg.userId
  secreteKey := msg.screteKey

/-- The rest of `do_cycle` once connection 0x01 is written. -/
def connected (env : Env) (w : World) (c : LPushConn) : Progress :=
  match c.lphandshakeMsg with
  | none => c.die .nullPointer
  | some msg =>
      let c := { c with
        mie := some w.address
        trd := some ⟨.init, .created⟩
        trd2 := some ⟨.init, false, .created⟩ }
      Progress.after [.pushHistory w.address (historyRequest env.conf msg)] (c.startTrd w)

/-- The part of `createConnection` between the client's frame and the reply. -/
def register (env : Env) (w : World) (c : LPushConn) : Progress :=
  match c.lphandshakeMsg with
  | none => c.die .nullPointer
  | some msg =>
      let redisApp := LPushAPPKey.create msg.appId msg.userId env.conf.localhost env.conf.port
      let redisPlatform :=
        LPushPlatform.create msg.clientFlag msg.appId msg.userId env.conf.localhost env.conf.port
      let c := { c with
        clientKey := msg.appId ++ msg.userId
        hostname := env.conf.hostname
        redisApp := some redisApp
        redisPlatform := some redisPlatform }
      let effects : List Effect :=
        [.redis (RedisClient.set c.clientKey c.hostname), .redis (RedisClient.expire c.clientKey 60),
          .userInsertMongodb msg,
          .redis (RedisClient.zadd redisApp.appKey (w.utime.tdiv 1000) redisApp.key),
          .redis (RedisClient.zadd redisPlatform.platformKey (w.utime.tdiv 1000) redisPlatform.key)]
      if env.registered msg.userId msg.appId msg.screteKey then
        ({ c with point := .refusing (sendCreateConnection w.now 0x02) errorUserIsExist },
          effects ++ [.refused msg])
      else
        let client := LPushClient.create c.stfd msg
        ({ c with client := some client, point := .connecting (sendCreateConnection w.now 0x01) },
          effects ++ [.createClient client])

/-- `createConnection` as far as its `readMessage` has got. -/
def createConnection (env : Env) (w : World) (c : LPushConn) : MessageReading → Progress
  | .need size resume => ({ c with point := .createConnection (.need size resume) }, [])
  | .abort => c.die .assertion
  | .done (ret, lpc, b) =>
      let c := { c with lpushProtocol := some b }
      Progress.after [.message ret lpc] <|
        if ret ≠ errorSuccess then c.finish ret
        else
          let ret := LPushProtocol.createConnection lpc
          if ret ≠ errorSuccess then c.finish ret else c.register env w

def checkUserMessage (env : Env) (msg : LPushHandshakeMessage) : Int :=
  let screteKey := RedisClient.hget env.hashes env.conf.appKeys msg.appId
  if screteKey.isEmpty then errorUserScreteNoExist
  else if occursIn msg.screteKey screteKey then errorSuccess
  else errorUserScreteMismatch

/-- `handshake`, and what `do_cycle` makes of it, as far as its `readMessage` has got. -/
def handshake (env : Env) (w : World) (c : LPushConn) : MessageReading → Progress
  | .need size resume => ({ c with point := .handshake (.need size resume) }, [])
  | .abort => c.die .assertion
  | .done (ret, lpc, b) =>
      let c := { c with lpushProtocol := some b }
      Progress.after [.message ret lpc] <|
        if ret ≠ errorSuccess then
          ({ c with point := .refusing (sendHandshake w.now 0x00) ret }, [])
        else
          match (LPushProtocol.handshake env.platform w.beyond lpc).result with
          | none => c.die .decoder
          | some (ret, lpsm) =>
              if ret ≠ errorSuccess then
                ({ c with point := .refusing (sendHandshake w.now 0x00) ret }, [])
              else
                let c := { c with lphandshakeMsg := some (.setParams lpsm.tomap) }
                let ret := checkUserMessage env lpsm
                if ret ≠ errorSuccess then
                  ({ c with point := .refusing (sendHandshake w.now 0x02) ret }, [.presented lpsm])
                else
                  ({ c with point := .accepting (sendHandshake w.now 0x01) }, [.presented lpsm])

/-- Call `readMessage` of the protocol object. -/
def withProtocol (c : LPushConn) (next : MessageReading → Progress) : Progress :=
  match c.lpushProtocol with
  | none => c.die .nullPointer
  | some b => next (LPushProtocol.readMessage b)

/-- The cycle thread runs from one yield point to the next; `none` while it is blocked. -/
def cycle (env : Env) (w : World) (c : LPushConn) : Option Progress :=
  match c.point with
  | .unstarted => none
  | .created => some (c.withProtocol (c.handshake env w))
  | .handshake (.need size resume) =>
      if w.delivery.Allowed size then
        some (Progress.after [.received w.delivery] (c.handshake env w (resume w.delivery)))
      else none
  | .handshake _ => none
  | .refusing chunk ret =>
      some (Progress.after [.wrote chunk w.writeError.isNone none] (c.finish ret))
  | .accepting chunk =>
      some <| Progress.after [.wrote chunk w.writeError.isNone none] <|
        match w.writeError with
        | some e => c.finish e.code
        | none => c.withProtocol (c.createConnection env w)
  | .createConnection (.need size resume) =>
      if w.delivery.Allowed size then
        some (Progress.after [.received w.delivery] (c.createConnection env w (resume w.delivery)))
      else none
  | .createConnection _ => none
  | .connecting chunk =>
      some <| Progress.after [.wrote chunk w.writeError.isNone none] <|
        match w.writeError with
        | some e => c.finish e.code
        | none => c.connected env w
  | .startRecv =>
      match c.trd with
      | none => some (c.die .nullPointer)
      | some t =>
          if t.trd.cid then
            some ({ c with trd := some { t with trd := { t.trd with canRun := true } } }.startTrd2 w)
          else some (c, [])
  | .startConsum =>
      match c.trd2 with
      | none => some (c.die .nullPointer)
      | some t =>
          if t.trd.cid then
            some ({ c with trd2 := some { t with trd := { t.trd with canRun := true } } }.started w)
          else some (c, [])
  | .polling => some c.poll
  | .joinRecv =>
      match c.trd with
      | some ⟨_, .ended⟩ => some { c with trd := none }.deleteTrd2
      | _ => none
  | .joinConsum =>
      match c.trd2 with
      | some ⟨_, _, .ended⟩ => some c.release
      | _ => none
  | .closed => none

/-- Where the cycle thread stands, and what it goes on with. -/
inductive CycleTurn (env : Env) (w : World) (c : LPushConn) : Progress → Prop where
  | created (hpoint : c.point = .created) : CycleTurn env w c (c.withProtocol (c.handshake env w))
  | handshake (size : Nat) (resume : Delivery SocketError UInt8 → MessageReading)
      (hpoint : c.point = .handshake (.need size resume)) (hallowed : w.delivery.Allowed size) :
      CycleTurn env w c (Progress.after [.received w.delivery] (c.handshake env w (resume w.delivery)))
  | refusing (chunk : LPushChunk) (ret : Int) (hpoint : c.point = .refusing chunk ret) :
      CycleTurn env w c (Progress.after [.wrote chunk w.writeError.isNone none] (c.finish ret))
  | unwritten (chunk : LPushChunk) (e : WriteError)
      (hpoint : c.point = .accepting chunk ∨ c.point = .connecting chunk) (hwrite : w.writeError = some e) :
      CycleTurn env w c (Progress.after [.wrote chunk false none] (c.finish e.code))
  | accepting (chunk : LPushChunk) (hpoint : c.point = .accepting chunk) (hwrite : w.writeError = none) :
      CycleTurn env w c (Progress.after [.wrote chunk true none] (c.withProtocol (c.createConnection env w)))
  | createConnection (size : Nat) (resume : Delivery SocketError UInt8 → MessageReading)
      (hpoint : c.point = .createConnection (.need size resume)) (hallowed : w.delivery.Allowed size) :
      CycleTurn env w c (Progress.after [.received w.delivery] (c.createConnection env w (resume w.delivery)))
  | connecting (chunk : LPushChunk) (hpoint : c.point = .connecting chunk) (hwrite : w.writeError = none) :
      CycleTurn env w c (Progress.after [.wrote chunk true none] (c.connected env w))
  | noThread (hpoint : (c.point = .startRecv ∧ c.trd = none) ∨ (c.point = .startConsum ∧ c.trd2 = none)) :
      CycleTurn env w c (c.die .nullPointer)
  /-- The helper thread has not set `cid` yet. -/
  | unready (hpoint : (c.point = .startRecv ∧ ∃ t, c.trd = some t ∧ t.trd.cid = false) ∨
        (c.point = .startConsum ∧ ∃ t, c.trd2 = some t ∧ t.trd.cid = false)) : CycleTurn env w c (c, [])
  | startRecv (t : LPushRecvThread) (hpoint : c.point = .startRecv) (htrd : c.trd = some t)
      (hcid : t.trd.cid = true) :
      CycleTurn env w c ({ c with trd := some { t with trd := { t.trd with canRun := true } } }.startTrd2 w)
  | startConsum (t : LPushConsumThread) (hpoint : c.point = .startConsum) (htrd2 : c.trd2 = some t)
      (hcid : t.trd.cid = true) :
      CycleTurn env w c ({ c with trd2 := some { t with trd := { t.trd with canRun := true } } }.started w)
  | polling (hpoint : c.point = .polling) : CycleTurn env w c c.poll
  | joinRecv (t : LPushRecvThread) (hpoint : c.point = .joinRecv) (htrd : c.trd = some t)
      (hended : t.point = .ended) : CycleTurn env w c { c with trd := none }.deleteTrd2
  | joinConsum (t : LPushConsumThread) (hpoint : c.point = .joinConsum) (htrd2 : c.trd2 = some t)
      (hended : t.point = .ended) : CycleTurn env w c c.release

/-- A blocked `handshake` goes on with what is delivered. -/
theorem handshake_of_cycle {env : Env} {w : World} {c : LPushConn} {p : Progress} {r : MessageReading}
    (hpoint : c.point = .handshake r) (hstep : c.cycle env w = some p) :
    ∃ size resume, r = .need size resume ∧ w.delivery.Allowed size ∧
      p = Progress.after [.received w.delivery] (c.handshake env w (resume w.delivery)) := by
  rw [cycle, hpoint] at hstep
  cases r with
  | need size resume =>
      obtain ⟨hallowed, heq⟩ := Option.ite_none_right_eq_some.mp hstep
      exact ⟨size, resume, rfl, hallowed, (Option.some.inj heq).symm⟩
  | done result | abort => cases hstep

/-- The same for `createConnection`. -/
theorem createConnection_of_cycle {env : Env} {w : World} {c : LPushConn} {p : Progress} {r : MessageReading}
    (hpoint : c.point = .createConnection r) (hstep : c.cycle env w = some p) :
    ∃ size resume, r = .need size resume ∧ w.delivery.Allowed size ∧
      p = Progress.after [.received w.delivery] (c.createConnection env w (resume w.delivery)) := by
  rw [cycle, hpoint] at hstep
  cases r with
  | need size resume =>
      obtain ⟨hallowed, heq⟩ := Option.ite_none_right_eq_some.mp hstep
      exact ⟨size, resume, rfl, hallowed, (Option.some.inj heq).symm⟩
  | done result | abort => cases hstep

theorem cycle_spec {env : Env} {w : World} {c : LPushConn} {p : Progress} (hstep : c.cycle env w = some p) :
    CycleTurn env w c p := by
  unfold cycle at hstep
  cases hpoint : c.point with
  | unstarted | closed =>
      rw [hpoint] at hstep
      cases hstep
  | created =>
      rw [hpoint] at hstep
      cases hstep
      exact .created hpoint
  | handshake r =>
      obtain ⟨size, resume, rfl, hallowed, rfl⟩ := handshake_of_cycle hpoint hstep
      exact .handshake size resume hpoint hallowed
  | refusing chunk ret =>
      rw [hpoint] at hstep
      cases hstep
      exact .refusing chunk ret hpoint
  | accepting chunk =>
      rw [hpoint] at hstep
      cases hstep
      cases hwrite : w.writeError with
      | some e => exact .unwritten chunk e (.inl hpoint) hwrite
      | none => exact .accepting chunk hpoint hwrite
  | createConnection r =>
      obtain ⟨size, resume, rfl, hallowed, rfl⟩ := createConnection_of_cycle hpoint hstep
      exact .createConnection size resume hpoint hallowed
  | connecting chunk =>
      rw [hpoint] at hstep
      cases hstep
      cases hwrite : w.writeError with
      | some e => exact .unwritten chunk e (.inr hpoint) hwrite
      | none => exact .connecting chunk hpoint hwrite
  | startRecv =>
      rw [hpoint] at hstep
      cases htrd : c.trd with
      | none =>
          rw [htrd] at hstep
          cases hstep
          exact .noThread (.inl ⟨hpoint, htrd⟩)
      | some t =>
          rw [htrd] at hstep
          dsimp only at hstep
          split at hstep
          · rename_i hcid
            rw [← hpoint] at hstep
            cases hstep
            exact .startRecv t hpoint htrd hcid
          · rename_i hcid
            cases hstep
            exact .unready (.inl ⟨hpoint, t, htrd, Bool.eq_false_iff.mpr hcid⟩)
  | startConsum =>
      rw [hpoint] at hstep
      cases htrd2 : c.trd2 with
      | none =>
          rw [htrd2] at hstep
          cases hstep
          exact .noThread (.inr ⟨hpoint, htrd2⟩)
      | some t =>
          rw [htrd2] at hstep
          dsimp only at hstep
          split at hstep
          · rename_i hcid
            cases hstep
            exact .startConsum t hpoint htrd2 hcid
          · rename_i hcid
            cases hstep
            exact .unready (.inr ⟨hpoint, t, htrd2, Bool.eq_false_iff.mpr hcid⟩)
  | polling =>
      rw [hpoint] at hstep
      cases hstep
      exact .polling hpoint
  | joinRecv =>
      rw [hpoint] at hstep
      dsimp only at hstep
      split at hstep
      · rename_i trd htrd
        cases hstep
        exact .joinRecv ⟨trd, .ended⟩ hpoint htrd rfl
      · cases hstep
  | joinConsum =>
      rw [hpoint] at hstep
      dsimp only at hstep
      split at hstep
      · rename_i trd canRun htrd2
        cases hstep
        exact .joinConsum ⟨trd, canRun, .ended⟩ hpoint htrd2 rfl
      · cases hstep

end LPushConn

end LinkedonPush
