import LinkedonPush.Kernel.Json

/-!
# Messages and configuration

The records of `lpushSource.cpp`, `lpushMongoIOThread.h` and `lpushJson.h` that the server passes
around.
-/

namespace LinkedonPush

/-- The fields of `LPushConfig` that connections, the loader and the main loop read; `mongodb` is
the `db` of its `mongodbConfig`. -/
structure LPushConfig where
  port : Int
  maxconnect : Int
  localhost : Bytes
  resultList : Bytes
  appKeys : Bytes
  mongodb : Bytes

/-- `localhost:port`. -/
def LPushConfig.hostname (conf : LPushConfig) : Bytes := conf.localhost ++ text ":" ++ decimal conf.port

structure LPushWorkerMessage where
  taskId : Bytes
  msgId : Bytes
  appKey : Bytes
  appSecret : Bytes
  userId : Bytes
  title : Bytes
  content : Bytes
  ext : Bytes
  createTime : Int
  expiresTime : Int
deriving DecidableEq

namespace LPushWorkerMessage

def empty : LPushWorkerMessage := ⟨[], [], [], [], [], [], [], [], 0, 0⟩

/-- The constructor from JSON text; `none` where a conversion raises. -/
def ofJson (platform : Platform) (jsonStr : Bytes) : Option LPushWorkerMessage :=
  match platform.reader jsonStr with
  | none => some empty
  | some json => do
      let string (key : String) : Option Bytes := (json.get (text key)).bind Json.asString
      let int64 (key : String) : Option Int := (json.get (text key)).bind Json.asInt64
      let taskId ← string "TaskId"
      let msgId ← string "MsgId"
      let appKey ← string "AppKey"
      let appSecret ← string "AppSecret"
      let content ← string "Content"
      let userId ← string "UserId"
      let title ← string "Title"
      let ext ← string "Ext"
      let createTime ← int64 "CreateTime"
      let expiresTime ← int64 "ExpiresTime"
      pure ⟨taskId, msgId, appKey, appSecret, userId, title, content, ext, createTime, expiresTime⟩

section

variable {root : Json} {members : List (Bytes × Json)} {key : Bytes}

theorem exists_text_iff (h : root.members = some members) :
    (∃ value, (root.get key).bind Json.asString = some value) ↔
      ∀ value, members.lookup key = some value → value.isScalar = true := by
  rw [← Option.isSome_iff_exists, Json.get, h, Option.map_some, Option.bind_some, Json.isSome_asString]
  cases members.lookup key with
  | none => simp [Json.isScalar]
  | some value => simp

theorem exists_time_iff (h : root.members = some members) :
    (∃ value, (root.get key).bind Json.asInt64 = some value) ↔
      ∀ value, members.lookup key = some value → value.asInt64.isSome = true := by
  rw [← Option.isSome_iff_exists, Json.get, h, Option.map_some, Option.bind_some]
  cases members.lookup key with
  | none => simp [Json.asInt64]
  | some value => simp

/-- The constructor raises exactly on values of another shape. -/
theorem ofJson_iff_readable {platform : Platform} {jsonStr : Bytes} :
    (∃ lwm, ofJson platform jsonStr = some lwm) ↔
      ∀ root, platform.reader jsonStr = some root → root.Readable := by
  unfold ofJson
  cases platform.reader jsonStr with
  | none => simp
  | some root =>
      simp only [Option.some.injEq, forall_eq']
      constructor
      · rintro ⟨lwm, h⟩
        obtain ⟨taskId, htaskId, h⟩ := Option.bind_eq_some_iff.mp h
        obtain ⟨msgId, hmsgId, h⟩ := Option.bind_eq_some_iff.mp h
        obtain ⟨appKey, happKey, h⟩ := Option.bind_eq_some_iff.mp h
        obtain ⟨appSecret, happSecret, h⟩ := Option.bind_eq_some_iff.mp h
        obtain ⟨content, hcontent, h⟩ := Option.bind_eq_some_iff.mp h
        obtain ⟨userId, huserId, h⟩ := Option.bind_eq_some_iff.mp h
        obtain ⟨title, htitle, h⟩ := Option.bind_eq_some_iff.mp h
        obtain ⟨ext, hext, h⟩ := Option.bind_eq_some_iff.mp h
        obtain ⟨createTime, hcreateTime, h⟩ := Option.bind_eq_some_iff.mp h
        obtain ⟨expiresTime, hexpiresTime, -⟩ := Option.bind_eq_some_iff.mp h
        obtain ⟨value, hvalue, -⟩ := Option.bind_eq_some_iff.mp htaskId
        obtain ⟨members, hmembers, -⟩ := Option.map_eq_some_iff.mp hvalue
        refine ⟨members, hmembers, ?_, ?_⟩
        · simp only [List.forall_mem_cons, ← exists_text_iff hmembers]
          exact ⟨⟨_, htaskId⟩, ⟨_, hmsgId⟩, ⟨_, happKey⟩, ⟨_, happSecret⟩, ⟨_, hcontent⟩, ⟨_, huserId⟩,
            ⟨_, htitle⟩, ⟨_, hext⟩, fun _ hmem => (List.not_mem_nil hmem).elim⟩
        · simp only [List.forall_mem_cons, ← exists_time_iff hmembers]
          exact ⟨⟨_, hcreateTime⟩, ⟨_, hexpiresTime⟩, fun _ hmem => (List.not_mem_nil hmem).elim⟩
      · rintro ⟨members, hmembers, htexts, htimes⟩
        simp only [List.forall_mem_cons, ← exists_text_iff hmembers] at htexts
        simp only [List.forall_mem_cons, ← exists_time_iff hmembers] at htimes
        obtain ⟨⟨taskId, htaskId⟩, ⟨msgId, hmsgId⟩, ⟨appKey, happKey⟩, ⟨appSecret, happSecret⟩,
          ⟨content, hcontent⟩, ⟨userId, huserId⟩, ⟨title, htitle⟩, ⟨ext, hext⟩, -⟩ := htexts
        obtain ⟨⟨createTime, hcreateTime⟩, ⟨expiresTime, hexpiresTime⟩, -⟩ := htimes
        refine ⟨⟨taskId, msgId, appKey, appSecret, userId, title, content, ext, createTime, expiresTime⟩, ?_⟩
        rw [htaskId, hmsgId, happKey, happSecret, hcontent, huserId, htitle, hext, hcreateTime, hexpiresTime]
        rfl

end

/-- The constructor from a map; `none` where a time is no number. -/
def ofMap (params : StringMap) : Option LPushWorkerMessage := do
  let createTime ← stringToLong (params.get (text "CreateTime"))
  let expiresTime ← stringToLong (params.get (text "ExpiresTime"))
  pure {
    taskId := params.get (text "TaskId")
    msgId := params.get (text "MsgId")
    appKey := params.get (text "AppKey")
    appSecret := params.get (text "AppSecret")
    userId := params.get (text "UserId")
    title := params.get (text "Title")
    content := params.get (text "Content")
    ext := params.get (text "Ext")
    createTime := createTime
    expiresTime := expiresTime }

/-- A member that is left out where the field is empty. -/
def member (key : String) (value : Bytes) (json : Json) : Json :=
  if value.isEmpty then json else json.set (text key) (.string value)

def timeMember (key : String) (value : Int) (json : Json) : Json :=
  if emptyInt value then json else json.set (text key) (.int value)

/-- The body of a push frame. -/
def toJsonString (platform : Platform) (message : LPushWorkerMessage) : Bytes :=
  let pjson := Json.null
  let pjson := member "TaskId" message.taskId pjson
  let pjson := member "MsgId" message.msgId pjson
  let pjson := member "Title" message.title pjson
  let pjson := member "Content" message.content pjson
  let pjson := member "Ext" message.ext pjson
  let pjson := timeMember "CreateTime" message.createTime pjson
  let pjson := timeMember "ExpiresTime" message.expiresTime pjson
  platform.writer pjson

end LPushWorkerMessage

structure LPushAPPKey where
  appKey : Bytes
  key : Bytes
  value : Bytes

def LPushAPPKey.create (appId uid ip : Bytes) (port : Int) : LPushAPPKey where
  appKey := text "USER_APPKEY_ZSET_" ++ appId
  key := uid
  value := ip ++ text ":" ++ decimal port

structure LPushPlatform where
  platformKey : Bytes
  key : Bytes
  value : Bytes

/-- The name of the client's operating system: the first digit found decides. -/
def LPushPlatform.system (platform : Bytes) : Bytes :=
  if occursIn (text "1") platform then text "IOS_"
  else if occursIn (text "2") platform then text "ANDROID_"
  else if occursIn (text "3") platform then text "WIN_PHONE_"
  else if occursIn (text "4") platform then text "WIN_PC_"
  else if occursIn (text "5") platform then text "WEB_"
  else []

def LPushPlatform.create (platform appId uid ip : Bytes) (port : Int) : LPushPlatform where
  platformKey := text "USER_" ++ LPushPlatform.system platform ++ text "ZSET_" ++ appId
  key := uid
  value := ip ++ text ":" ++ decimal port

structure MongoIOEntity where
  db : Bytes
  collectionName : Bytes
  appKey : Bytes
  userId : Bytes
  secreteKey : Bytes
deriving DecidableEq

/-- The commands a connection sends to Redis; hiredis formats every argument up to its first NUL. -/
inductive RedisCommand where
  | set (key value : Bytes)
  | expire (key : Bytes) (seconds : Nat)
  | del (key : Bytes)
  | zadd (key : Bytes) (score : Int) (value : Bytes)
  | zrem (key value : Bytes)
  | lpush (key value : Bytes)
deriving DecidableEq

namespace RedisClient

def set (key value : Bytes) : RedisCommand := .set (cStr key) (cStr value)
def expire (key : Bytes) (seconds : Nat) : RedisCommand := .expire (cStr key) seconds
def del (key : Bytes) : RedisCommand := .del (cStr key)
def zadd (key : Bytes) (index : Int) (value : Bytes) : RedisCommand := .zadd (cStr key) index (cStr value)
def zrem (key value : Bytes) : RedisCommand := .zrem (cStr key) (cStr value)
def lPushForList (key value : Bytes) : RedisCommand := .lpush (cStr key) (cStr value)

/-- `hget` from the hash at `key`; a missing field reads as the empty string. -/
def hget (hashes : Bytes → Bytes → Option Bytes) (key field : Bytes) : Bytes :=
  match hashes (cStr key) (cStr field) with
  | none => []
  | some value => cStr value

end RedisClient

/-! ### A small setting -/

def bareConfig : LPushConfig where
  port := 9737
  maxconnect := 1000
  localhost := text "127.0.0.1"
  resultList := text "RESULT_"
  appKeys := text "APP_KEYS"
  mongodb := text "lpush"

end LinkedonPush
