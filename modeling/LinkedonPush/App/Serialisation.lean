import LinkedonPush.App.Message
import LinkedonPush.Kernel.ReadBack

/-!
# Queued messages

`toAllString`, with which the pushing side queues a message, against the constructor that
`cycle_all` reads it with. The times go through `empty(int)`, which sees their low 32 bits only.
-/

namespace LinkedonPush

open Json

namespace LPushWorkerMessage

/-- The value that `toAllString` prints. -/
def allJson (message : LPushWorkerMessage) : Json :=
  let pjson := Json.null
  let pjson := member "UserId" message.userId pjson
  let pjson := member "AppKey" message.appKey pjson
  let pjson := member "MsgId" message.msgId pjson
  let pjson := member "AppSecret" message.appSecret pjson
  let pjson := member "TaskId" message.taskId pjson
  let pjson := member "Title" message.title pjson
  let pjson := member "Content" message.content pjson
  let pjson := member "Ext" message.ext pjson
  let pjson := timeMember "CreateTime" message.createTime pjson
  let pjson := timeMember "ExpiresTime" message.expiresTime pjson
  pjson

def toAllString (platform : Platform) (message : LPushWorkerMessage) : Bytes :=
  platform.writer message.allJson

/-! ### What is written -/

def textEntry (key : String) (value : Bytes) : Bytes × Option Json :=
  (text key, if value.isEmpty then none else some (.string value))

def timeEntry (key : String) (value : Int) : Bytes × Option Json :=
  (text key, if emptyInt value then none else some (.int value))

theorem member_eq_withMembers (key : String) (value : Bytes) (json : Json) :
    member key value json = json.withMembers [textEntry key value] := by
  unfold member withMembers textEntry
  cases value.isEmpty <;> rfl

theorem timeMember_eq_withMembers (key : String) (value : Int) (json : Json) :
    timeMember key value json = json.withMembers [timeEntry key value] := by
  unfold timeMember withMembers timeEntry
  cases emptyInt value <;> rfl

def allEntries (message : LPushWorkerMessage) : List (Bytes × Option Json) :=
  [textEntry "UserId" message.userId, textEntry "AppKey" message.appKey,
    textEntry "MsgId" message.msgId, textEntry "AppSecret" message.appSecret,
    textEntry "TaskId" message.taskId, textEntry "Title" message.title,
    textEntry "Content" message.content, textEntry "Ext" message.ext,
    timeEntry "CreateTime" message.createTime, timeEntry "ExpiresTime" message.expiresTime]

theorem allJson_eq_withMembers (message : LPushWorkerMessage) :
    message.allJson = Json.null.withMembers message.allEntries := by
  simp only [allJson, member_eq_withMembers, timeMember_eq_withMembers]
  rfl

theorem nodup_allEntries (message : LPushWorkerMessage) :
    (message.allEntries.map Prod.fst).Nodup := by
  have hkeys : message.allEntries.map Prod.fst =
      ["UserId", "AppKey", "MsgId", "AppSecret", "TaskId", "Title", "Content", "Ext", "CreateTime",
        "ExpiresTime"].map text := rfl
  rw [hkeys]
  decide

/-! ### What is read -/

section

variable {entries : List (Bytes × Option Json)} {root : Json}

theorem get_of_readBack (hdistinct : (entries.map Prod.fst).Nodup)
    (hroot : ReadBack root (Json.null.withMembers entries)) (key : Bytes) :
    ∃ parsed, root.get key = some parsed ∧ Same parsed ((entries.lookup key).join.getD .null) := by
  have hnull : Json.null.members = some [] := rfl
  obtain ⟨written, hwritten, hlookup⟩ := members_withMembers hdistinct hnull
  obtain ⟨parsed, value, hparsed, hvalue, hsame⟩ := hroot.get key
  rw [Json.get, hwritten, Option.map_some, hlookup key, List.lookup_nil, Option.or_none] at hvalue
  refine ⟨parsed, hparsed, ?_⟩
  rw [Option.some.inj hvalue]
  exact hsame

theorem asString_of_readBack (hdistinct : (entries.map Prod.fst).Nodup)
    (hroot : ReadBack root (Json.null.withMembers entries)) (key : String) (value : Bytes)
    (hentry : entries.lookup (text key) = some (textEntry key value).2) :
    (root.get (text key)).bind Json.asString = some value := by
  obtain ⟨parsed, hparsed, hsame⟩ := get_of_readBack hdistinct hroot (text key)
  rw [hentry] at hsame
  rw [hparsed, Option.bind_some, hsame.asString]
  cases value <;> rfl

/-- What becomes of a time: `empty(int)` may have left it out. -/
def keptTime (value : Int) : Int := if emptyInt value then 0 else value

theorem asInt64_of_readBack (hdistinct : (entries.map Prod.fst).Nodup)
    (hroot : ReadBack root (Json.null.withMembers entries)) (key : String) {value : Int}
    (hvalue : value ≤ maxInt64)
    (hentry : entries.lookup (text key) = some (timeEntry key value).2) :
    (root.get (text key)).bind Json.asInt64 = some (keptTime value) := by
  obtain ⟨parsed, hparsed, hsame⟩ := get_of_readBack hdistinct hroot (text key)
  rw [hentry] at hsame
  rw [hparsed, Option.bind_some, keptTime]
  unfold timeEntry at hsame
  cases hempty : emptyInt value with
  | true =>
      rw [hempty] at hsame
      cases hsame
      rfl
  | false =>
      rw [hempty] at hsame
      exact hsame.asInt64 hvalue

end

/-- All that reading changes is a time that was left out. -/
theorem ofJson_toAllString {platform : Platform} {message : LPushWorkerMessage} {root : Json}
    (hcreate : message.createTime ≤ maxInt64) (hexpires : message.expiresTime ≤ maxInt64)
    (hreader : platform.reader (message.toAllString platform) = some root)
    (hroot : ReadBack root message.allJson) :
    ofJson platform (message.toAllString platform) = some { message with
      createTime := keptTime message.createTime
      expiresTime := keptTime message.expiresTime } := by
  rw [allJson_eq_withMembers] at hroot
  have hdistinct := nodup_allEntries message
  have hstring := asString_of_readBack hdistinct hroot
  simp only [ofJson, hreader, hstring "TaskId" message.taskId rfl,
    hstring "MsgId" message.msgId rfl, hstring "AppKey" message.appKey rfl,
    hstring "AppSecret" message.appSecret rfl, hstring "Content" message.content rfl,
    hstring "UserId" message.userId rfl, hstring "Title" message.title rfl,
    hstring "Ext" message.ext rfl, asInt64_of_readBack hdistinct hroot "CreateTime" hcreate rfl,
    asInt64_of_readBack hdistinct hroot "ExpiresTime" hexpires rfl]
  rfl

/-- A time that is 0, or whose low 32 bits are a positive `int`. -/
def Survives (time : Int) : Prop := time = 0 ∨ (0 < time % 2 ^ 32 ∧ time % 2 ^ 32 < 2 ^ 31)

theorem keptTime_eq_self_iff (time : Int) : keptTime time = time ↔ Survives time := by
  have hbits : (BitVec.ofInt 32 time).toInt = time.bmod (2 ^ 32) := BitVec.toInt_ofInt _
  unfold keptTime emptyInt Survives
  rw [hbits]
  have hdef := @Int.bmod_def time (2 ^ 32)
  split
  · rename_i hempty
    have hle := of_decide_eq_true hempty
    split at hdef <;> omega
  · rename_i hempty
    have hlt := of_decide_eq_false (Bool.eq_false_iff.mpr hempty)
    split at hdef <;> omega

/-- **Queued messages.** With jsoncpp giving back what it printed, a message comes out of the queue
unchanged exactly if each time is 0 or has low 32 bits that are a positive `int`. -/
theorem ofJson_toAllString_iff (platform : Platform) (message : LPushWorkerMessage)
    (hcreate : message.createTime ≤ maxInt64) (hexpires : message.expiresTime ≤ maxInt64)
    (hreader : ∃ root, platform.reader (message.toAllString platform) = some root ∧
      ReadBack root message.allJson) :
    ofJson platform (message.toAllString platform) = some message ↔
      Survives message.createTime ∧ Survives message.expiresTime := by
  obtain ⟨root, hroot, hback⟩ := hreader
  rw [ofJson_toAllString hcreate hexpires hroot hback, Option.some.injEq]
  rw [← keptTime_eq_self_iff, ← keptTime_eq_self_iff]
  constructor
  · intro heq
    exact ⟨congrArg createTime heq, congrArg expiresTime heq⟩
  · rintro ⟨hcreate, hexpires⟩
    rw [hcreate, hexpires]

/-- A message of the pushing side; its other fields are empty. -/
def task (createTime : Int) : LPushWorkerMessage :=
  { LPushWorkerMessage.empty with
    taskId := text "t", userId := text "7", createTime := createTime, expiresTime := 10 }

/-- The text of the message created in July 2017, and of one created in January 2038. -/
def taskText : Bytes :=
  text "\x7b\n   \"CreateTime\" : 1500000000,\n   \"ExpiresTime\" : 10,\n" ++
    text "   \"TaskId\" : \"t\",\n   \"UserId\" : \"7\"\n\x7d\n"

def lateTaskText : Bytes :=
  text "\x7b\n   \"ExpiresTime\" : 10,\n   \"TaskId\" : \"t\",\n   \"UserId\" : \"7\"\n\x7d\n"

theorem members_task : (task 1500000000).allJson.members = some [
    (text "CreateTime", .int 1500000000), (text "ExpiresTime", .int 10),
    (text "TaskId", .string (text "t")), (text "UserId", .string (text "7"))] := rfl

theorem ofJson_toAllString_task :
    ofJson (textPlatform taskText (task 1500000000).allJson)
        ((task 1500000000).toAllString (textPlatform taskText (task 1500000000).allJson)) =
      some (task 1500000000) :=
  (ofJson_toAllString_iff _ (task 1500000000) (by decide) (by decide)
    ⟨(task 1500000000).allJson, rfl, readBack_self members_task (by decide)⟩).mpr
    (by unfold Survives; decide)

theorem members_lateTask : (task 2147483648).allJson.members = some [
    (text "ExpiresTime", .int 10), (text "TaskId", .string (text "t")),
    (text "UserId", .string (text "7"))] := rfl

/-- A time of 2038 is lost, although jsoncpp gives back what it printed. -/
theorem not_ofJson_toAllString_lateTask :
    ∃ platform root, platform.reader ((task 2147483648).toAllString platform) = some root ∧
      ReadBack root (task 2147483648).allJson ∧
      ofJson platform ((task 2147483648).toAllString platform) ≠ some (task 2147483648) := by
  refine ⟨textPlatform lateTaskText (task 2147483648).allJson, (task 2147483648).allJson, rfl,
    readBack_self members_lateTask (by decide), fun h => ?_⟩
  rw [ofJson_toAllString (by decide) (by decide) rfl
    (readBack_self members_lateTask (by decide))] at h
  have htime := congrArg createTime (Option.some.inj h)
  exact absurd htime (by decide)

end LPushWorkerMessage

end LinkedonPush
