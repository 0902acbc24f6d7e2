import LinkedonPush.App.LPushConn

/-!
# The history loader

`selectMongoHistoryWork` of `lpushMongoIOThread.cpp` with the queries of `lpushMongoClient.cpp`. The
documents that match a user are a list in the fixed order in which `find` returns them. A query has
libbson print each document, and `jsonToMap` has it parse the text again; either may fail, and a number
may come back as another one.
-/

namespace LinkedonPush

/-- The text that `jsonToMap` stores for a value; it skips what is neither text nor object id nor
integer. -/
def BsonValue.asText : BsonValue → Option Bytes
  | utf8 value => some (cStr value)
  | oid bytes => some (bytes.toList.flatMap fun (b : UInt8) => [hexDigit (b >>> 4), hexDigit (b &&& 0x0F)])
  | int32 value => some (decimal value.toInt)
  | int64 value => some (decimal value.toInt)
  | double _ => none
  | other => none

/-- The entries that `jsonToMap` makes of a parsed text. -/
def Document.entries (document : Document) : StringMap :=
  document.members.filterMap fun (key, value) => value.asText.map fun text => (key, text)

/-- `none` where the text does not parse, and `bson_iter_init` fails its assertion. -/
def jsonToMap (platform : Platform) (json : Bytes) : Option StringMap :=
  (platform.newFromJson json).map Document.entries

/-- The constructor behind `jsonToMap`. -/
def LPushWorkerMessage.ofBson (platform : Platform) (json : Bytes) : Option LPushWorkerMessage :=
  (jsonToMap platform json).bind ofMap

/-- The message built from a document once it is printed; `none` where a `std::string` is made of NULL, the
text does not parse or a time is missing. -/
def Document.message (platform : Platform) (document : Document) : Option LPushWorkerMessage :=
  (platform.asJson document).bind (LPushWorkerMessage.ofBson platform)

namespace MongodbClient

variable (matching : List Document)

/-- The slice that `find` returns; a limit of 0 is none. -/
def find (skip limit : Nat) : List Document :=
  if limit = 0 then matching.drop skip else (matching.drop skip).take limit

def selectOneIsExist : Bool := !(find matching 0 1).isEmpty

def skipParamsIsExist (skipnum : Nat) : Bool := !(find matching skipnum 1).isEmpty

/-- `none` where a document cannot be printed. -/
def queryToListJsonLimit (platform : Platform) (page pageSize : Nat) : Option (List Bytes) :=
  (find matching ((page - 1) * pageSize) pageSize).mapM platform.asJson

end MongodbClient

namespace LPushMongoIOThread

open MongodbClient

/-- The state of a call: it has not returned within the given number of pages, the process died, or
it returned. -/
inductive Loading where
  | running
  | died
  | done (ret : Int) (client : Option LPushClient)

/-- The loop over the texts of a page. -/
def pushAll (platform : Platform) (client : LPushClient) : List Bytes → Option LPushClient
  | [] => some client
  | json :: result =>
      match LPushWorkerMessage.ofBson platform json with
      | none => none
      | some lpwm => pushAll platform (client.push lpwm) result

/-- `client` is what `LPushSource::instance` finds. -/
def selectMongoHistoryLimit (platform : Platform) (matching : List Document) (client : Option LPushClient)
    (page pageSize : Nat) : Loading :=
  match client with
  | none => .done errorObjectNotExist none
  | some client =>
      match (queryToListJsonLimit matching platform page pageSize).bind (pushAll platform client) with
      | none => .died
      | some client => .done errorSuccess (some client)

/-- The loop over the pages, and the page behind it. -/
def whileUp (platform : Platform) (matching : List Document) : Nat → Option LPushClient → Loading
  | 0, _ => .running
  | fuel + 1, client =>
      match selectMongoHistoryLimit platform matching client 1 50000 with
      | .running => .running
      | .died => .died
      | .done ret client =>
          if ret ≠ errorSuccess then .done ret client
          else if skipParamsIsExist matching 50000 then whileUp platform matching fuel client
          else selectMongoHistoryLimit platform matching client 1 50000

def selectMongoHistoryWork (platform : Platform) (matching : List Document) (fuel : Nat)
    (client : Option LPushClient) : Loading :=
  if selectOneIsExist matching then
    if skipParamsIsExist matching 50000 then whileUp platform matching fuel client
    else selectMongoHistoryLimit platform matching client 1 50000
  else .done errorSuccess client

/-! ### One page -/

section

variable {platform : Platform} {matching : List Document} {client client' : LPushClient}

theorem skipParamsIsExist_iff {skipnum : Nat} :
    skipParamsIsExist matching skipnum = true ↔ skipnum < matching.length := by
  simp only [skipParamsIsExist, find, Nat.one_ne_zero, if_false, Bool.not_eq_true', List.isEmpty_eq_false_iff,
    ne_eq, List.take_eq_nil_iff, List.drop_eq_nil_iff, false_or, not_le]

theorem selectOneIsExist_iff : selectOneIsExist matching = true ↔ matching ≠ [] := by
  simp [selectOneIsExist, find]

theorem queryToListJsonLimit_one (hlength : matching.length ≤ 50000) :
    queryToListJsonLimit matching platform 1 50000 = matching.mapM platform.asJson := by
  simp [queryToListJsonLimit, find, List.take_of_length_le hlength]

/-- A page is pushed whole and in order, or a text without a message ends the process. -/
theorem pushAll_eq_some_iff {texts : List Bytes} : pushAll platform client texts = some client' ↔
    ∃ messages, texts.mapM (LPushWorkerMessage.ofBson platform) = some messages ∧
      client' = { client with queue := client.queue ++ messages } := by
  induction texts generalizing client with
  | nil =>
      simp only [pushAll, List.mapM_nil, Option.pure_def, Option.some.injEq, exists_eq_left', List.append_nil]
      exact eq_comm
  | cons json texts ih =>
      cases hmessage : LPushWorkerMessage.ofBson platform json with
      | none => simp [pushAll, hmessage]
      | some lpwm =>
          simp only [pushAll, hmessage, ih, List.mapM_cons, Option.pure_def, Option.bind_eq_bind,
            Option.bind_some, Option.bind_eq_some_iff, Option.some.injEq]
          constructor
          · rintro ⟨messages, hmessages, rfl⟩
            refine ⟨lpwm :: messages, ⟨messages, hmessages, rfl⟩, ?_⟩
            simp [LPushClient.push, LPushFastQueue.push]
          · rintro ⟨_, ⟨messages, hmessages, rfl⟩, rfl⟩
            exact ⟨messages, hmessages, by simp [LPushClient.push, LPushFastQueue.push]⟩

/-- The messages of documents are those of their texts. -/
theorem mapM_message (documents : List Document) : documents.mapM (Document.message platform) =
    (documents.mapM platform.asJson).bind fun texts => texts.mapM (LPushWorkerMessage.ofBson platform) := by
  induction documents with
  | nil => rfl
  | cons document documents ih =>
      simp only [List.mapM_cons, Document.message, ih, Option.pure_def, Option.bind_eq_bind]
      cases platform.asJson document with
      | none => rfl
      | some json =>
          cases documents.mapM platform.asJson with
          | none => cases hmessage : LPushWorkerMessage.ofBson platform json <;> simp [hmessage]
          | some texts => simp only [Option.bind_some, List.mapM_cons, Option.pure_def, Option.bind_eq_bind]

theorem mapM_message_eq_some_iff {documents : List Document} :
    (∃ messages, documents.mapM (Document.message platform) = some messages) ↔
      ∀ document ∈ documents, (document.message platform).isSome = true := by
  induction documents with
  | nil => simp
  | cons document documents ih =>
      rw [List.forall_mem_cons, ← ih, Option.isSome_iff_exists]
      simp only [List.mapM_cons, Option.pure_def, Option.bind_eq_bind, Option.bind_eq_some_iff,
        Option.some.injEq]
      constructor
      · rintro ⟨_, message, hmessage, messages, hmessages, -⟩
        exact ⟨⟨message, hmessage⟩, messages, hmessages⟩
      · rintro ⟨⟨message, hmessage⟩, messages, hmessages⟩
        exact ⟨_, message, hmessage, messages, hmessages, rfl⟩

/-! ### The pages -/

/-- Nothing in the loop over the pages changes what its condition asks for. -/
theorem whileUp_ne_done (hmore : 50000 < matching.length) (fuel : Nat) (client : LPushClient)
    (client' : Option LPushClient) : whileUp platform matching fuel (some client) ≠ .done errorSuccess client' := by
  induction fuel generalizing client with
  | zero => exact Loading.noConfusion
  | succ fuel ih =>
      have hup : skipParamsIsExist matching 50000 = true := skipParamsIsExist_iff.mpr hmore
      simp only [whileUp, selectMongoHistoryLimit]
      cases hpage : (queryToListJsonLimit matching platform 1 50000).bind (pushAll platform client) with
      | none => exact Loading.noConfusion
      | some paged =>
          simp only [ne_eq, not_true_eq_false, if_false, hup, if_true]
          exact ih paged

/-- The call returns having pushed exactly the messages of the matching documents, in order. -/
def Complete (platform : Platform) (matching : List Document) (client : LPushClient) : Prop :=
  ∃ fuel client' messages,
    selectMongoHistoryWork platform matching fuel (some client) = .done errorSuccess (some client') ∧
      matching.mapM (Document.message platform) = some messages ∧ client'.queue = client.queue ++ messages

theorem not_complete_of_length (hmore : 50000 < matching.length) : ¬ Complete platform matching client := by
  rintro ⟨fuel, client', messages, hwork, -⟩
  have hexists : selectOneIsExist matching = true := by
    rw [selectOneIsExist_iff]
    rintro rfl
    exact absurd hmore (by simp)
  rw [selectMongoHistoryWork, if_pos hexists, if_pos (skipParamsIsExist_iff.mpr hmore)] at hwork
  exact whileUp_ne_done hmore fuel client _ hwork

/-- Up to one page of documents, the call is complete exactly if every document makes a message. -/
theorem complete_iff_of_length (hpage : matching.length ≤ 50000) :
    Complete platform matching client ↔ ∀ document ∈ matching, (document.message platform).isSome = true := by
  rw [← mapM_message_eq_some_iff]
  constructor
  · rintro ⟨_, _, messages, -, hmessages, -⟩
    exact ⟨messages, hmessages⟩
  · rintro ⟨messages, hmessages⟩
    cases hnil : matching with
    | nil =>
        subst hnil
        exact ⟨0, client, [], rfl, rfl, (List.append_nil _).symm⟩
    | cons document documents =>
        have hexists : selectOneIsExist matching = true := by
          rw [selectOneIsExist_iff, hnil]
          exact List.cons_ne_nil _ _
        have hup : ¬ skipParamsIsExist matching 50000 = true := by
          rw [skipParamsIsExist_iff]
          exact not_lt.mpr hpage
        have hpushed : (matching.mapM platform.asJson).bind (pushAll platform client) =
            some { client with queue := client.queue ++ messages } := by
          obtain ⟨texts, htexts, hread⟩ := Option.bind_eq_some_iff.mp ((mapM_message matching).symm.trans hmessages)
          rw [htexts]
          exact pushAll_eq_some_iff.mpr ⟨messages, hread, rfl⟩
        rw [← hnil]
        refine ⟨0, { client with queue := client.queue ++ messages }, messages, ?_, hmessages, rfl⟩
        rw [selectMongoHistoryWork, if_pos hexists, if_neg hup]
        simp only [selectMongoHistoryLimit, queryToListJsonLimit_one hpage, hpushed]

end

/-! ### Times -/

/-- The value of a field that a query may compare as a number. -/
def Numeric : BsonValue → Prop
  | .int32 _ => True
  | .int64 _ => True
  | .double _ => True
  | _ => False

def Whole : BsonValue → Prop
  | .int32 _ => True
  | .int64 _ => True
  | _ => False

/-- Both times of a document have the given property. -/
def Times (property : BsonValue → Prop) (document : Document) : Prop :=
  ∀ key ∈ [text "CreateTime", text "ExpiresTime"],
    ∃ value, (key, value) ∈ document.members ∧ property value

/-- libbson prints the document and parses the text, and both times come back as integers. -/
def Loads (platform : Platform) (document : Document) : Prop :=
  ∃ json back, platform.asJson document = some json ∧ platform.newFromJson json = some back ∧ Times Whole back

/-- libbson prints numbers as numbers and parses them as such. -/
def KeepsNumbers (platform : Platform) : Prop :=
  ∀ document json back, platform.asJson document = some json → platform.newFromJson json = some back →
    Times Numeric document → Times Numeric back

theorem lookup_entries {document : Document} {key : Bytes} {value : BsonValue}
    (hmember : (key, value) ∈ document.members) : document.entries.lookup key = value.asText := by
  obtain ⟨members, hnodup⟩ := document
  simp only [Document.entries] at hmember ⊢
  induction members with
  | nil => exact (List.not_mem_nil hmember).elim
  | cons member members ih =>
      obtain ⟨key', value'⟩ := member
      rw [List.map_cons, List.nodup_cons] at hnodup
      rw [List.filterMap_cons]
      rcases List.mem_cons.mp hmember with heq | htail
      · obtain ⟨rfl, rfl⟩ := Prod.mk.inj heq
        cases htext : value.asText with
        | some text => simp
        | none =>
            -- no other member has this key
            simp only [Option.map_none]
            rw [List.lookup_eq_none_iff]
            intro entry hentry
            obtain ⟨⟨key', value'⟩, hin, hsome⟩ := List.mem_filterMap.mp hentry
            obtain ⟨text, -, rfl⟩ := Option.map_eq_some_iff.mp hsome
            have hkey : key' ∈ members.map Prod.fst := List.mem_map.mpr ⟨_, hin, rfl⟩
            rw [bne_iff_ne]
            rintro rfl
            exact hnodup.1 hkey
      · have hne : key ≠ key' := by
          rintro rfl
          exact hnodup.1 (List.mem_map.mpr ⟨_, htail, rfl⟩)
        have hbeq : (key == key') = false := beq_eq_false_iff_ne.mpr hne
        cases htext : value'.asText with
        | some text => simpa [htext, List.lookup_cons, hbeq] using ih hnodup.2 htail
        | none => simpa [htext] using ih hnodup.2 htail

theorem BitVec_toInt_range (value : BitVec 64) : minInt64 ≤ value.toInt ∧ value.toInt ≤ maxInt64 := by
  have hlow := BitVec.le_toInt value
  have hhigh := BitVec.toInt_lt (x := value)
  simp only [minInt64, maxInt64]
  omega

/-- `StringToLong` of a numeric field succeeds exactly if the field comes back as an integer. -/
theorem stringToLong_asText_iff {value : BsonValue} (hnumeric : Numeric value) :
    (stringToLong (value.asText.getD [])).isSome = true ↔ Whole value := by
  cases value with
  | int32 value =>
      have hlow := BitVec.le_toInt value
      have hhigh := BitVec.toInt_lt (x := value)
      simp only [BsonValue.asText, Option.getD_some, Whole, iff_true]
      rw [stringToLong_decimal (by simp only [minInt64]; omega) (by simp only [maxInt64]; omega)]
      rfl
  | int64 value =>
      obtain ⟨hlow, hhigh⟩ := BitVec_toInt_range value
      simp only [BsonValue.asText, Option.getD_some, Whole, iff_true]
      rw [stringToLong_decimal hlow hhigh]
      rfl
  | double bits =>
      simp only [BsonValue.asText, Option.getD_none, Whole, iff_false]
      decide
  | utf8 value => exact hnumeric.elim
  | oid bytes => exact hnumeric.elim
  | other => exact hnumeric.elim

theorem Whole.numeric {value : BsonValue} (h : Whole value) : Numeric value := by
  cases value with
  | int32 value => exact trivial
  | int64 value => exact trivial
  | double bits => exact h.elim
  | utf8 value => exact h
  | oid bytes => exact h
  | other => exact h

theorem isSome_time_iff {document : Document} {key : Bytes}
    (hnumeric : ∃ value, (key, value) ∈ document.members ∧ Numeric value) :
    (stringToLong (document.entries.get key)).isSome = true ↔
      ∃ value, (key, value) ∈ document.members ∧ Whole value := by
  constructor
  · intro hsome
    obtain ⟨value, hmember, hvalue⟩ := hnumeric
    rw [StringMap.get, lookup_entries hmember] at hsome
    exact ⟨value, hmember, (stringToLong_asText_iff hvalue).mp hsome⟩
  · rintro ⟨value, hmember, hvalue⟩
    rw [StringMap.get, lookup_entries hmember]
    exact (stringToLong_asText_iff hvalue.numeric).mpr hvalue

theorem isSome_ofMap_iff {params : StringMap} : (LPushWorkerMessage.ofMap params).isSome = true ↔
    ∀ key ∈ [text "CreateTime", text "ExpiresTime"], (stringToLong (params.get key)).isSome = true := by
  rw [List.forall_mem_cons, List.forall_mem_singleton]
  unfold LPushWorkerMessage.ofMap
  cases stringToLong (params.get (text "CreateTime")) with
  | none => simp
  | some createTime =>
      cases stringToLong (params.get (text "ExpiresTime")) with
      | none => simp
      | some expiresTime => simp

theorem isSome_ofBson_iff {json : Bytes}
    (hnumeric : ∀ back, platform.newFromJson json = some back → Times Numeric back) :
    (LPushWorkerMessage.ofBson platform json).isSome = true ↔
      ∃ back, platform.newFromJson json = some back ∧ Times Whole back := by
  unfold LPushWorkerMessage.ofBson jsonToMap
  cases hback : platform.newFromJson json with
  | none => simp
  | some back =>
      simp only [Option.map_some, Option.bind_some, Option.some.injEq, exists_eq_left', isSome_ofMap_iff]
      exact forall₂_congr fun key hkey => isSome_time_iff (hnumeric back hback key hkey)

theorem isSome_message_iff {document : Document} (hkeeps : KeepsNumbers platform)
    (hnumeric : Times Numeric document) : (document.message platform).isSome = true ↔ Loads platform document := by
  unfold Document.message Loads
  cases hjson : platform.asJson document with
  | none => simp
  | some json =>
      simp only [Option.bind_some, Option.some.injEq, exists_and_left, exists_eq_left']
      exact isSome_ofBson_iff fun back hback => hkeeps document json back hjson hback hnumeric

/-- **History.** With numeric times in every document and the client registered throughout, the call
returns having queued each matching document's message once and in order, exactly if the documents
fill at most one page and libbson gives each of them back from its text with integers as times. -/
theorem complete_iff (platform : Platform) (hkeeps : KeepsNumbers platform) (matching : List Document)
    (hnumeric : ∀ document ∈ matching, Times Numeric document) (client : LPushClient) :
    Complete platform matching client ↔
      matching.length ≤ 50000 ∧ ∀ document ∈ matching, Loads platform document := by
  by_cases hpage : matching.length ≤ 50000
  · rw [complete_iff_of_length hpage, and_iff_right hpage]
    exact forall₂_congr fun document hdocument => isSome_message_iff hkeeps (hnumeric document hdocument)
  · constructor
    · intro hcomplete
      exact (not_complete_of_length (not_le.mp hpage) hcomplete).elim
    · intro h
      exact (hpage h.1).elim

/-- A task as the pushing side stores it, with a number as its `_id`. -/
def taskDocument (id : Nat) : Document where
  members := [(text "_id", .int32 (BitVec.ofNat 32 id)), (text "UserId", .utf8 (text "7")),
    (text "AppKey", .utf8 (text "app")), (text "AppSecret", .utf8 (text "key")),
    (text "TaskId", .utf8 (text "task")), (text "MsgId", .utf8 (text "message")),
    (text "CreateTime", .int64 1500000000), (text "ExpiresTime", .int64 1500086400)]
  nodup := by
    simp only [List.map_cons, List.map_nil]
    decide

/-- What `bson_as_json` prints for the first task. -/
def taskPrinted : Bytes :=
  text "\x7b \"_id\" : 1, \"UserId\" : \"7\", \"AppKey\" : \"app\", \"AppSecret\" : \"key\", " ++
    text "\"TaskId\" : \"task\", \"MsgId\" : \"message\", " ++
    text "\"CreateTime\" : 1500000000, \"ExpiresTime\" : 1500086400 \x7d"

/-- What `bson_new_from_json` makes of it: the times fit an `int32`. -/
def taskParsed : Document where
  members := [(text "_id", .int32 1), (text "UserId", .utf8 (text "7")),
    (text "AppKey", .utf8 (text "app")), (text "AppSecret", .utf8 (text "key")),
    (text "TaskId", .utf8 (text "task")), (text "MsgId", .utf8 (text "message")),
    (text "CreateTime", .int32 1500000000), (text "ExpiresTime", .int32 1500086400)]
  nodup := by
    simp only [List.map_cons, List.map_nil]
    decide

/-- A system with a libbson that knows one text. -/
def documentPlatform (source : Bytes) (document : Document) : Platform :=
  { barePlatform with
    asJson := fun _ => some source
    newFromJson := fun src => if src = source then some document else none }

/-- A client that was just registered. -/
def newClient : LPushClient := ⟨3, text "app", text "key", text "7", text "1", []⟩

theorem times_taskDocument (id : Nat) : Times Numeric (taskDocument id) := by
  intro key hkey
  rcases List.mem_pair.mp hkey with rfl | rfl
  · exact ⟨.int64 1500000000, by simp [taskDocument], trivial⟩
  · exact ⟨.int64 1500086400, by simp [taskDocument], trivial⟩

theorem times_taskParsed : Times Whole taskParsed := by
  intro key hkey
  rcases List.mem_pair.mp hkey with rfl | rfl
  · exact ⟨_, List.mem_of_getElem? (i := 6) rfl, trivial⟩
  · exact ⟨_, List.mem_of_getElem? (i := 7) rfl, trivial⟩

theorem keepsNumbers_document {source : Bytes} {document : Document} (h : Times Whole document) :
    KeepsNumbers (documentPlatform source document) := by
  intro _ json back _ hback _ key hkey
  obtain rfl := Option.some.inj (Option.ite_none_right_eq_some.mp hback).2.symm
  obtain ⟨value, hmember, hwhole⟩ := h key hkey
  exact ⟨value, hmember, hwhole.numeric⟩

theorem loads_document {source : Bytes} {document : Document} (stored : Document) (h : Times Whole document) :
    Loads (documentPlatform source document) stored :=
  ⟨source, document, rfl, if_pos rfl, h⟩

theorem complete_iff_one : Complete (documentPlatform taskPrinted taskParsed) [taskDocument 1] newClient := by
  exact (complete_iff _ (keepsNumbers_document times_taskParsed) [taskDocument 1]
    (List.forall_mem_singleton.mpr (times_taskDocument 1)) newClient).mpr
    ⟨by decide, List.forall_mem_singleton.mpr (loads_document _ times_taskParsed)⟩

/-- With one document more than a page holds, the call never returns, whatever libbson does. -/
theorem not_complete_of_50001 :
    ¬ ∃ platform, Complete platform ((List.range 50001).map taskDocument) newClient := by
  rintro ⟨platform, hcomplete⟩
  refine not_complete_of_length ?_ hcomplete
  rw [List.length_map, List.length_range]
  omega

end LPushMongoIOThread

end LinkedonPush
