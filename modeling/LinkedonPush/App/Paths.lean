import LinkedonPush.App.History
import LinkedonPush.Kernel.ReadBack

/-!
# The two ways to a message

A task reaches a client as JSON text from Redis or as a document from Mongo. The first way parses
with jsoncpp, the second with libbson, whose values `jsonToMap` turns into text before the other
constructor reads them. Of what libbson makes of a text, only the members under the ten names matter.
-/

namespace LinkedonPush

open Json

namespace LPushWorkerMessage

def textKeys : List Bytes :=
  ["TaskId", "MsgId", "AppKey", "AppSecret", "Content", "UserId", "Title", "Ext"].map text

def timeKeys : List Bytes := ["CreateTime", "ExpiresTime"].map text

/-- A JSON object whose members have the types a message needs, where they are present. -/
structure TaskObject (members : List (Bytes × Json)) : Prop where
  texts : ∀ key ∈ textKeys, ∀ value, members.lookup key = some value → ∃ s, value = .string s
  times : ∀ key ∈ timeKeys, ∀ value, members.lookup key = some value →
    ∃ n : Int, value = .int n ∧ minInt64 ≤ n ∧ n ≤ maxInt64

/-- How libbson stores a string or an integer. -/
inductive Stored : Json → BsonValue → Prop where
  | string (s : Bytes) : Stored (.string s) (.utf8 s)
  | int32 (n : Int) (hlow : -(2 ^ 31) ≤ n) (hhigh : n < 2 ^ 31) :
      Stored (.int n) (.int32 (BitVec.ofInt 32 n))
  | int64 (n : Int) (hbeyond : n < -(2 ^ 31) ∨ 2 ^ 31 ≤ n) :
      Stored (.int n) (.int64 (BitVec.ofInt 64 n))

/-- The members of a document under the ten names are those of the object. -/
def StoredAs (members : List (Bytes × Json)) (document : Document) : Prop :=
  ∀ key ∈ textKeys ++ timeKeys, Option.Rel Stored (members.lookup key) (document.members.lookup key)

/-! ### The text from Redis -/

variable {members : List (Bytes × Json)}

def textOf (members : List (Bytes × Json)) (key : Bytes) : Bytes :=
  match members.lookup key with
  | some (.string s) => s
  | _ => []

def timeOf (members : List (Bytes × Json)) (key : Bytes) : Int :=
  match members.lookup key with
  | some (.int n) => n
  | _ => 0

/-- The message whose fields come from two functions of the member names. -/
def ofFields (textField : Bytes → Bytes) (timeField : Bytes → Int) : LPushWorkerMessage where
  taskId := textField (text "TaskId")
  msgId := textField (text "MsgId")
  appKey := textField (text "AppKey")
  appSecret := textField (text "AppSecret")
  userId := textField (text "UserId")
  title := textField (text "Title")
  content := textField (text "Content")
  ext := textField (text "Ext")
  createTime := timeField (text "CreateTime")
  expiresTime := timeField (text "ExpiresTime")

theorem asString_eq_textOf {root : Json} (hroot : ReadBack root (.object members))
    (hobject : TaskObject members) (key : Bytes) (hkey : key ∈ textKeys) :
    (root.get key).bind Json.asString = some (textOf members key) := by
  obtain ⟨parsed, value, hparsed, hvalue, hsame⟩ := hroot.get key
  rw [hparsed, Option.bind_some, hsame.asString]
  have hget : (members.lookup key).getD .null = value := Option.some.inj hvalue
  unfold textOf
  cases hlookup : members.lookup key with
  | none =>
      rw [hlookup] at hget
      rw [← hget]
      rfl
  | some found =>
      obtain ⟨s, rfl⟩ := hobject.texts key hkey found hlookup
      rw [hlookup] at hget
      rw [← hget]
      rfl

theorem asInt64_eq_timeOf {root : Json} (hroot : ReadBack root (.object members))
    (hobject : TaskObject members) (key : Bytes) (hkey : key ∈ timeKeys) :
    (root.get key).bind Json.asInt64 = some (timeOf members key) := by
  obtain ⟨parsed, value, hparsed, hvalue, hsame⟩ := hroot.get key
  rw [hparsed, Option.bind_some]
  have hget : (members.lookup key).getD .null = value := Option.some.inj hvalue
  unfold timeOf
  cases hlookup : members.lookup key with
  | none =>
      rw [hlookup] at hget
      rw [← hget] at hsame
      cases hsame
      rfl
  | some found =>
      obtain ⟨n, rfl, -, hhigh⟩ := hobject.times key hkey found hlookup
      rw [hlookup] at hget
      rw [← hget] at hsame
      exact hsame.asInt64 hhigh

/-- The constructor from JSON text takes every member as it is, and the defaults for the absent. -/
theorem ofJson_of_members {platform : Platform} {source : Bytes} {root : Json}
    (hreader : platform.reader source = some root) (hroot : ReadBack root (.object members))
    (hobject : TaskObject members) :
    ofJson platform source = some (ofFields (textOf members) (timeOf members)) := by
  have hstring := asString_eq_textOf hroot hobject
  have hint64 := asInt64_eq_timeOf hroot hobject
  simp only [ofJson, hreader, hstring (text "TaskId") (by decide), hstring (text "MsgId") (by decide),
    hstring (text "AppKey") (by decide), hstring (text "AppSecret") (by decide),
    hstring (text "Content") (by decide), hstring (text "UserId") (by decide),
    hstring (text "Title") (by decide), hstring (text "Ext") (by decide),
    hint64 (text "CreateTime") (by decide), hint64 (text "ExpiresTime") (by decide)]
  rfl

/-! ### The document from Mongo -/

section

variable {document : Document}

theorem lookup_entries_eq (document : Document) (key : Bytes) :
    document.entries.lookup key = (document.members.lookup key).bind BsonValue.asText :=
  lookup_filterMap BsonValue.asText document.nodup key

theorem get_entries_text (hobject : TaskObject members) (hstored : StoredAs members document)
    (key : Bytes) (hkey : key ∈ textKeys) :
    document.entries.get key = cStr (textOf members key) := by
  rw [StringMap.get, lookup_entries_eq]
  have hrel := hstored key (List.mem_append_left _ hkey)
  have htext := hobject.texts key hkey
  unfold textOf
  generalize members.lookup key = value at hrel htext ⊢
  generalize document.members.lookup key = stored at hrel ⊢
  cases hrel with
  | none => rfl
  | some h =>
      obtain ⟨s, rfl⟩ := htext _ rfl
      cases h
      rfl

/-- A time that is present survives the way through its decimal text; an absent one is no number. -/
theorem stringToLong_entries (hobject : TaskObject members) (hstored : StoredAs members document)
    (key : Bytes) (hkey : key ∈ timeKeys) :
    stringToLong (document.entries.get key) =
      if (members.lookup key).isSome then some (timeOf members key) else none := by
  rw [StringMap.get, lookup_entries_eq]
  have hrel := hstored key (List.mem_append_right _ hkey)
  have htime := hobject.times key hkey
  unfold timeOf
  generalize members.lookup key = value at hrel htime ⊢
  generalize document.members.lookup key = stored at hrel ⊢
  cases hrel with
  | none => rfl
  | some h =>
      obtain ⟨n, rfl, hlow, hhigh⟩ := htime _ rfl
      have hread := stringToLong_decimal hlow hhigh
      cases h with
      | int32 _ hlow hhigh =>
          have hvalue : (BitVec.ofInt 32 n).toInt = n := by
            rw [BitVec.toInt_ofInt]
            exact Int.bmod_eq_of_le (by omega) (by omega)
          simp only [Option.bind_some, BsonValue.asText, hvalue, Option.getD_some, hread]
          rfl
      | int64 _ _ =>
          have hvalue : (BitVec.ofInt 64 n).toInt = n := by
            simp only [minInt64, maxInt64] at hlow hhigh
            rw [BitVec.toInt_ofInt]
            exact Int.bmod_eq_of_le (by omega) (by omega)
          simp only [Option.bind_some, BsonValue.asText, hvalue, Option.getD_some, hread]
          rfl

theorem message_of_members (hobject : TaskObject members) (hstored : StoredAs members document) :
    ofMap document.entries =
      if ∀ key ∈ timeKeys, (members.lookup key).isSome = true then
        some (ofFields (fun key => cStr (textOf members key)) (timeOf members))
      else none := by
  have htext := get_entries_text hobject hstored
  have htime := stringToLong_entries hobject hstored
  have hkeys : (∀ key ∈ timeKeys, (members.lookup key).isSome = true) ↔
      (members.lookup (text "CreateTime")).isSome = true ∧
        (members.lookup (text "ExpiresTime")).isSome = true := by
    simp only [timeKeys, List.map_cons, List.map_nil, List.forall_mem_cons, List.not_mem_nil,
      false_implies, implies_true, and_true]
  simp only [ofMap, htime (text "CreateTime") (by decide),
    htime (text "ExpiresTime") (by decide), htext (text "TaskId") (by decide),
    htext (text "MsgId") (by decide), htext (text "AppKey") (by decide),
    htext (text "AppSecret") (by decide), htext (text "Content") (by decide),
    htext (text "UserId") (by decide), htext (text "Title") (by decide),
    htext (text "Ext") (by decide), hkeys]
  cases (members.lookup (text "CreateTime")).isSome <;>
    cases (members.lookup (text "ExpiresTime")).isSome <;> rfl

end

/-- libbson stores the members one by one. -/
theorem storedAs_of_forall₂ {document : Document}
    (h : List.Forall₂ (fun member stored => member.1 = stored.1 ∧ Stored member.2 stored.2) members
      document.members) : StoredAs members document := by
  intro key _
  generalize document.members = stored at h
  induction h with
  | nil => exact .none
  | @cons member stored _ _ hfirst _ ih =>
      obtain ⟨name, value⟩ := member
      obtain ⟨_, kept⟩ := stored
      obtain ⟨rfl, hvalue⟩ := hfirst
      rw [lookup_cons_ite, lookup_cons_ite]
      by_cases hkey : key = name
      · rw [if_pos hkey, if_pos hkey]
        exact .some hvalue
      · rw [if_neg hkey, if_neg hkey]
        exact ih

/-! ### Both ways -/

theorem ofFields_cStr_iff (textField : Bytes → Bytes) (timeField : Bytes → Int) :
    ofFields (fun key => cStr (textField key)) timeField = ofFields textField timeField ↔
      ∀ key ∈ textKeys, (0 : UInt8) ∉ textField key := by
  simp only [ofFields, LPushWorkerMessage.mk.injEq, and_true, cStr_eq_self_iff, textKeys,
    List.map_cons, List.map_nil, List.forall_mem_cons, List.not_mem_nil, false_implies, implies_true]
  -- the keys are listed in another order than the fields
  constructor
  · rintro ⟨htaskId, hmsgId, happKey, happSecret, huserId, htitle, hcontent, hext⟩
    exact ⟨htaskId, hmsgId, happKey, happSecret, hcontent, huserId, htitle, hext⟩
  · rintro ⟨htaskId, hmsgId, happKey, happSecret, hcontent, huserId, htitle, hext⟩
    exact ⟨htaskId, hmsgId, happKey, happSecret, huserId, htitle, hcontent, hext⟩

/-- **The two ways agree.** Of a JSON object whose members have the right types, both constructors
make the same message exactly if libbson accepts the text, both times are present and no text member
contains a NUL. -/
theorem ofJson_agrees_ofBson_iff (platform : Platform) (source : Bytes) (members : List (Bytes × Json))
    (hobject : TaskObject members)
    (hjsoncpp : ∃ root, platform.reader source = some root ∧ ReadBack root (.object members))
    (hlibbson : ∀ document, platform.newFromJson source = some document → StoredAs members document) :
    (∃ message, ofJson platform source = some message ∧ ofBson platform source = some message) ↔
      (platform.newFromJson source).isSome = true ∧ (∀ key ∈ timeKeys, (members.lookup key).isSome = true) ∧
        ∀ key ∈ textKeys, ∀ s, members.lookup key = some (.string s) → (0 : UInt8) ∉ s := by
  obtain ⟨root, hreader, hroot⟩ := hjsoncpp
  have htexts : (∀ key ∈ textKeys, ∀ s, members.lookup key = some (.string s) → (0 : UInt8) ∉ s) ↔
      ∀ key ∈ textKeys, (0 : UInt8) ∉ textOf members key := by
    refine forall₂_congr fun key hkey => ?_
    have htext := hobject.texts key hkey
    unfold textOf
    generalize members.lookup key = value at htext ⊢
    cases value with
    | none => simp
    | some value =>
        obtain ⟨s, rfl⟩ := htext _ rfl
        simp
  rw [htexts, ofBson, jsonToMap, ofJson_of_members hreader hroot hobject]
  cases hbson : platform.newFromJson source with
  | none => simp
  | some document =>
      rw [Option.map_some, Option.bind_some, message_of_members hobject (hlibbson document hbson)]
      rw [← ofFields_cStr_iff]
      simp only [Option.some.injEq, exists_eq_left', Option.isSome_some, true_and]
      split
      · rename_i htimes
        rw [Option.some.injEq, and_iff_right htimes]
      · rename_i htimes
        constructor
        · intro hnone
          cases hnone
        · intro h
          exact (htimes h.1).elim

/-- A task as it lies in the queue, and the document that libbson makes of it. -/
def timedText : Bytes :=
  text "\x7b\"UserId\":\"7\",\"CreateTime\":1500000000,\"ExpiresTime\":10\x7d"

def timedMembers : List (Bytes × Json) :=
  [(text "UserId", .string (text "7")), (text "CreateTime", .int 1500000000),
    (text "ExpiresTime", .int 10)]

theorem nodup_timedDocument : ([(text "UserId", BsonValue.utf8 (text "7")),
    (text "CreateTime", .int32 1500000000), (text "ExpiresTime", .int32 10)].map Prod.fst).Nodup := by
  simp only [List.map_cons, List.map_nil]
  decide

def timedDocument : Document := ⟨_, nodup_timedDocument⟩

/-- A system on which both libraries know one text. -/
def bothPlatform (source : Bytes) (value : Json) (document : Document) : Platform :=
  { textPlatform source value with newFromJson := fun src => if src = source then some document else none }

theorem newFromJson_both (source : Bytes) (value : Json) (document : Document) :
    (bothPlatform source value document).newFromJson source = some document := if_pos rfl

theorem taskObject_timed : TaskObject timedMembers := by
  constructor
  · intro key hkey value hvalue
    have hmember := mem_of_lookup hvalue
    simp only [timedMembers, List.mem_cons, Prod.mk.injEq, List.not_mem_nil, or_false] at hmember
    rcases hmember with ⟨-, rfl⟩ | ⟨rfl, -⟩ | ⟨rfl, -⟩
    · exact ⟨_, rfl⟩
    · exact absurd hkey (by decide)
    · exact absurd hkey (by decide)
  · intro key hkey value hvalue
    have hmember := mem_of_lookup hvalue
    simp only [timedMembers, List.mem_cons, Prod.mk.injEq, List.not_mem_nil, or_false] at hmember
    rcases hmember with ⟨rfl, -⟩ | ⟨-, rfl⟩ | ⟨-, rfl⟩
    · exact absurd hkey (by decide)
    · exact ⟨_, rfl, by decide, by decide⟩
    · exact ⟨_, rfl, by decide, by decide⟩

theorem storedAs_timed : StoredAs timedMembers timedDocument :=
  storedAs_of_forall₂ (.cons ⟨rfl, .string _⟩ (.cons ⟨rfl, .int32 1500000000 (by decide) (by decide)⟩
    (.cons ⟨rfl, .int32 10 (by decide) (by decide)⟩ .nil)))

theorem ofJson_agrees_ofBson_timed : ∃ message,
    ofJson (bothPlatform timedText (.object timedMembers) timedDocument) timedText = some message ∧
      ofBson (bothPlatform timedText (.object timedMembers) timedDocument) timedText = some message := by
  refine (ofJson_agrees_ofBson_iff _ timedText timedMembers taskObject_timed
    ⟨.object timedMembers, rfl, readBack_self rfl (by decide)⟩ ?_).mpr ⟨rfl, by decide, ?_⟩
  · intro document h
    rw [newFromJson_both] at h
    rw [← Option.some.inj h]
    exact storedAs_timed
  · intro key _ s hs
    have hmember := mem_of_lookup hs
    simp only [timedMembers, List.mem_cons, Prod.mk.injEq, Json.string.injEq, List.not_mem_nil,
      reduceCtorEq, and_false, or_false] at hmember
    rw [hmember.2]
    decide

/-- A task without times. -/
def untimedText : Bytes := text "\x7b\"UserId\":\"7\"\x7d"

def untimedMembers : List (Bytes × Json) := [(text "UserId", .string (text "7"))]

def untimedDocument : Document := ⟨[(text "UserId", .utf8 (text "7"))], List.nodup_singleton _⟩

/-- Without times, jsoncpp's defaults make a message and the assertion of `StringToLong` fails. -/
theorem not_ofJson_agrees_ofBson_untimed : ∃ platform : Platform,
    TaskObject untimedMembers ∧
      (∃ root, platform.reader untimedText = some root ∧ ReadBack root (.object untimedMembers)) ∧
      (∃ document, platform.newFromJson untimedText = some document ∧ StoredAs untimedMembers document) ∧
      (ofJson platform untimedText).isSome = true ∧ ofBson platform untimedText = none := by
  refine ⟨bothPlatform untimedText (.object untimedMembers) untimedDocument,
    ⟨?_, ?_⟩, ⟨.object untimedMembers, rfl, readBack_self rfl (by decide)⟩,
    ⟨untimedDocument, rfl, storedAs_of_forall₂ (.cons ⟨rfl, .string _⟩ .nil)⟩, rfl, rfl⟩
  · intro key _ value hvalue
    have hmember := mem_of_lookup hvalue
    rw [untimedMembers, List.mem_singleton, Prod.mk.injEq] at hmember
    exact ⟨_, hmember.2⟩
  · intro key hkey value hvalue
    have hmember := mem_of_lookup hvalue
    rw [untimedMembers, List.mem_singleton, Prod.mk.injEq] at hmember
    rw [hmember.1] at hkey
    exact absurd hkey (by decide)

end LPushWorkerMessage

end LinkedonPush
