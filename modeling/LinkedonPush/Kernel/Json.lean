import LinkedonPush.Kernel.Bson
import LinkedonPush.Kernel.Utils

/-!
# JSON values

The values of jsoncpp as far as the server inspects them. What jsoncpp and libbson, which lie packed
under `3rdparty`, parse and print, the MD5 digest and the answer of `malloc` are up to a `Platform`.
-/

namespace LinkedonPush

/-- A parsed value. An array is never looked into. A number with a fraction or beyond 64 bits
carries its printed form and its truncation to `Int64`, if that exists. -/
inductive Json where
  | null
  | bool (value : Bool)
  | int (value : Int)
  | uint (value : Nat)
  | real (shown : Bytes) (truncated : Option Int)
  | string (value : Bytes)
  | array
  | object (members : List (Bytes × Json))

structure Platform where
  /-- `Json::Reader::parse`, `none` where it returns false. -/
  reader : Bytes → Option Json
  /-- `toStyledString`. -/
  writer : Json → Bytes
  /-- `bson_as_json`, `none` where it returns NULL. -/
  asJson : Document → Option Bytes
  /-- `bson_new_from_json`, `none` where it returns NULL. -/
  newFromJson : Bytes → Option Document
  /-- `MD5` of OpenSSL. -/
  md5 : Bytes → List.Vector UInt8 16
  /-- Whether `malloc` grants a block of this many bytes. -/
  malloc : Nat → Bool

/-- A `std::map<std::string, std::string>`; the first entry for a key counts. -/
abbrev StringMap := List (Bytes × Bytes)

/-- `map[key]`, which makes an absent key an empty string. -/
def StringMap.get (map : StringMap) (key : Bytes) : Bytes := (map.lookup key).getD []

namespace Json

/-- `asString`; `none` where it raises. -/
def asString : Json → Option Bytes
  | null => some []
  | bool value => some (if value then text "true" else text "false")
  | int value => some (decimal value)
  | uint value => some (decimal value)
  | real shown _ => some shown
  | string value => some value
  | array => none
  | object _ => none

/-- `asInt64`; `none` where it raises. -/
def asInt64 : Json → Option Int
  | null => some 0
  | bool value => some (if value then 1 else 0)
  | int value => some value
  | uint value => if (value : Int) ≤ maxInt64 then some value else none
  | real _ truncated => truncated
  | string _ => none
  | array => none
  | object _ => none

/-- The members `getMemberNames` lists; `none` where it raises. -/
def members : Json → Option (List (Bytes × Json))
  | null => some []
  | object members => some members
  | _ => none

/-- `json[key]`, null for an absent member; `none` where it raises. -/
def get (json : Json) (key : Bytes) : Option Json :=
  json.members.map fun members => (members.lookup key).getD null

/-- Members are kept in the order of their keys. -/
def insertMember (key : Bytes) (value : Json) : List (Bytes × Json) → List (Bytes × Json)
  | [] => [(key, value)]
  | (key', value') :: rest =>
      if key = key' then (key, value) :: rest
      else if key < key' then (key, value) :: (key', value') :: rest
      else (key', value') :: insertMember key value rest

/-- `json[key] = value` on a null value or an object. -/
def set (json : Json) (key : Bytes) (value : Json) : Json :=
  match json with
  | object members => object (insertMember key value members)
  | _ => object [(key, value)]

/-! ### Values that show as text -/

def isScalar : Json → Bool
  | array => false
  | object _ => false
  | _ => true

theorem isSome_asString (json : Json) : json.asString.isSome = json.isScalar := by
  cases json <;> rfl

/-- Null, or an object of scalars. -/
def Flat (json : Json) : Prop :=
  ∃ members, json.members = some members ∧ ∀ member ∈ members, member.2.isScalar = true

/-- Null, or an object whose text members are scalars and whose times are numbers. -/
def Readable (json : Json) : Prop :=
  ∃ members, json.members = some members ∧
    (∀ key ∈ ["TaskId", "MsgId", "AppKey", "AppSecret", "Content", "UserId", "Title", "Ext"],
      ∀ value, members.lookup (text key) = some value → value.isScalar = true) ∧
    ∀ key ∈ ["CreateTime", "ExpiresTime"],
      ∀ value, members.lookup (text key) = some value → value.asInt64.isSome = true

/-- The text of a member, empty for an absent one. -/
def textOf (json : Json) (key : Bytes) : Bytes := ((json.get key).bind asString).getD []

end Json

/-! ### Small systems -/

/-- A system whose parser accepts nothing and whose `malloc` grants what an address space holds. -/
def barePlatform : Platform where
  reader := fun _ => none
  writer := fun _ => []
  asJson := fun _ => none
  newFromJson := fun _ => none
  md5 := fun _ => List.Vector.replicate 16 0
  malloc := fun n => n < 2 ^ 47

/-- The same system with a jsoncpp that knows one value and its text. -/
def textPlatform (source : Bytes) (value : Json) : Platform :=
  { barePlatform with
    reader := fun src => if src = source then some value else none
    writer := fun _ => source }

end LinkedonPush
