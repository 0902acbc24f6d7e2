import Mathlib.Data.Vector.Basic
import LinkedonPush.Kernel.Base

/-!
# BSON documents

The values of libbson as far as `jsonToMap` looks at them.
-/

namespace LinkedonPush

inductive BsonValue where
  | utf8 (value : Bytes)
  | oid (bytes : List.Vector UInt8 12)
  | int32 (value : BitVec 32)
  | int64 (value : BitVec 64)
  | double (bits : BitVec 64)
  | other

/-- A document; no field name occurs twice. -/
structure Document where
  members : List (Bytes × BsonValue)
  nodup : (members.map Prod.fst).Nodup

end LinkedonPush
