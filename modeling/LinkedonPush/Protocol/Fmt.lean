import LinkedonPush.Kernel.ReadBack
import LinkedonPush.Theory.Access

/-!
# Formatted bodies

`isType`, `decodeJson` and `decodeString` of `lpushFmt.cpp`. They get a pointer into a chunk's body
and no length, so the memory is a function of the offset from the body's first byte, defined beyond
the body too. A `SafeDelete` of a `malloc`ed block counts as freeing it, and the NUL that
`decodeString` writes behind its copy as harmless.
-/

namespace LinkedonPush

open Theory

/-- A body of `datalenght` bytes, and what lies behind it. -/
def bodyMemory (data : Bytes) (beyond : Nat → UInt8) (offset : Nat) : UInt8 :=
  data.getD offset (beyond (offset - data.length))

namespace LPushFMT

def lpushFmtString : UInt8 := 0x01
def lpushFmtJson : UInt8 := 0x06

def readByte (memory : Nat → UInt8) (offset : Nat) : Access UInt8 := ⟨[offset], some (memory offset)⟩

def isType (memory : Nat → UInt8) (data : Nat) : Access UInt8 := do
  let byte ← readByte memory data
  pure (byte &&& 0x0F)

/-- The length that four bytes of the body spell. -/
def innerLength (memory : Nat → UInt8) (offset : Nat) : BitVec 32 :=
  assembleInt (memory offset) (memory (offset + 1)) (memory (offset + 2)) (memory (offset + 3))

def readLength (memory : Nat → UInt8) (offset : Nat) : Access (BitVec 32) :=
  ⟨[offset, offset + 1, offset + 2, offset + 3], some (innerLength memory offset)⟩

/-- An `int` as an argument of type `size_t`. -/
def sizeT (n : BitVec 32) : Nat := (n.signExtend 64).toNat

/-- `malloc(n)`, then `memset` and `memcpy` of `n` bytes: the copied block. Without a block,
`memset` faults unless `n` is 0. -/
def copyOut (platform : Platform) (memory : Nat → UInt8) (offset : Nat) (n : BitVec 32) :
    Access (Option Bytes) :=
  if platform.malloc (sizeT n) then do
    let block ← Access.readAt memory offset (sizeT n)
    pure (some block)
  else if sizeT n = 0 then pure none
  else Access.fault

/-- The loop over the members: `asString` may raise. -/
def stringMembers (root : Json) : Option StringMap := do
  let members ← root.members
  members.mapM fun (key, value) => do
    let value ← value.asString
    pure (key, value)

section

variable {root : Json} {parms : StringMap}

/-- The loop of `decodeJson` over members that can be read as text. -/
theorem mapM_asString {members : List (Bytes × Json)}
    (h : ∀ member ∈ members, (member.2.asString).isSome = true) :
    ∃ parms : StringMap, (members.mapM fun (key, value) => do
        let value ← value.asString
        pure (key, value)) = some parms ∧
      ∀ key, parms.lookup key = (members.lookup key).bind Json.asString := by
  induction members with
  | nil => exact ⟨[], rfl, fun key => rfl⟩
  | cons member members ih =>
      obtain ⟨first, value⟩ := member
      obtain ⟨shown, hshown⟩ := Option.isSome_iff_exists.mp (h _ List.mem_cons_self)
      obtain ⟨parms, hparms, hlookup⟩ := ih fun member hmember => h member (List.mem_cons_of_mem _ hmember)
      refine ⟨(first, shown) :: parms, ?_, fun key => ?_⟩
      · rw [List.mapM_cons, hparms]
        dsimp only at hshown ⊢
        rw [hshown]
        rfl
      · rw [Json.lookup_cons_ite, Json.lookup_cons_ite, hlookup]
        split
        · exact hshown.symm
        · rfl

/-- The loop gets through exactly the flat values. -/
theorem flat_iff_stringMembers : root.Flat ↔ ∃ parms, stringMembers root = some parms := by
  constructor
  · rintro ⟨members, hmembers, hscalar⟩
    obtain ⟨parms, hparms, -⟩ := mapM_asString fun member hmember => by
      rw [Json.isSome_asString]
      exact hscalar member hmember
    refine ⟨parms, ?_⟩
    rw [stringMembers, hmembers]
    exact hparms
  · rintro ⟨parms, hparms⟩
    obtain ⟨members, hmembers, hloop⟩ := Option.bind_eq_some_iff.mp hparms
    refine ⟨members, hmembers, ?_⟩
    clear hmembers hparms
    induction members generalizing parms with
    | nil => exact fun _ hmem => (List.not_mem_nil hmem).elim
    | cons member members ih =>
        rw [List.mapM_cons] at hloop
        obtain ⟨shown, hshown, hloop⟩ := Option.bind_eq_some_iff.mp hloop
        obtain ⟨tail, htail, -⟩ := Option.bind_eq_some_iff.mp hloop
        obtain ⟨value, hvalue, -⟩ := Option.bind_eq_some_iff.mp hshown
        intro other hother
        rcases List.mem_cons.mp hother with rfl | hother
        · rw [← Json.isSome_asString, hvalue]
          rfl
        · exact ih _ htail other hother

/-- What it stores under a key. -/
theorem get_of_stringMembers (h : stringMembers root = some parms) (key : Bytes) :
    parms.get key = root.textOf key := by
  obtain ⟨members, hmembers, hscalar⟩ := flat_iff_stringMembers.mpr ⟨parms, h⟩
  obtain ⟨parms', hparms', hlookup⟩ := mapM_asString fun member hmember =>
    (Json.isSome_asString member.2).trans (hscalar member hmember)
  rw [stringMembers, hmembers] at h
  obtain rfl := Option.some.inj (hparms'.symm.trans h)
  rw [StringMap.get, hlookup, Json.textOf, Json.get, hmembers, Option.map_some, Option.bind_some]
  cases members.lookup key <;> rfl

/-- The members that were written, printed and parsed are the ones that it stores. -/
theorem stringMembers_of_withMembers {entries : List (Bytes × Option Json)}
    (hdistinct : (entries.map Prod.fst).Nodup)
    (hscalar : ∀ entry ∈ entries, ∀ value, entry.2 = some value → (value.asString).isSome = true)
    (hroot : Json.ReadBack root (Json.withMembers entries .null)) :
    ∃ parms, stringMembers root = some parms ∧
      ∀ key, parms.lookup key = (entries.lookup key).join.bind Json.asString := by
  obtain ⟨members, written, hmembers, hwritten, hnodup, hrel⟩ := hroot
  have hnull : Json.null.members = some [] := rfl
  obtain ⟨_, heq, hlookup⟩ := Json.members_withMembers hdistinct hnull
  obtain rfl := Option.some.inj (hwritten.symm.trans heq)
  simp only [List.lookup_nil, Option.or_none] at hlookup
  have hshown : ∀ key, (members.lookup key).bind Json.asString =
      (entries.lookup key).join.bind Json.asString := by
    intro key
    rw [← hlookup]
    have hkey := hrel key
    generalize members.lookup key = parsed at hkey ⊢
    generalize written.lookup key = value at hkey ⊢
    cases hkey with
    | none => rfl
    | some hsame => exact hsame.asString
  have hall : ∀ member ∈ members, (member.2.asString).isSome = true := by
    intro member hmember
    have hkey := hrel member.1
    rw [Json.lookup_of_mem hnodup hmember, hlookup] at hkey
    generalize hentry : (entries.lookup member.1).join = value at hkey
    cases hkey with
    | some hsame =>
        rw [Option.join_eq_some_iff] at hentry
        rw [hsame.asString]
        exact hscalar _ (Json.mem_of_lookup hentry) _ rfl
  obtain ⟨parms, hparms, hparmsLookup⟩ := mapM_asString hall
  refine ⟨parms, ?_, fun key => (hparmsLookup key).trans (hshown key)⟩
  rw [stringMembers, hmembers]
  exact hparms

end

/-- The returned length, or `ERROR_FMT`, and the members of the object. -/
def decodeJson (platform : Platform) (memory : Nat → UInt8) (data : Nat) :
    Access (Int × StringMap) := do
  let tag ← readByte memory data
  if tag &&& 0x0F = lpushFmtJson then
    let jsonLenght ← readLength memory (data + 1)
    let jsonData ← copyOut platform memory (data + 5) jsonLenght
    -- without a block, the text runs from null to null
    match platform.reader (jsonData.getD []) with
    | none => pure (errorFmt, [])
    | some root =>
        match stringMembers root with
        | none => Access.fault
        | some ret => pure ((5 + jsonLenght).toInt, ret)
  else
    pure (1, [])

/-- The returned length and the string, which stays empty where no string is found. -/
def decodeString (platform : Platform) (memory : Nat → UInt8) (data : Nat) : Access (Int × Bytes) := do
  let tag ← readByte memory data
  if tag &&& 0x0F = lpushFmtString then
    let stringlen ← readLength memory (data + 1)
    let stringData ← copyOut platform memory (data + 5) stringlen
    match stringData with
    -- the terminating NUL is written through a null pointer
    | none => Access.fault
    | some stringData => pure ((5 + stringlen).toInt, cStr stringData)
  else
    pure (1, [])

/-- The members come from the parser, or there are none. -/
theorem decodeJson_spec {platform : Platform} {memory : Nat → UInt8} {data : Nat} {len : Int} {parms : StringMap}
    (h : (decodeJson platform memory data).result = some (len, parms)) :
    parms = [] ∨ ∃ source root, platform.reader source = some root ∧ stringMembers root = some parms := by
  unfold decodeJson at h
  rw [Access.result_bind] at h
  obtain ⟨tag, -, h⟩ := Option.bind_eq_some_iff.mp h
  split at h
  · rw [Access.result_bind] at h
    obtain ⟨jsonLenght, -, h⟩ := Option.bind_eq_some_iff.mp h
    rw [Access.result_bind] at h
    obtain ⟨jsonData, -, h⟩ := Option.bind_eq_some_iff.mp h
    split at h
    · cases h
      exact .inl rfl
    · rename_i root hroot
      split at h
      · cases h
      · rename_i ret hret
        cases h
        exact .inr ⟨_, root, hroot, hret⟩
  · cases h
    exact .inl rfl

/-! ### The bytes they read -/

/-- The text that follows a prefix at `data` lies in the first `size` bytes, or is never copied. -/
def TextFits (platform : Platform) (memory : Nat → UInt8) (size data : Nat) : Prop :=
  data + 5 ≤ size ∧
    (data + 5 + sizeT (innerLength memory (data + 1)) ≤ size ∨
      platform.malloc (sizeT (innerLength memory (data + 1))) = false)

section

variable {platform : Platform} {memory : Nat → UInt8} {size data : Nat}

@[simp] theorem within_readByte {offset : Nat} :
    (readByte memory offset).Within size ↔ offset < size := by
  simp only [Access.Within, readByte, List.mem_singleton, forall_eq]

@[simp] theorem result_readByte (offset : Nat) :
    (readByte memory offset).result = some (memory offset) := rfl

theorem within_readLength {offset : Nat} :
    (readLength memory offset).Within size ↔ offset + 4 ≤ size := by
  simp only [Access.Within, readLength, List.mem_cons, List.not_mem_nil, or_false, forall_eq_or_imp,
    forall_eq]
  omega

@[simp] theorem result_readLength (offset : Nat) :
    (readLength memory offset).result = some (innerLength memory offset) := rfl

theorem within_copyOut {offset : Nat} {n : BitVec 32} (hoffset : offset ≤ size) :
    (copyOut platform memory offset n).Within size ↔
      offset + sizeT n ≤ size ∨ platform.malloc (sizeT n) = false := by
  unfold copyOut
  split
  · rename_i hmalloc
    rw [Access.within_bind, hmalloc]
    rcases Nat.eq_zero_or_pos (sizeT n) with hzero | hpos
    · rw [hzero]
      have hnothing : (Access.readAt memory offset 0).Within size := fun _ h => (List.not_mem_nil h).elim
      simp only [hnothing, Access.within_pure, implies_true, and_self, Nat.add_zero, hoffset, true_or]
    · rw [Access.within_readAt hpos]
      simp only [Access.within_pure, implies_true, and_true, Bool.true_eq_false, or_false]
  · rename_i hmalloc
    have hrefused : platform.malloc (sizeT n) = false := Bool.eq_false_iff.mpr hmalloc
    simp only [hrefused, or_true, iff_true]
    split
    · exact Access.within_pure _ _
    · exact Access.within_fault _

/-- A decoder reads the tag and, where the tag is its own, the prefix and the text. -/
theorem within_decode {α : Type} {kind : UInt8} {next : BitVec 32 → Option Bytes → Access α}
    {other : Access α} (hnext : ∀ n block, (next n block).Within size) (hother : other.Within size) :
    (do
        let tag ← readByte memory data
        if tag &&& 0x0F = kind then
          let n ← readLength memory (data + 1)
          let block ← copyOut platform memory (data + 5) n
          next n block
        else other : Access α).Within size ↔
      data < size ∧ (memory data &&& 0x0F = kind → TextFits platform memory size data) := by
  rw [Access.within_bind, within_readByte]
  simp only [result_readByte, Option.some.injEq, forall_eq']
  apply and_congr_right
  intro hdata
  split
  · rename_i htag
    simp only [htag, forall_const]
    rw [Access.within_bind, within_readLength]
    simp only [result_readLength, Option.some.injEq, forall_eq']
    rw [TextFits, show data + 1 + 4 = data + 5 from rfl]
    apply and_congr_right
    intro hprefixed
    rw [Access.within_bind, within_copyOut hprefixed]
    simp only [hnext, implies_true, and_true]
  · rename_i htag
    simp only [hother, htag, false_implies]

theorem within_decodeJson :
    (decodeJson platform memory data).Within size ↔
      data < size ∧ (memory data &&& 0x0F = lpushFmtJson → TextFits platform memory size data) := by
  apply within_decode
  · intro n block
    split
    · exact Access.within_pure _ _
    · split
      · exact Access.within_fault _
      · exact Access.within_pure _ _
  · exact Access.within_pure _ _

theorem within_decodeString :
    (decodeString platform memory data).Within size ↔
      data < size ∧ (memory data &&& 0x0F = lpushFmtString → TextFits platform memory size data) := by
  apply within_decode
  · intro n block
    split
    · exact Access.within_fault _
    · exact Access.within_pure _ _
  · exact Access.within_pure _ _

end

end LPushFMT

/-! ### Texts inside a body -/

/-- The text behind a tag at `offset` and the length that follows the tag. -/
def textAt (data : Bytes) (offset : Nat) : Bytes :=
  (data.drop (offset + 5)).take (LPushFMT.sizeT (intAt data (offset + 1)))

/-- The text ends inside the body. -/
def HoldsText (data : Bytes) (offset : Nat) : Prop :=
  offset + 5 + LPushFMT.sizeT (intAt data (offset + 1)) ≤ data.length

section

variable {platform : Platform} {data : Bytes} {beyond : Nat → UInt8} {offset : Nat}

theorem bodyMemory_of_lt (h : offset < data.length) : bodyMemory data beyond offset = data[offset] := by
  rw [bodyMemory, List.getD_eq_getElem?_getD, List.getElem?_eq_getElem h, Option.getD_some]

theorem bodyMemory_eq_getD (h : offset < data.length) : bodyMemory data beyond offset = data.getD offset 0 := by
  rw [bodyMemory_of_lt h, List.getD_eq_getElem?_getD, List.getElem?_eq_getElem h, Option.getD_some]

theorem map_bodyMemory {size : Nat} (h : offset + size ≤ data.length) :
    (List.range' offset size).map (bodyMemory data beyond) = (data.drop offset).take size := by
  apply List.ext_getElem
  · simp only [List.length_map, List.length_range', List.length_take, List.length_drop]
    omega
  · intro i hfirst _
    rw [List.length_map, List.length_range'] at hfirst
    rw [List.getElem_map, List.getElem_range', List.getElem_take, List.getElem_drop,
      bodyMemory_of_lt (by omega)]
    simp only [Nat.one_mul]

theorem innerLength_bodyMemory (h : offset + 4 ≤ data.length) :
    LPushFMT.innerLength (bodyMemory data beyond) offset = intAt data offset := by
  rw [LPushFMT.innerLength, bodyMemory_eq_getD (by omega), bodyMemory_eq_getD (by omega),
    bodyMemory_eq_getD (by omega), bodyMemory_eq_getD (by omega)]
  rfl

/-- An `int` that is a size and fits a body. -/
theorem toInt_of_sizeT {n : BitVec 32} {size : Nat} (h : LPushFMT.sizeT n ≤ size) (hsize : size < 2 ^ 63) :
    n.toInt = LPushFMT.sizeT n := by
  rw [LPushFMT.sizeT] at h ⊢
  by_cases hneg : n.toInt < 0
  · have hhuge := le_toNat_signExtend hneg
    omega
  · exact (toNat_signExtend (not_lt.mp hneg)).symm

theorem sizeT_of_nonneg {n : BitVec 32} (h : 0 ≤ n.toInt) : (LPushFMT.sizeT n : Int) = n.toInt :=
  toNat_signExtend h

/-- A text that is read inside the body ends inside it, or is longer than the body and finds no
memory. -/
theorem holdsText_or_refused (hmalloc : ∀ n ≤ data.length, platform.malloc n = true)
    (h : LPushFMT.TextFits platform (bodyMemory data beyond) data.length offset) :
    HoldsText data offset ∨ (data.length < LPushFMT.sizeT (intAt data (offset + 1)) ∧
      platform.malloc (LPushFMT.sizeT (intAt data (offset + 1))) = false) := by
  obtain ⟨hprefixed, hfits⟩ := h
  rw [innerLength_bodyMemory (by omega)] at hfits
  rcases hfits with hfits | hrefused
  · exact .inl hfits
  · right
    refine ⟨?_, hrefused⟩
    by_contra hshort
    rw [hmalloc _ (not_lt.mp hshort)] at hrefused
    cases hrefused

theorem result_copyOut_refused {memory : Nat → UInt8} {n : BitVec 32} (hpos : 0 < LPushFMT.sizeT n)
    (hrefused : platform.malloc (LPushFMT.sizeT n) = false) :
    (LPushFMT.copyOut platform memory offset n).result = none := by
  rw [LPushFMT.copyOut, if_neg (by rw [hrefused]; exact Bool.false_ne_true), if_neg (by omega)]
  rfl

/-- The copy of a text that ends inside the body. -/
theorem result_copyOut (htext : HoldsText data offset)
    (hmalloc : platform.malloc (LPushFMT.sizeT (intAt data (offset + 1))) = true) :
    (LPushFMT.copyOut platform (bodyMemory data beyond) (offset + 5) (intAt data (offset + 1))).result =
      some (some (textAt data offset)) := by
  rw [LPushFMT.copyOut, if_pos hmalloc, Access.result_bind, Access.readAt, Option.bind_some,
    Access.result_pure, map_bodyMemory htext]
  rfl

/-- Behind its tag and its length, a JSON text is copied and read. -/
theorem result_decodeJson (htag : data.getD offset 0 &&& 0x0F = LPushFMT.lpushFmtJson)
    (hprefixed : offset + 5 ≤ data.length) :
    (LPushFMT.decodeJson platform (bodyMemory data beyond) offset).result =
      (LPushFMT.copyOut platform (bodyMemory data beyond) (offset + 5) (intAt data (offset + 1))).result.bind
        fun jsonData =>
          match platform.reader (jsonData.getD []) with
          | none => some (errorFmt, [])
          | some root => (LPushFMT.stringMembers root).map ((5 + intAt data (offset + 1)).toInt, ·) := by
  have hmemory : bodyMemory data beyond offset &&& 0x0F = LPushFMT.lpushFmtJson := by
    rw [bodyMemory_eq_getD (by omega), htag]
  unfold LPushFMT.decodeJson
  rw [Access.result_bind, LPushFMT.result_readByte, Option.bind_some, if_pos hmemory, Access.result_bind,
    LPushFMT.result_readLength, Option.bind_some, innerLength_bodyMemory (by omega), Access.result_bind]
  congr 1
  funext jsonData
  cases platform.reader (jsonData.getD []) with
  | none => rfl
  | some root =>
      dsimp only
      cases LPushFMT.stringMembers root <;> rfl

theorem result_decodeJson_text (htag : data.getD offset 0 &&& 0x0F = LPushFMT.lpushFmtJson)
    (htext : HoldsText data offset)
    (hmalloc : platform.malloc (LPushFMT.sizeT (intAt data (offset + 1))) = true) :
    (LPushFMT.decodeJson platform (bodyMemory data beyond) offset).result =
      match platform.reader (textAt data offset) with
      | none => some (errorFmt, [])
      | some root => (LPushFMT.stringMembers root).map ((5 + intAt data (offset + 1)).toInt, ·) := by
  have hprefixed : offset + 5 ≤ data.length := (Nat.le_add_right _ _).trans htext
  rw [result_decodeJson htag hprefixed, result_copyOut htext hmalloc, Option.bind_some, Option.getD_some]

theorem result_decodeJson_refused (htag : data.getD offset 0 &&& 0x0F = LPushFMT.lpushFmtJson)
    (hprefixed : offset + 5 ≤ data.length) (hpos : 0 < LPushFMT.sizeT (intAt data (offset + 1)))
    (hrefused : platform.malloc (LPushFMT.sizeT (intAt data (offset + 1))) = false) :
    (LPushFMT.decodeJson platform (bodyMemory data beyond) offset).result = none := by
  rw [result_decodeJson htag hprefixed, result_copyOut_refused hpos hrefused, Option.bind_none]

theorem result_decodeString_text (htag : data.getD offset 0 &&& 0x0F = LPushFMT.lpushFmtString)
    (htext : HoldsText data offset)
    (hmalloc : platform.malloc (LPushFMT.sizeT (intAt data (offset + 1))) = true) :
    (LPushFMT.decodeString platform (bodyMemory data beyond) offset).result =
      some ((5 + intAt data (offset + 1)).toInt, cStr (textAt data offset)) := by
  have hprefixed : offset + 5 ≤ data.length := (Nat.le_add_right _ _).trans htext
  have hmemory : bodyMemory data beyond offset &&& 0x0F = LPushFMT.lpushFmtString := by
    rw [bodyMemory_eq_getD (by omega), htag]
  unfold LPushFMT.decodeString
  rw [Access.result_bind, LPushFMT.result_readByte, Option.bind_some, if_pos hmemory, Access.result_bind,
    LPushFMT.result_readLength, Option.bind_some, innerLength_bodyMemory (by omega), Access.result_bind,
    result_copyOut htext hmalloc]
  rfl

/-- A wrong tag counts as one byte without a string. -/
theorem result_decodeString_of_ne
    (htag : bodyMemory data beyond offset &&& 0x0F ≠ LPushFMT.lpushFmtString) :
    (LPushFMT.decodeString platform (bodyMemory data beyond) offset).result = some (1, []) := by
  unfold LPushFMT.decodeString
  rw [Access.result_bind, LPushFMT.result_readByte, Option.bind_some, if_neg htag]
  rfl

end

/-! ### The bodies that carry a JSON text -/

/-- A JSON text with its tag and its length. -/
def jsonBody (json : Bytes) : Bytes :=
  LPushFMT.lpushFmtJson :: byteAt (BitVec.ofNat 32 json.length) 24 ::
    byteAt (BitVec.ofNat 32 json.length) 16 :: byteAt (BitVec.ofNat 32 json.length) 8 ::
      byteAt (BitVec.ofNat 32 json.length) 0 :: json

section

variable {data json : Bytes} {beyond : Nat → UInt8}

/-- A length below the sign bit is the number it was made from. -/
theorem sizeT_ofNat {n : Nat} (h : n < 2 ^ 31) : LPushFMT.sizeT (BitVec.ofNat 32 n) = n := by
  have hmsb : (BitVec.ofNat 32 n).msb = false := by
    rw [BitVec.msb_eq_false_iff_two_mul_lt, BitVec.toNat_ofNat]
    omega
  rw [LPushFMT.sizeT, BitVec.signExtend_eq_setWidth_of_msb_false hmsb, BitVec.toNat_setWidth,
    BitVec.toNat_ofNat]
  omega

/-- `decodeJson` takes the text by its inner length and counts it, whatever follows. -/
theorem result_decodeJson_jsonBody {platform : Platform} {root : Json} {parms : StringMap}
    (hlength : json.length < 2 ^ 31 - 5) (hmalloc : platform.malloc json.length = true)
    (hreader : platform.reader json = some root) (hmembers : LPushFMT.stringMembers root = some parms)
    (rest : Bytes) :
    (LPushFMT.decodeJson platform (bodyMemory (jsonBody json ++ rest) beyond) 0).result =
      some ((BitVec.ofNat 32 (json.length + 5)).toInt, parms) := by
  have htag : (jsonBody json ++ rest).getD 0 0 &&& 0x0F = LPushFMT.lpushFmtJson := by
    change LPushFMT.lpushFmtJson &&& 0x0F = LPushFMT.lpushFmtJson
    decide
  have hint : intAt (jsonBody json ++ rest) (0 + 1) = BitVec.ofNat 32 json.length := assembleInt_byteAt _
  have hsize : LPushFMT.sizeT (BitVec.ofNat 32 json.length) = json.length := sizeT_ofNat (by omega)
  have htext : HoldsText (jsonBody json ++ rest) 0 := by
    rw [HoldsText, hint, hsize, List.length_append]
    simp only [jsonBody, List.length_cons]
    omega
  have htextAt : textAt (jsonBody json ++ rest) 0 = json := by
    rw [textAt, hint, hsize]
    exact List.take_left
  have hret : 5 + BitVec.ofNat 32 json.length = BitVec.ofNat 32 (json.length + 5) := by
    rw [BitVec.ofNat_add, BitVec.add_comm]
    rfl
  rw [result_decodeJson_text htag htext (by rw [hint, hsize, hmalloc]), htextAt, hreader, hint, hret]
  dsimp only
  rw [hmembers]
  rfl

end

end LinkedonPush
